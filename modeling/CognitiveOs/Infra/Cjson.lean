import CognitiveOs.Infra.Json
import CognitiveOs.Infra.Scan

/-!
# Parsing JSON

`cJSON_Parse` of the vendored cJSON, on the text before the terminator. Text after the first
value is ignored, and a number is the value of its literal.
-/

namespace CognitiveOs.Infra.Cjson

/-- `buffer_skip_whitespace`. -/
def skipSpace (s : Text) : Text :=
  s.dropWhile (· ≤ 32)

@[simp] theorem skipSpace_cons {c : UInt8} {s : Text} (visible : 32 < c) : skipSpace (c :: s) = c :: s := by
  have large : ¬ c ≤ 32 := UInt8.not_le.mpr visible
  simp [skipSpace, large]

/-! ### Strings -/

def splitString : Text → Option (Text × Text)
  | [] => none
  | c :: rest =>
    if c = 34 then some ([], rest)
    else if c = 92 then
      match rest with
      | [] => none
      | escaped :: rest => (splitString rest).map fun (raw, after) => (c :: escaped :: raw, after)
    else (splitString rest).map fun (raw, after) => (c :: raw, after)

def hexValue? (c : UInt8) : Option Nat :=
  if 48 ≤ c ∧ c ≤ 57 then some (c.toNat - 48)
  else if 65 ≤ c ∧ c ≤ 70 then some (c.toNat - 55)
  else if 97 ≤ c ∧ c ≤ 102 then some (c.toNat - 87)
  else none

/-- `parse_hex4`: 0 for what is no number. -/
def parseHex4 (s : Text) : Nat :=
  match (s.take 4).mapM hexValue? with
  | some digits => digits.foldl (fun h digit => 16 * h + digit) 0
  | none => 0

def encodeUtf8 (cp : Nat) : Text :=
  if cp < 0x80 then [cp.toUInt8]
  else if cp < 0x800 then [(0xC0 + cp / 64).toUInt8, (0x80 + cp % 64).toUInt8]
  else if cp < 0x10000 then
    [(0xE0 + cp / 4096).toUInt8, (0x80 + cp / 64 % 64).toUInt8, (0x80 + cp % 64).toUInt8]
  else
    [(0xF0 + cp / 262144).toUInt8, (0x80 + cp / 4096 % 64).toUInt8, (0x80 + cp / 64 % 64).toUInt8,
      (0x80 + cp % 64).toUInt8]

/-- `utf16_literal_to_utf8`: the bytes, and how much of the text they stand for. -/
def utf16Literal (raw : Text) : Option (Text × Nat) :=
  if raw.length < 6 then none
  else
    let first := parseHex4 (raw.drop 2)
    if 0xDC00 ≤ first ∧ first ≤ 0xDFFF then none
    else if 0xD800 ≤ first ∧ first ≤ 0xDBFF then
      let second := raw.drop 6
      if second.length < 6 ∨ second.take 2 ≠ [92, 117] then none
      else
        let code := parseHex4 (second.drop 2)
        if code < 0xDC00 ∨ 0xDFFF < code then none
        else some (encodeUtf8 (0x10000 + first % 1024 * 1024 + code % 1024), 12)
    else some (encodeUtf8 first, 6)

def simpleEscape? (c : UInt8) : Option UInt8 :=
  if c = 98 then some 8
  else if c = 102 then some 12
  else if c = 110 then some 10
  else if c = 114 then some 13
  else if c = 116 then some 9
  else if c = 34 ∨ c = 92 ∨ c = 47 then some c
  else none

/-- The second loop of `parse_string`. A backslash that a broken `\u` has left at the end
escapes the closing quote. -/
def unescape : Nat → Text → Option Text
  | _, [] => some []
  | 0, _ => none
  | fuel + 1, c :: rest =>
    if c ≠ 92 then (unescape fuel rest).map (c :: ·)
    else
      match rest with
      | [] => some [34]
      | 117 :: _ =>
        (utf16Literal (c :: rest)).bind fun (bytes, n) =>
          (unescape fuel (rest.drop (n - 1))).map (bytes ++ ·)
      | escape :: rest =>
        (simpleEscape? escape).bind fun byte => (unescape fuel rest).map (byte :: ·)

/-- `parse_string`: a C string, and the text after it. -/
def parseString : Text → Option (Text × Text)
  | 34 :: s =>
    match splitString s with
    | none => none
    | some (raw, after) => (unescape raw.length raw).map fun value => (cstr value, after)
  | _ => none

/-! ### Numbers -/

def isNumberByte (c : UInt8) : Bool :=
  isDigit c || c = 43 || c = 45 || c = 101 || c = 69 || c = 46

def scanExponent : Text → Int × Text
  | [] => (0, [])
  | e :: s =>
    let (negative, t) :=
      match s with
      | 45 :: t => (true, t)
      | 43 :: t => (false, t)
      | _ => (false, s)
    let digits := t.takeWhile isDigit
    if (e = 101 ∨ e = 69) ∧ digits ≠ [] then
      (if negative then - (digitsValue digits : Int) else digitsValue digits, t.dropWhile isDigit)
    else (0, e :: s)

/-- `strtod` on a text of number bytes. -/
def strtod (s : Text) : Option (Rat × Text) :=
  let (negative, t) :=
    match s with
    | 45 :: t => (true, t)
    | 43 :: t => (false, t)
    | _ => (false, s)
  let whole := t.takeWhile isDigit
  let t := t.dropWhile isDigit
  let (fraction, t) :=
    match t with
    | 46 :: u => (u.takeWhile isDigit, u.dropWhile isDigit)
    | _ => ([], t)
  if whole = [] ∧ fraction = [] then none
  else
    let (exponent, t) := scanExponent t
    let value : Rat := (digitsValue (whole ++ fraction) : Rat) * (10 : Rat) ^ (exponent - fraction.length)
    some (if negative then -value else value, t)

def parseNumber (s : Text) : Option (Json × Text) :=
  (strtod (s.takeWhile isNumberByte)).map fun (value, rest) =>
    (.number value, rest ++ s.dropWhile isNumberByte)

/-! ### Values -/

/-- `CJSON_NESTING_LIMIT`. -/
def nestingLimit : Nat := 1000

mutual

def parseValue : Nat → Nat → Text → Option (Json × Text)
  | 0, _, _ => none
  | fuel + 1, depth, s =>
    if (ascii "null").isPrefixOf s then some (.null, s.drop 4)
    else if (ascii "false").isPrefixOf s then some (.bool false, s.drop 5)
    else if (ascii "true").isPrefixOf s then some (.bool true, s.drop 4)
    else
      match s with
      | [] => none
      | c :: rest =>
        if c = 34 then (parseString s).map fun (value, after) => (.string value, after)
        else if c = 45 ∨ isDigit c then parseNumber s
        else if c = 91 then
          if nestingLimit ≤ depth then none
          else if (skipSpace rest).head? = some 93 then some (.array [], (skipSpace rest).tail)
          else (parseItems fuel (depth + 1) rest).map fun (items, after) => (.array items, after)
        else if c = 123 then
          if nestingLimit ≤ depth then none
          else if (skipSpace rest).head? = some 125 then some (.object [], (skipSpace rest).tail)
          else (parseMembers fuel (depth + 1) rest).map fun (members, after) => (.object members, after)
        else none

/-- The items of `parse_array` up to the closing bracket. -/
def parseItems : Nat → Nat → Text → Option (List Json × Text)
  | 0, _, _ => none
  | fuel + 1, depth, s =>
    match parseValue fuel depth (skipSpace s) with
    | none => none
    | some (item, rest) =>
      match skipSpace rest with
      | [] => none
      | c :: rest =>
        if c = 44 then (parseItems fuel depth rest).map fun (items, after) => (item :: items, after)
        else if c = 93 then some ([item], rest)
        else none

/-- The members of `parse_object` up to the closing brace. -/
def parseMembers : Nat → Nat → Text → Option (List (Text × Json) × Text)
  | 0, _, _ => none
  | fuel + 1, depth, s =>
    match parseString (skipSpace s) with
    | none => none
    | some (key, rest) =>
      match skipSpace rest with
      | [] => none
      | c :: rest =>
        if c ≠ 58 then none
        else
          match parseValue fuel depth (skipSpace rest) with
          | none => none
          | some (value, rest) =>
            match skipSpace rest with
            | [] => none
            | c :: rest =>
              if c = 44 then
                (parseMembers fuel depth rest).map fun (members, after) => ((key, value) :: members, after)
              else if c = 125 then some ([(key, value)], rest)
              else none

end

/-- `skip_utf8_bom`. -/
def skipBom (s : Text) : Text :=
  if 4 ≤ s.length ∧ s.take 3 = [0xEF, 0xBB, 0xBF] then s.drop 3 else s

/-- `cJSON_ParseWithOpts`: the value, and where it ends. -/
def parseWithEnd (s : Text) : Option (Json × Text) :=
  parseValue (2 * (cstr s).length + 2) 0 (skipSpace (skipBom (cstr s)))

/-- `cJSON_Parse`. -/
def parse (s : Text) : Option Json :=
  (parseWithEnd s).map Prod.fst

/-- `cJSON_ParseWithOpts` that requires the end of the text. -/
def parseWhole (s : Text) : Option Json :=
  match parseWithEnd s with
  | some (json, rest) => if skipSpace rest = [] then some json else none
  | none => none

/-! ### A printed string is parsed back -/

variable {byte : UInt8} {text s : Text}

inductive Escaped (byte : UInt8) : Text → Prop where
  | plain : byte ≠ 34 → byte ≠ 92 → Escaped byte [byte]
  | short {c : UInt8} : c ≠ 117 → simpleEscape? c = some byte → Escaped byte [92, c]
  | long {c d : UInt8} : c ≠ 34 → c ≠ 92 → d ≠ 34 → d ≠ 92 → byte < 128 →
      parseHex4 [48, 48, c, d] = byte.toNat → Escaped byte [92, 117, 48, 48, c, d]

/-- `Escaped`, checked. -/
def checkEscaped (byte : UInt8) : Text → Bool
  | [b] => b = byte && byte ≠ 34 && byte ≠ 92
  | [a, c] => a = 92 && c ≠ 117 && simpleEscape? c = some byte
  | [a, b, e, f, c, d] => a = 92 && b = 117 && e = 48 && f = 48 && c ≠ 34 && c ≠ 92 && d ≠ 34 &&
      d ≠ 92 && byte < 128 && parseHex4 [48, 48, c, d] = byte.toNat
  | _ => false

theorem escaped_of_check (check : checkEscaped byte text = true) : Escaped byte text := by
  unfold checkEscaped at check
  split at check
  · simp only [Bool.and_eq_true, decide_eq_true_eq] at check
    obtain ⟨⟨rfl, quote⟩, slash⟩ := check
    exact .plain quote slash
  · simp only [Bool.and_eq_true, decide_eq_true_eq] at check
    obtain ⟨⟨rfl, long⟩, read⟩ := check
    exact .short long read
  · simp only [Bool.and_eq_true, decide_eq_true_eq] at check
    obtain ⟨⟨⟨⟨⟨⟨⟨⟨⟨rfl, rfl⟩, rfl⟩, rfl⟩, c⟩, c'⟩, d⟩, d'⟩, small⟩, read⟩ := check
    exact .long c c' d d' small read
  · cases check

theorem escaped_escapeByte (byte : UInt8) : Escaped byte (Json.escapeByte byte) := by
  apply escaped_of_check
  have all : ∀ n < 256, checkEscaped (UInt8.ofNat n) (Json.escapeByte (UInt8.ofNat n)) = true := by
    decide +kernel
  have this := all byte.toNat byte.toNat_lt
  rwa [UInt8.ofNat_toNat] at this

theorem Escaped.pos (escaped : Escaped byte text) : 0 < text.length := by
  cases escaped <;> exact Nat.succ_pos _

theorem splitString_char {c : UInt8} (quote : c ≠ 34) (slash : c ≠ 92) (s : Text) :
    splitString (c :: s) = (splitString s).map fun (raw, after) => (c :: raw, after) := by
  rw [splitString.eq_def]
  exact (if_neg quote).trans (if_neg slash)

@[simp] theorem splitString_quote (s : Text) : splitString (34 :: s) = some ([], s) := by
  rw [splitString.eq_def]
  exact if_pos rfl

@[simp] theorem splitString_slash (c : UInt8) (s : Text) :
    splitString (92 :: c :: s) = (splitString s).map fun (raw, after) => (92 :: c :: raw, after) := by
  rw [splitString.eq_def]
  simp only [show (92 : UInt8) ≠ 34 by decide, if_false, if_true]

theorem splitString_escaped (escaped : Escaped byte text) (s : Text) :
    splitString (text ++ s) = (splitString s).map fun (raw, after) => (text ++ raw, after) := by
  cases escaped with
  | plain quote slash => exact splitString_char quote slash s
  | short _ _ => exact splitString_slash _ s
  | long c c' d d' _ _ =>
    simp only [List.cons_append, List.nil_append, splitString_slash]
    rw [splitString_char (by decide) (by decide), splitString_char (by decide) (by decide),
      splitString_char c c', splitString_char d d']
    cases splitString s <;> rfl

theorem splitString_print (s after : Text) :
    splitString (s.flatMap Json.escapeByte ++ 34 :: after) = some (s.flatMap Json.escapeByte, after) := by
  induction s with
  | nil => exact splitString_quote after
  | cons byte s ih =>
    rw [List.flatMap_cons, List.append_assoc, splitString_escaped (escaped_escapeByte byte), ih]
    rfl

theorem unescape_escaped (escaped : Escaped byte text) (fuel : Nat) (s : Text) :
    unescape (fuel + 1) (text ++ s) = (unescape fuel s).map (byte :: ·) := by
  cases escaped with
  | plain quote slash => simp [unescape, slash]
  | @short c long read =>
    simp only [List.cons_append, List.nil_append, unescape, ne_eq, not_true_eq_false, if_false, read,
      Option.bind_some]
  | @long c d _ _ _ _ small read =>
    have four : parseHex4 (48 :: 48 :: c :: d :: s) = byte.toNat := by
      rw [← read]
      rfl
    have bound : byte.toNat < 128 := small
    have literal : utf16Literal (92 :: 117 :: 48 :: 48 :: c :: d :: s) = some ([byte], 6) := by
      unfold utf16Literal
      simp only [List.length_cons, List.drop_succ_cons, List.drop_zero, four]
      rw [if_neg (by omega), if_neg (by omega), if_neg (by omega), encodeUtf8, if_pos bound]
      simp
    simp only [List.cons_append, List.nil_append, unescape, ne_eq, not_true_eq_false, if_false, literal]
    rfl

theorem unescape_print {fuel : Nat} (enough : (s.flatMap Json.escapeByte).length ≤ fuel) :
    unescape fuel (s.flatMap Json.escapeByte) = some s := by
  induction s generalizing fuel with
  | nil => cases fuel <;> rfl
  | cons byte s ih =>
    have escaped := escaped_escapeByte byte
    have some' := escaped.pos
    rw [List.flatMap_cons, List.length_append] at enough
    obtain ⟨fuel, rfl⟩ : ∃ k, fuel = k + 1 := ⟨fuel - 1, by omega⟩
    rw [List.flatMap_cons, unescape_escaped escaped, ih (by omega)]
    rfl

theorem parseString_print (text : 0 ∉ s) (after : Text) :
    parseString (Json.printString s ++ after) = some (s, after) := by
  have split := splitString_print s after
  unfold Json.printString parseString
  simp only [List.cons_append, List.append_assoc, List.nil_append]
  rw [split]
  simp only [unescape_print (le_refl _), Option.map_some, cstr_eq_self text]

/-! ### A printed string that is cut off -/

variable {part : Text}

theorem prefix_append_cases {α : Type} {part a b : List α} (cut : part <+: a ++ b) :
    part <+: a ∨ ∃ rest, part = a ++ rest ∧ rest <+: b := by
  rcases List.prefix_or_prefix_of_prefix cut (List.prefix_append a b) with within | ⟨rest, rfl⟩
  · exact Or.inl within
  · exact Or.inr ⟨rest, rfl, (List.prefix_append_right_inj a).mp cut⟩

/-- Part of a string, without the closing quote: what follows is taken for the rest of it. -/
def Open (part : Text) : Prop :=
  splitString part = none ∧ ∀ (c : UInt8) (z raw after : Text), c ≠ 34 → c ≠ 92 →
    splitString z = some (raw, after) → ∃ raw', splitString (part ++ c :: z) = some (raw', after)

theorem Open.nil : Open [] :=
  ⟨rfl, fun c z raw after quote slash split => ⟨c :: raw, by simp [splitString_char quote slash, split]⟩⟩

theorem Open.slash : Open [92] :=
  ⟨rfl, fun c z raw after _ _ split => ⟨92 :: c :: raw, by simp [split]⟩⟩

theorem Open.char {part : Text} {b : UInt8} (quote : b ≠ 34) (slash : b ≠ 92) (cut : Open part) :
    Open (b :: part) := by
  refine ⟨?_, fun c z raw after quote' slash' split => ?_⟩
  · rw [splitString_char quote slash, cut.1]
    rfl
  · rcases cut.2 c z raw after quote' slash' split with ⟨raw', later⟩
    exact ⟨b :: raw', by rw [List.cons_append, splitString_char quote slash, later]; rfl⟩

theorem Open.escape {part : Text} (b : UInt8) (cut : Open part) : Open (92 :: b :: part) := by
  refine ⟨?_, fun c z raw after quote slash split => ?_⟩
  · rw [splitString_slash, cut.1]
    rfl
  · rcases cut.2 c z raw after quote slash split with ⟨raw', later⟩
    exact ⟨92 :: b :: raw', by rw [List.cons_append, List.cons_append, splitString_slash, later]; rfl⟩

theorem open_cons {b : UInt8} (cut : part <+: b :: text) (later : ∀ rest, rest <+: text → Open (b :: rest)) :
    Open part := by
  rcases List.prefix_cons_iff.mp cut with rfl | ⟨rest, rfl, within⟩
  · exact .nil
  · exact later rest within

theorem Escaped.open (escaped : Escaped byte text) (cut : part <+: text) : Open part := by
  have last {c : UInt8} (quote : c ≠ 34) (slash : c ≠ 92) {part : Text} (cut : part <+: [c]) : Open part := by
    apply open_cons cut
    intro rest nothing
    rw [List.prefix_nil.mp nothing]
    exact Open.nil.char quote slash
  have pair {text part : Text} {c : UInt8} (cut : part <+: 92 :: c :: text)
      (later : ∀ rest, rest <+: text → Open rest) : Open part := by
    apply open_cons cut
    intro rest within
    rcases List.prefix_cons_iff.mp within with rfl | ⟨rest', rfl, within'⟩
    · exact .slash
    · exact (later rest' within').escape c
  cases escaped with
  | plain quote slash => exact last quote slash cut
  | short _ _ =>
    apply pair cut
    intro rest nothing
    rw [List.prefix_nil.mp nothing]
    exact .nil
  | long c c' d d' _ _ =>
    apply pair cut
    intro first cut
    apply open_cons cut
    intro second cut
    apply Open.char (by decide) (by decide)
    apply open_cons cut
    intro third cut
    apply Open.char (by decide) (by decide)
    apply open_cons cut
    intro fourth cut
    apply Open.char c c'
    exact last d d' cut

theorem open_print (cut : part <+: s.flatMap Json.escapeByte) : Open part := by
  induction s generalizing part with
  | nil =>
    rw [List.prefix_nil.mp cut]
    exact .nil
  | cons byte s ih =>
    have escaped := escaped_escapeByte byte
    rw [List.flatMap_cons] at cut
    rcases prefix_append_cases cut with within | ⟨rest, rfl, beyond⟩
    · exact escaped.open within
    · rcases ih beyond with ⟨spent, later⟩
      refine ⟨?_, fun c z raw after quote slash split => ?_⟩
      · rw [splitString_escaped escaped, spent]
        rfl
      · rcases later c z raw after quote slash split with ⟨raw', split'⟩
        exact ⟨Json.escapeByte byte ++ raw', by
          rw [List.append_assoc, splitString_escaped escaped, split']; rfl⟩

end CognitiveOs.Infra.Cjson
