import CognitiveOs.Infra.Composed

/-!
# The preview of the answer

`native_answer_prefix` of `llm/native_preview.h`, and how `openai_native_stream` shows what it gives:
while the arguments of `complete_task` come in, the part of the answer that is there already.
-/

namespace CognitiveOs.Llm.Preview

open Infra Cjson

def isBlank (c : UInt8) : Bool :=
  c = 32 || c = 10 || c = 13 || c = 9

def blanks (s : Text) : Text :=
  s.dropWhile isBlank

def hex4 (s : Text) : Option Nat :=
  if s.length < 4 then none
  else ((s.take 4).mapM hexValue?).map fun digits => digits.foldl (fun h digit => 16 * h + digit) 0

def unit : Text → Option Nat
  | [] => none
  | 34 :: _ => none
  | [92] => none
  | 92 :: 117 :: s =>
    match hex4 s with
    | none => none
    | some value =>
      if 0xD800 ≤ value ∧ value ≤ 0xDBFF then
        if (s.drop 4).take 2 ≠ [92, 117] then none
        else
          match hex4 (s.drop 6) with
          | none => none
          | some low => if low < 0xDC00 ∨ 0xDFFF < low then none else some 12
      else some 6
  | 92 :: _ :: _ => some 2
  | _ :: _ => some 1

/-- `safe - start - 1`, found in so many rounds. -/
def safe : Nat → Text → Nat
  | 0, _ => 0
  | rounds + 1, q =>
    match unit q with
    | none => 0
    | some n => n + safe rounds (q.drop n)

/-- `cJSON_Parse` of a text between quotes. -/
def quoted (raw : Text) : Option Text :=
  match parse (34 :: raw ++ [34]) with
  | some (.string value) => some value
  | _ => none

def shown (q : Text) : Option Text :=
  quoted (q.take (safe q.length q))

def shownValue : Text → Option Text
  | 34 :: q => shown q
  | _ => none

/-- The loop of `native_answer_prefix`; as many rounds as there are bytes are enough. -/
def scan : (rounds : Nat) → (depth : Int) → Text → Option Text
  | 0, _, _ => none
  | _, _, [] => none
  | rounds + 1, depth, c :: s =>
    if c = 123 ∨ c = 91 then scan rounds (depth + 1) s
    else if c = 125 ∨ c = 93 then scan rounds (depth - 1) s
    else if c ≠ 34 then scan rounds depth s
    else
      match splitString s with
      | none => none
      | some (raw, rest) =>
        match blanks rest with
        | 58 :: after =>
          if depth ≠ 1 ∨ quoted raw ≠ some (ascii "answer") then scan rounds depth rest
          else shownValue (blanks after)
        | _ => scan rounds depth rest

def nativeAnswerPrefix (args : Text) : Option Text :=
  scan (cstr args).length 0 (cstr args)

/-! ### The stream -/

/-- What is kept of one call: its arguments so far, `exposed`, and what has been shown. -/
structure Showing where
  args : Text := []
  exposed : Nat := 0
  increments : List Text := []

def Showing.look (v : Showing) : Showing :=
  match nativeAnswerPrefix v.args with
  | none => v
  | some p =>
    if v.exposed < p.length then
      { v with exposed := p.length, increments := v.increments ++ [p.drop v.exposed] }
    else v

/-- A fragment of the arguments; it is followed by a look when the name is known and the last one
was long enough ago. -/
def Showing.feed (v : Showing) (fragment : Text × Bool) : Showing :=
  let v := { v with args := v.args ++ fragment.1 }
  if fragment.2 then v.look else v

def preview (fragments : List (Text × Bool)) : Showing :=
  (fragments.foldl Showing.feed {}).look

end CognitiveOs.Llm.Preview

/-!
## Whole characters and escapes

What the preview shows of a string is the whole characters and escapes at its start. They are the same
ones when more text follows, and the string decodes piece by piece.
-/

namespace CognitiveOs.Llm.Preview

open Infra Cjson

/-! ### Four digits -/

theorem hex4_append {s : Text} (enough : 4 ≤ s.length) (t : Text) : hex4 (s ++ t) = hex4 s := by
  unfold hex4
  rw [if_neg (by rw [List.length_append]; omega), if_neg (by omega), List.take_append_of_le_length enough]

theorem hex4_cut {s : Text} {value : Nat} (read : hex4 s = some value) :
    ∃ h t, s = h ++ t ∧ h.length = 4 ∧ hex4 h = some value := by
  have enough : 4 ≤ s.length := by
    unfold hex4 at read
    split at read
    · cases read
    · omega
  have size : (s.take 4).length = 4 := by
    rw [List.length_take]
    omega
  refine ⟨s.take 4, s.drop 4, (List.take_append_drop 4 s).symm, size, ?_⟩
  rw [← hex4_append (Nat.le_of_eq size.symm) (s.drop 4), List.take_append_drop, read]

theorem parseHex4_eq {s : Text} (enough : 4 ≤ s.length) : parseHex4 s = (hex4 s).getD 0 := by
  unfold parseHex4 hex4
  rw [if_neg (by omega)]
  cases (s.take 4).mapM hexValue? <;> rfl

theorem hexValue?_plain {c : UInt8} {digit : Nat} (value : hexValue? c = some digit) : c ≠ 34 ∧ c ≠ 92 := by
  constructor
  · rintro rfl
    cases value
  · rintro rfl
    cases value

theorem hex4_plain {s : Text} {value : Nat} (four : s.length = 4) (read : hex4 s = some value) :
    ∀ c ∈ s, c ≠ 34 ∧ c ≠ 92 := by
  unfold hex4 at read
  rw [if_neg (by omega), List.take_of_length_le (by omega), Option.map_eq_some_iff] at read
  obtain ⟨digits, each, -⟩ := read
  intro c member
  have all : (s.mapM hexValue?).isSome := by rw [each]; rfl
  obtain ⟨digit, value⟩ := Option.isSome_iff_exists.mp ((Foundation.mapM_isSome hexValue? s).mp all c member)
  exact hexValue?_plain value

/-! ### Units -/

inductive Whole : Text → Prop where
  | plain {c : UInt8} : c ≠ 34 → c ≠ 92 → Whole [c]
  | short {e : UInt8} : e ≠ 117 → Whole [92, e]
  | code {h : Text} {value : Nat} : h.length = 4 → hex4 h = some value → ¬ (0xD800 ≤ value ∧ value ≤ 0xDBFF) →
      Whole (92 :: 117 :: h)
  | pair {h l : Text} {high low : Nat} : h.length = 4 → l.length = 4 → hex4 h = some high →
      0xD800 ≤ high ∧ high ≤ 0xDBFF → hex4 l = some low → ¬ (low < 0xDC00 ∨ 0xDFFF < low) →
      Whole (92 :: 117 :: (h ++ 92 :: 117 :: l))

theorem unit_escape (s : Text) : unit (92 :: 117 :: s) =
    match hex4 s with
    | none => none
    | some value =>
      if 0xD800 ≤ value ∧ value ≤ 0xDBFF then
        if (s.drop 4).take 2 ≠ [92, 117] then none
        else
          match hex4 (s.drop 6) with
          | none => none
          | some low => if low < 0xDC00 ∨ 0xDFFF < low then none else some 12
      else some 6 :=
  rfl

theorem unit_short {e : UInt8} (other : e ≠ 117) (s : Text) : unit (92 :: e :: s) = some 2 := by
  simp [unit]

theorem unit_plain {c : UInt8} (quote : c ≠ 34) (slash : c ≠ 92) (s : Text) : unit (c :: s) = some 1 := by
  cases s <;> simp [unit, slash]

theorem drop_four {h : Text} (four : h.length = 4) (s : Text) : (h ++ s).drop 4 = s := by
  rw [← four, List.drop_left]

theorem drop_six {h : Text} (four : h.length = 4) (c d : UInt8) (s : Text) : (h ++ c :: d :: s).drop 6 = s := by
  rw [show 6 = 4 + 2 from rfl, ← List.drop_drop, drop_four four]
  rfl

theorem Whole.unit {a : Text} (whole : Whole a) (s : Text) : unit (a ++ s) = some a.length := by
  cases whole with
  | plain quote slash => exact unit_plain quote slash s
  | short other => exact unit_short other s
  | @code h value four read low =>
    rw [List.cons_append, List.cons_append, unit_escape, hex4_append (Nat.le_of_eq four.symm), read]
    dsimp only
    rw [if_neg low, List.length_cons, List.length_cons, four]
  | @pair h l high low four four' read range read' range' =>
    have split_ : (h ++ 92 :: 117 :: l) ++ s = h ++ (92 :: 117 :: (l ++ s)) := by simp
    rw [List.cons_append, List.cons_append, split_, unit_escape, hex4_append (Nat.le_of_eq four.symm), read]
    dsimp only
    rw [if_pos range, drop_four four, if_neg (by simp), drop_six four, hex4_append (Nat.le_of_eq four'.symm), read']
    dsimp only
    rw [if_neg range']
    simp [four, four']

theorem whole_of_unit {q : Text} {n : Nat} (read : unit q = some n) : ∃ a s, q = a ++ s ∧ Whole a := by
  match q with
  | [] => cases read
  | [c] =>
    by_cases quote : c = 34
    · subst quote
      cases read
    · by_cases slash : c = 92
      · subst slash
        cases read
      · exact ⟨[c], [], rfl, .plain quote slash⟩
  | c :: e :: s =>
    by_cases quote : c = 34
    · subst quote
      cases read
    · by_cases slash : c = 92
      · subst slash
        by_cases other : e = 117
        · subst other
          rw [unit_escape] at read
          cases hex : hex4 s with
          | none =>
            rw [hex] at read
            cases read
          | some value =>
            rw [hex] at read
            obtain ⟨h, t, rfl, four, first⟩ := hex4_cut hex
            dsimp only at read
            by_cases range : 0xD800 ≤ value ∧ value ≤ 0xDBFF
            · rw [if_pos range, drop_four four] at read
              split at read
              · cases read
              next start =>
                rw [not_not] at start
                obtain ⟨u, rfl⟩ : ∃ u, t = 92 :: 117 :: u := by
                  refine ⟨t.drop 2, ?_⟩
                  rw [← List.take_append_drop 2 t, start]
                  rfl
                rw [drop_six four] at read
                cases hex' : hex4 u with
                | none =>
                  rw [hex'] at read
                  cases read
                | some low =>
                  rw [hex'] at read
                  obtain ⟨l, t, rfl, four', second⟩ := hex4_cut hex'
                  dsimp only at read
                  split at read
                  · cases read
                  next range' =>
                    exact ⟨92 :: 117 :: (h ++ 92 :: 117 :: l), t, by simp, .pair four four' first range second range'⟩
            · exact ⟨92 :: 117 :: h, t, rfl, .code four first range⟩
        · exact ⟨[92, e], s, rfl, .short other⟩
      · exact ⟨[c], e :: s, rfl, .plain quote slash⟩

/-! ### Decoding -/

def decode (raw : Text) : Option Text :=
  unescape raw.length raw

theorem unescape_enough {n fuel : Nat} {s : Text} (short : s.length ≤ n) (enough : s.length ≤ fuel) :
    unescape fuel s = decode s := by
  induction n generalizing fuel s with
  | zero =>
    rw [List.eq_nil_of_length_eq_zero (Nat.le_zero.mp short)]
    cases fuel <;> rfl
  | succ n ih =>
    cases s with
    | nil => cases fuel <;> rfl
    | cons c rest =>
      obtain ⟨fuel, rfl⟩ : ∃ more, fuel = more + 1 := ⟨fuel - 1, by simp at enough; omega⟩
      have both : ∀ t : Text, t.length ≤ rest.length → unescape fuel t = unescape rest.length t := by
        intro t small
        simp only [List.length_cons] at short enough
        rw [@ih fuel t (by omega) (by omega), @ih rest.length t (by omega) small]
      rw [decode, List.length_cons]
      by_cases slash : c = 92
      · subst slash
        match rest with
        | [] => rfl
        | e :: rest =>
          by_cases other : e = 117
          · subst other
            have later : ∀ n, unescape fuel ((117 :: rest).drop (n - 1)) =
                unescape (rest.length + 1) ((117 :: rest).drop (n - 1)) := fun n => both _ (by simp)
            simp [unescape, later]
          · have later := both rest (by simp)
            rw [List.length_cons] at later
            simp [unescape, later]
      · rw [unescape_char slash, unescape_char slash, both rest (Nat.le_refl _)]

theorem unescape_escape (fuel : Nat) (s : Text) :
    unescape (fuel + 1) (92 :: 117 :: s) = (utf16Literal (92 :: 117 :: s)).bind fun (bytes, n) =>
      (unescape fuel ((117 :: s).drop (n - 1))).map (bytes ++ ·) :=
  rfl

theorem Whole.decode {a : Text} (whole : Whole a) :
    ∃ v : Option Text, ∀ s, decode (a ++ s) = v.bind fun v => (Preview.decode s).map (v ++ ·) := by
  cases whole with
  | @plain c quote slash =>
    refine ⟨some [c], fun s => ?_⟩
    rw [Preview.decode, List.singleton_append, List.length_cons, unescape_char slash]
    rfl
  | @short e other =>
    refine ⟨(simpleEscape? e).map fun byte => [byte], fun s => ?_⟩
    have rest := unescape_enough (Nat.le_refl _) (Nat.le_succ s.length)
    show unescape (s.length + 1 + 1) (92 :: e :: s) = _
    simp only [unescape, rest]
    cases simpleEscape? e <;> simp
  | @code h value four read low =>
    refine ⟨(utf16Literal (92 :: 117 :: h)).map Prod.fst, fun s => ?_⟩
    have literal : ∀ t, utf16Literal (92 :: 117 :: (h ++ t)) =
        if 0xDC00 ≤ value ∧ value ≤ 0xDFFF then none else some (encodeUtf8 value, 6) := by
      intro t
      unfold utf16Literal
      rw [if_neg (by simp [four])]
      have first : parseHex4 ((92 :: 117 :: (h ++ t)).drop 2) = value := by
        show parseHex4 (h ++ t) = value
        rw [parseHex4_eq (by simp [four]), hex4_append (Nat.le_of_eq four.symm), read]
        rfl
      simp only [first, if_neg low]
    have alone := literal []
    rw [List.append_nil] at alone
    have size : s.length ≤ (117 :: (h ++ s)).length := by
      simp only [List.length_cons, List.length_append]
      omega
    have rest := unescape_enough (Nat.le_refl _) size
    have behind : (117 :: (h ++ s)).drop (6 - 1) = s := by
      show (h ++ s).drop 4 = s
      exact drop_four four s
    show unescape ((117 :: (h ++ s)).length + 1) (92 :: 117 :: (h ++ s)) = _
    rw [unescape_escape, literal, alone]
    split
    · rfl
    · simp only [Option.bind_some, Option.map_some, behind, rest]
  | @pair h l high low four four' read range read' range' =>
    refine ⟨some (encodeUtf8 (0x10000 + high % 1024 * 1024 + low % 1024)), fun s => ?_⟩
    have split_ : (h ++ 92 :: 117 :: l) ++ s = h ++ (92 :: 117 :: (l ++ s)) := by simp
    have literal : utf16Literal (92 :: 117 :: (h ++ (92 :: 117 :: (l ++ s)))) =
        some (encodeUtf8 (0x10000 + high % 1024 * 1024 + low % 1024), 12) := by
      unfold utf16Literal
      rw [if_neg (by simp; omega)]
      have first : parseHex4 ((92 :: 117 :: (h ++ (92 :: 117 :: (l ++ s)))).drop 2) = high := by
        show parseHex4 (h ++ _) = high
        rw [parseHex4_eq (by simp [four]), hex4_append (Nat.le_of_eq four.symm), read]
        rfl
      have behind : (92 :: 117 :: (h ++ (92 :: 117 :: (l ++ s)))).drop 6 = 92 :: 117 :: (l ++ s) :=
        drop_four four _
      have second : parseHex4 ((92 :: 117 :: (l ++ s)).drop 2) = low := by
        show parseHex4 (l ++ s) = low
        rw [parseHex4_eq (by simp [four']), hex4_append (Nat.le_of_eq four'.symm), read']
        rfl
      have notLow : ¬ (0xDC00 ≤ high ∧ high ≤ 0xDFFF) := by omega
      simp only [first, behind, second, if_neg notLow, if_pos range, if_neg range']
      rw [if_neg]
      simp [four']
    have size : s.length ≤ (117 :: (h ++ (92 :: 117 :: (l ++ s)))).length := by
      simp only [List.length_cons, List.length_append]
      omega
    have rest := unescape_enough (Nat.le_refl _) size
    have behind : (117 :: (h ++ (92 :: 117 :: (l ++ s)))).drop (12 - 1) = s := by
      show (h ++ (92 :: 117 :: (l ++ s))).drop 10 = s
      rw [show 10 = 6 + 4 from rfl, ← List.drop_drop, drop_six four, drop_four four']
    rw [List.cons_append, List.cons_append, split_]
    show unescape ((117 :: (h ++ (92 :: 117 :: (l ++ s)))).length + 1) _ = _
    rw [unescape_escape, literal]
    simp only [Option.bind_some, behind, rest]

/-! ### Sequences of units -/

inductive Units : Text → Prop where
  | nil : Units []
  | cons {a u : Text} : Whole a → Units u → Units (a ++ u)

/-- The part of a text that the preview shows: its units, as far as they are whole. -/
structure Cut (q u w : Text) : Prop where
  whole : q = u ++ w
  units : Units u
  stop : unit w = none

theorem unit_pos {q : Text} {n : Nat} (read : unit q = some n) :
    ∃ a s, q = a ++ s ∧ Whole a ∧ n = a.length ∧ 0 < a.length := by
  obtain ⟨a, s, rfl, whole⟩ := whole_of_unit read
  have size := whole.unit s
  rw [read] at size
  refine ⟨a, s, rfl, whole, Option.some.inj size, ?_⟩
  cases whole <;> exact Nat.succ_pos _

theorem cut_safe {rounds : Nat} {q : Text} (enough : q.length ≤ rounds) :
    ∃ u w, Cut q u w ∧ safe rounds q = u.length := by
  induction rounds generalizing q with
  | zero =>
    rw [List.eq_nil_of_length_eq_zero (Nat.le_zero.mp enough)]
    exact ⟨[], [], ⟨rfl, .nil, rfl⟩, rfl⟩
  | succ rounds ih =>
    unfold safe
    cases read : unit q with
    | none => exact ⟨[], q, ⟨rfl, .nil, read⟩, rfl⟩
    | some n =>
      obtain ⟨a, s, rfl, whole, rfl, positive⟩ := unit_pos read
      obtain ⟨u, w, ⟨rfl, units, stop⟩, size⟩ := @ih s (by rw [List.length_append] at enough; omega)
      refine ⟨a ++ u, w, ⟨by rw [List.append_assoc], .cons whole units, stop⟩, ?_⟩
      dsimp only
      rw [List.drop_left, size, List.length_append]

theorem Units.starts {u v s w : Text} (first : Units u) (second : Units v) (same : u ++ s = v ++ w)
    (stop : unit w = none) : u <+: v := by
  induction first generalizing v with
  | nil => exact List.nil_prefix
  | @cons a u whole units ih =>
    rw [List.append_assoc] at same
    cases second with
    | nil =>
      rw [List.nil_append] at same
      rw [← same, whole.unit] at stop
      cases stop
    | @cons b v whole' units' =>
      rw [List.append_assoc] at same
      have size := (whole.unit (u ++ s)).symm.trans ((congrArg unit same).trans (whole'.unit (v ++ w)))
      obtain ⟨rfl, rest⟩ := List.append_inj same (Option.some.inj size)
      exact (List.prefix_append_right_inj a).mpr (ih units' rest)

theorem Units.decode {u : Text} (units : Units u) (s : Text) :
    decode (u ++ s) = (Preview.decode u).bind fun v => (Preview.decode s).map (v ++ ·) := by
  have nil : Preview.decode [] = some [] := rfl
  induction units with
  | nil =>
    rw [List.nil_append, nil]
    cases Preview.decode s <;> rfl
  | @cons a u whole units ih =>
    obtain ⟨v, first⟩ := whole.decode
    rw [List.append_assoc, first, first, ih]
    cases v with
    | none => rfl
    | some v =>
      cases Preview.decode u with
      | none => rfl
      | some v' => cases Preview.decode s <;> simp

/-! ### Quotes -/

theorem splitString_plain {p : Text} (plain : ∀ c ∈ p, c ≠ 34 ∧ c ≠ 92) (s : Text) :
    splitString (p ++ s) = (splitString s).map fun (raw, after) => (p ++ raw, after) := by
  induction p with
  | nil =>
    rw [List.nil_append]
    cases splitString s <;> rfl
  | cons c p ih =>
    obtain ⟨⟨quote, slash⟩, later⟩ := List.forall_mem_cons.mp plain
    rw [List.cons_append, splitString_char quote slash, ih later]
    cases splitString s <;> rfl

theorem Whole.splitString {a : Text} (whole : Whole a) (s : Text) :
    splitString (a ++ s) = (Cjson.splitString s).map fun (raw, after) => (a ++ raw, after) := by
  cases whole with
  | @plain c quote slash => exact splitString_plain (by simp [quote, slash]) s
  | short other => exact splitString_slash _ s
  | @code h value four read low =>
    rw [List.cons_append, List.cons_append, splitString_slash, splitString_plain (hex4_plain four read)]
    cases Cjson.splitString s <;> rfl
  | @pair h l high low four four' read range read' range' =>
    have split_ : (h ++ 92 :: 117 :: l) ++ s = h ++ (92 :: 117 :: (l ++ s)) := by simp
    rw [List.cons_append, List.cons_append, splitString_slash, split_, splitString_plain (hex4_plain four read),
      splitString_slash, splitString_plain (hex4_plain four' read')]
    cases Cjson.splitString s <;> simp

theorem Units.splitString {u : Text} (units : Units u) (s : Text) :
    splitString (u ++ s) = (Cjson.splitString s).map fun (raw, after) => (u ++ raw, after) := by
  induction units with
  | nil =>
    rw [List.nil_append]
    cases Cjson.splitString s <;> rfl
  | @cons a u whole units ih =>
    rw [List.append_assoc, whole.splitString, ih]
    cases Cjson.splitString s <;> simp

theorem splitString_inside {s raw after : Text} (read : splitString s = some (raw, after)) :
    s = raw ++ 34 :: after ∧ ∀ t, splitString (raw ++ 34 :: t) = some (raw, t) := by
  fun_induction Cjson.splitString s generalizing raw after with
  | case1 => cases read
  | case2 rest =>
    cases read
    exact ⟨rfl, fun t => splitString_quote t⟩
  | case3 => cases read
  | case4 escaped rest quote ih =>
    obtain ⟨⟨raw', after'⟩, found, same⟩ := Option.map_eq_some_iff.mp read
    cases same
    obtain ⟨rfl, reads⟩ := ih found
    refine ⟨rfl, fun t => ?_⟩
    rw [List.cons_append, List.cons_append, splitString_slash, reads]
    rfl
  | case5 c rest quote slash ih =>
    obtain ⟨⟨raw', after'⟩, found, same⟩ := Option.map_eq_some_iff.mp read
    cases same
    obtain ⟨rfl, reads⟩ := ih found
    refine ⟨rfl, fun t => ?_⟩
    rw [List.cons_append, splitString_char quote slash, reads]
    rfl

theorem quoted_eq {raw : Text} (reads : splitString (raw ++ [34]) = some (raw, [])) (text : 0 ∉ raw) :
    quoted raw = (decode raw).map cstr := by
  have clean : cstr (34 :: raw ++ [34]) = 34 :: (raw ++ [34]) := cstr_eq_self (by simp [text])
  have start : skipBom (34 :: (raw ++ [34])) = 34 :: (raw ++ [34]) := by
    unfold skipBom
    apply if_neg
    rintro ⟨-, mark⟩
    rw [List.take_succ_cons] at mark
    exact absurd (List.cons.inj mark).1 (by decide)
  unfold quoted parse parseWithEnd
  rw [clean, start, skipSpace_cons (by decide), List.length_cons]
  generalize List.length (raw ++ [34]) = n
  rw [show 2 * (n + 1) + 2 = (2 * n + 3) + 1 by omega, parseValue_quote]
  simp only [parseString, reads]
  cases same : unescape raw.length raw <;> simp [decode, same]

/-! ### What is shown -/

theorem shown_eq {q : Text} (text : 0 ∉ q) : ∃ u w, Cut q u w ∧ shown q = (decode u).map cstr := by
  obtain ⟨u, w, cut, size⟩ := cut_safe (Nat.le_refl q.length)
  have taken : q.take (safe q.length q) = u := by rw [size, cut.whole, List.take_left]
  have alone : splitString (u ++ [34]) = some (u, []) := by
    rw [cut.units.splitString, splitString_quote]
    simp
  have clean : 0 ∉ u := by
    intro member
    exact text (cut.whole ▸ List.mem_append_left w member)
  exact ⟨u, w, cut, by rw [shown, taken, quoted_eq alone clean]⟩

theorem shown_prefix {q t r r' : Text} (text : 0 ∉ q ++ t) (first : shown q = some r)
    (second : shown (q ++ t) = some r') : r <+: r' := by
  obtain ⟨u, w, cut, less⟩ := shown_eq fun member => text (List.mem_append_left t member)
  obtain ⟨u', w', cut', more⟩ := shown_eq text
  obtain ⟨x, rfl⟩ : u <+: u' := by
    refine @Units.starts u u' (w ++ t) w' cut.units cut'.units ?_ cut'.stop
    rw [← cut'.whole, cut.whole, List.append_assoc]
  rw [less] at first
  rw [more, cut.units.decode] at second
  obtain ⟨v, read, rfl⟩ := Option.map_eq_some_iff.mp first
  obtain ⟨v', read', rfl⟩ := Option.map_eq_some_iff.mp second
  rw [read, Option.bind_some] at read'
  obtain ⟨v'', -, rfl⟩ := Option.map_eq_some_iff.mp read'
  obtain ⟨rest, same, -⟩ := cstr_append v v''
  exact ⟨rest, same.symm⟩

theorem decode_stop {s raw after v : Text} (stop : unit s = none) (read : splitString s = some (raw, after))
    (decoded : decode raw = some v) : v = [] ∨ v.head? = some 0 := by
  match s with
  | [] => cases read
  | [c] =>
    by_cases quote : c = 34
    · subst quote
      cases read
      cases decoded
      exact .inl rfl
    · by_cases slash : c = 92
      · subst slash
        cases read
      · rw [unit_plain quote slash] at stop
        cases stop
  | c :: e :: s =>
    by_cases quote : c = 34
    · subst quote
      cases (splitString_quote _).symm.trans read
      cases decoded
      exact .inl rfl
    · by_cases slash : c = 92
      · subst slash
        by_cases other : e = 117
        · subst other
          rw [splitString_slash] at read
          obtain ⟨⟨inside, rest⟩, read, same⟩ := Option.map_eq_some_iff.mp read
          cases same
          obtain ⟨rfl, -⟩ := splitString_inside read
          have unescaped : unescape (inside.length + 1 + 1) (92 :: 117 :: inside) = some v := decoded
          rw [unescape_escape] at unescaped
          obtain ⟨⟨bytes, n⟩, literal, unescaped⟩ := Option.bind_eq_some_iff.mp unescaped
          obtain ⟨later, -, rfl⟩ := Option.map_eq_some_iff.mp unescaped
          unfold utf16Literal at literal
          have enough : 4 ≤ inside.length := by
            by_contra short
            rw [if_pos (by simp; omega)] at literal
            cases literal
          rw [if_neg (by simp; omega)] at literal
          have first : parseHex4 ((92 :: 117 :: inside).drop 2) = (hex4 inside).getD 0 := parseHex4_eq enough
          have second : (92 :: 117 :: inside).drop 6 = inside.drop 4 := rfl
          simp only [first, second] at literal
          rw [unit_escape, hex4_append enough] at stop
          cases hex : hex4 inside with
          | none =>
            rw [hex] at literal
            cases literal
            exact .inr rfl
          | some value =>
            rw [hex] at literal stop
            simp only [Option.getD_some] at literal
            dsimp only at stop
            split at literal
            · cases literal
            · by_cases range : 0xD800 ≤ value ∧ value ≤ 0xDBFF
              · rw [if_pos range] at literal stop
                split at literal
                · cases literal
                next pair =>
                  rw [not_or, not_not, Nat.not_lt, List.length_drop] at pair
                  have six : (inside.drop 4).drop 2 = inside.drop 6 := by rw [List.drop_drop]
                  have low : parseHex4 ((inside.drop 4).drop 2) = (hex4 (inside.drop 6)).getD 0 := by
                    rw [six, parseHex4_eq (by rw [List.length_drop]; omega)]
                  simp only [low] at literal
                  rw [List.drop_append_of_le_length (by omega), List.drop_append_of_le_length (by omega),
                    List.take_append_of_le_length (by rw [List.length_drop]; omega), if_neg (not_not.mpr pair.2),
                    hex4_append (by rw [List.length_drop]; omega)] at stop
                  cases hex' : hex4 (inside.drop 6) with
                  | none =>
                    rw [hex'] at literal
                    cases literal
                  | some low =>
                    rw [hex'] at literal stop
                    simp only [Option.getD_some] at literal
                    dsimp only at stop
                    split at stop
                    next bad =>
                      rw [if_pos bad] at literal
                      cases literal
                    · cases stop
              · rw [if_neg range] at stop
                cases stop
        · rw [unit_short other] at stop
          cases stop
      · rw [unit_plain quote slash] at stop
        cases stop

theorem shown_whole {q raw after v : Text} (text : 0 ∉ q) (read : splitString q = some (raw, after))
    (decoded : decode raw = some v) : shown q = some (cstr v) := by
  obtain ⟨u, w, cut, same⟩ := shown_eq text
  rw [cut.whole, cut.units.splitString] at read
  obtain ⟨⟨inside, rest⟩, read, pair⟩ := Option.map_eq_some_iff.mp read
  cases pair
  rw [cut.units.decode] at decoded
  obtain ⟨first, start, decoded⟩ := Option.bind_eq_some_iff.mp decoded
  obtain ⟨later, behind, rfl⟩ := Option.map_eq_some_iff.mp decoded
  rw [same, start]
  rcases decode_stop cut.stop read behind with rfl | zero
  · rw [List.append_nil]
    rfl
  · obtain ⟨b, later, rfl⟩ : ∃ b t, later = b :: t := by
      cases later with
      | nil => cases zero
      | cons b t => exact ⟨b, t, rfl⟩
    obtain rfl : b = 0 := Option.some.inj zero
    refine congrArg some ?_
    unfold cstr
    rw [List.takeWhile_append]
    split
    next all =>
      have plain := (List.takeWhile_prefix _).eq_of_length all
      rw [plain]
      simp
    next => rfl

end CognitiveOs.Llm.Preview
