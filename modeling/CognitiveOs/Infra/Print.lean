import CognitiveOs.Infra.Cjson

/-!
# Printing JSON

`cJSON_PrintUnformatted`, and what a printed value is parsed back as: itself, but for its numbers.
-/

namespace CognitiveOs.Infra

namespace Json

mutual

/-- `print_value`; `number` prints a double. -/
def print (number : Rat → Text) : Json → Text
  | .array [] => [91, 93]
  | .array (item :: items) => 91 :: (print number item ++ printItems number items)
  | .object [] => [123, 125]
  | .object ((key, value) :: members) =>
    123 :: (printString key ++ 58 :: (print number value ++ printMembers number members))
  | .null => ascii "null"
  | .bool value => if value then ascii "true" else ascii "false"
  | .number value => number value
  | .string value => printString value

def printItems (number : Rat → Text) : List Json → Text
  | [] => [93]
  | item :: items => 44 :: (print number item ++ printItems number items)

def printMembers (number : Rat → Text) : List (Text × Json) → Text
  | [] => [125]
  | (key, value) :: members =>
    44 :: (printString key ++ 58 :: (print number value ++ printMembers number members))

end

mutual

/-- A value of C strings, without numbers and at most `height` brackets deep. -/
inductive Plain : Nat → Json → Prop where
  | null {height : Nat} : Plain height .null
  | bool {height : Nat} (value : Bool) : Plain height (.bool value)
  | string {height : Nat} {value : Text} : 0 ∉ value → Plain height (.string value)
  | array {height : Nat} {items : List Json} : PlainItems height items → Plain (height + 1) (.array items)
  | object {height : Nat} {members : List (Text × Json)} :
      PlainMembers height members → Plain (height + 1) (.object members)

inductive PlainItems : Nat → List Json → Prop where
  | nil {height : Nat} : PlainItems height []
  | cons {height : Nat} {item : Json} {items : List Json} :
      Plain height item → PlainItems height items → PlainItems height (item :: items)

inductive PlainMembers : Nat → List (Text × Json) → Prop where
  | nil {height : Nat} : PlainMembers height []
  | cons {height : Nat} {key : Text} {value : Json} {members : List (Text × Json)} : 0 ∉ key →
      Plain height value → PlainMembers height members → PlainMembers height ((key, value) :: members)

end

/-- What a printed double is read back as: a double that is printed the same, or `null`. -/
inductive NumberReads (number : Rat → Text) (value : Rat) : Json → Prop where
  | number {again : Rat} : (∀ b ∈ number value, Cjson.isNumberByte b = true) →
      (∃ c rest, number value = c :: rest ∧ (c = 45 ∨ isDigit c = true)) →
      Cjson.strtod (number value) = some (again, []) → number again = number value →
      NumberReads number value (.number again)
  | null : number value = ascii "null" → NumberReads number value .null

mutual

/-- What a value of C strings, at most `height` brackets deep, is read back as when it is printed. -/
inductive Rereads (number : Rat → Text) : Nat → Json → Json → Prop where
  | null {height : Nat} : Rereads number height .null .null
  | bool {height : Nat} (value : Bool) : Rereads number height (.bool value) (.bool value)
  | string {height : Nat} {value : Text} : 0 ∉ value → Rereads number height (.string value) (.string value)
  | number {height : Nat} {value : Rat} {json : Json} : NumberReads number value json →
      Rereads number height (.number value) json
  | array {height : Nat} {items items' : List Json} : RereadsItems number height items items' →
      Rereads number (height + 1) (.array items) (.array items')
  | object {height : Nat} {members members' : List (Text × Json)} : RereadsMembers number height members members' →
      Rereads number (height + 1) (.object members) (.object members')

inductive RereadsItems (number : Rat → Text) : Nat → List Json → List Json → Prop where
  | nil {height : Nat} : RereadsItems number height [] []
  | cons {height : Nat} {item item' : Json} {items items' : List Json} : Rereads number height item item' →
      RereadsItems number height items items' → RereadsItems number height (item :: items) (item' :: items')

inductive RereadsMembers (number : Rat → Text) : Nat → List (Text × Json) → List (Text × Json) → Prop where
  | nil {height : Nat} : RereadsMembers number height [] []
  | cons {height : Nat} {key : Text} {value value' : Json} {members members' : List (Text × Json)} : 0 ∉ key →
      Rereads number height value value' → RereadsMembers number height members members' →
      RereadsMembers number height ((key, value) :: members) ((key, value') :: members')

end

mutual

theorem Plain.rereads (number : Rat → Text) {height : Nat} {json : Json} :
    Plain height json → Rereads number height json json
  | .null => .null
  | .bool value => .bool value
  | .string text => .string text
  | .array items => .array (items.rereads number)
  | .object members => .object (members.rereads number)

theorem PlainItems.rereads (number : Rat → Text) {height : Nat} {items : List Json} :
    PlainItems height items → RereadsItems number height items items
  | .nil => .nil
  | .cons item items => .cons (item.rereads number) (items.rereads number)

theorem PlainMembers.rereads (number : Rat → Text) {height : Nat} {members : List (Text × Json)} :
    PlainMembers height members → RereadsMembers number height members members
  | .nil => .nil
  | .cons text value members => .cons text (value.rereads number) (members.rereads number)

end

mutual

theorem Rereads.print_eq {number : Rat → Text} {height : Nat} {json json' : Json} :
    Rereads number height json json' → print number json' = print number json
  | .null => rfl
  | .bool _ => rfl
  | .string _ => rfl
  | .number (.number _ _ _ same) => same
  | .number (.null same) => same.symm
  | .array .nil => rfl
  | .array (.cons item items) => by rw [print, print, item.print_eq, items.print_eq]
  | .object .nil => rfl
  | .object (.cons _ value members) => by rw [print, print, value.print_eq, members.print_eq]

theorem RereadsItems.print_eq {number : Rat → Text} {height : Nat} {items items' : List Json} :
    RereadsItems number height items items' → printItems number items' = printItems number items
  | .nil => rfl
  | .cons item items => by rw [printItems, printItems, item.print_eq, items.print_eq]

theorem RereadsMembers.print_eq {number : Rat → Text} {height : Nat} {members members' : List (Text × Json)} :
    RereadsMembers number height members members' → printMembers number members' = printMembers number members
  | .nil => rfl
  | .cons _ value members => by rw [printMembers, printMembers, value.print_eq, members.print_eq]

end

end Json

namespace Cjson

open Json

variable (number : Rat → Text)

variable {height : Nat} {json json' : Json}

theorem print_start (shown : Rereads number height json json') :
    ∃ c s, print number json = c :: s ∧ 32 < c ∧ c ≠ 93 ∧ c ≠ 125 ∧ c < 128 := by
  cases shown with
  | null => exact ⟨110, _, rfl, by decide⟩
  | bool value =>
    cases value with
    | false => exact ⟨102, _, rfl, by decide⟩
    | true => exact ⟨116, _, rfl, by decide⟩
  | string _ => exact ⟨34, _, by rw [print]; rfl, by decide⟩
  | number shown =>
    cases shown with
    | null text => exact ⟨110, _, by rw [print, text]; rfl, by decide⟩
    | number _ start _ _ =>
      obtain ⟨c, rest, text, first⟩ := start
      refine ⟨c, rest, by rw [print, text], ?_⟩
      rcases first with rfl | digit
      · decide
      · simp only [isDigit, Bool.and_eq_true, decide_eq_true_eq, UInt8.le_iff_toNat_le] at digit
        have low : 48 ≤ c.toNat := digit.1
        have high : c.toNat ≤ 57 := digit.2
        simp only [ne_eq, UInt8.lt_iff_toNat_lt, ← UInt8.toNat_inj]
        refine ⟨?_, ?_, ?_, ?_⟩ <;> simp <;> omega
  | array shown => cases shown <;> exact ⟨91, _, by rw [print], by decide⟩
  | object shown => cases shown <;> exact ⟨123, _, by rw [print], by decide⟩

theorem skipSpace_print (shown : Rereads number height json json') (t : Text) :
    skipSpace (print number json ++ t) = print number json ++ t := by
  obtain ⟨c, s, start, visible, -⟩ := print_start number shown
  rw [start]
  exact skipSpace_cons visible

theorem skipSpace_printString (key t : Text) : skipSpace (printString key ++ t) = printString key ++ t :=
  skipSpace_cons (by decide)

variable {fuel depth : Nat}

theorem parseValue_printString {value : Text} (text : 0 ∉ value) (rest : Text) :
    parseValue (fuel + 1) depth (printString value ++ rest) = some (.string value, rest) := by
  have read := parseString_print text rest
  unfold printString at read ⊢
  simp only [List.cons_append, List.append_assoc, List.nil_append] at read ⊢
  show (parseString (34 :: _)).map _ = _
  rw [read]
  rfl

variable {c : UInt8} {s : Text}

theorem parseValue_array (visible : 32 < c) (more : c ≠ 93) (shallow : depth < nestingLimit) :
    parseValue (fuel + 1) depth (91 :: c :: s) =
      (parseItems fuel (depth + 1) (c :: s)).map fun (items, after) => (.array items, after) := by
  show (if nestingLimit ≤ depth then _ else _) = _
  rw [if_neg (by omega), skipSpace_cons visible, if_neg (by simpa using more)]

theorem parseValue_object (visible : 32 < c) (more : c ≠ 125) (shallow : depth < nestingLimit) :
    parseValue (fuel + 1) depth (123 :: c :: s) =
      (parseMembers fuel (depth + 1) (c :: s)).map fun (members, after) => (.object members, after) := by
  show (if nestingLimit ≤ depth then _ else _) = _
  rw [if_neg (by omega), skipSpace_cons visible, if_neg (by simpa using more)]

theorem parseItems_item {s' : Text} {item : Json} (start : skipSpace s = s)
    (read : parseValue fuel depth s = some (item, s')) :
    parseItems (fuel + 1) depth s =
      match skipSpace s' with
      | [] => none
      | c :: rest =>
        if c = 44 then (parseItems fuel depth rest).map fun (items, after) => (item :: items, after)
        else if c = 93 then some ([item], rest)
        else none := by
  cases next : skipSpace s' with
  | nil => simp [parseItems, start, read, next]
  | cons c rest => simp [parseItems, start, read, next]

theorem parseMembers_member {t key s' : Text} {value : Json} (name : parseString (skipSpace t) = some (key, 58 :: s))
    (start : skipSpace s = s) (read : parseValue fuel depth s = some (value, s')) :
    parseMembers (fuel + 1) depth t =
      match skipSpace s' with
      | [] => none
      | c :: rest =>
        if c = 44 then
          (parseMembers fuel depth rest).map fun (members, after) => ((key, value) :: members, after)
        else if c = 125 then some ([(key, value)], rest)
        else none := by
  have colon : skipSpace (58 :: s) = 58 :: s := skipSpace_cons (by decide)
  cases next : skipSpace s' with
  | nil => simp [parseMembers, name, colon, start, read, next]
  | cons c rest => simp [parseMembers, name, colon, start, read, next]

theorem parseString_printString {key : Text} (text : 0 ∉ key) (s : Text) :
    parseString (skipSpace (printString key ++ s)) = some (key, s) := by
  rw [skipSpace_printString]
  exact parseString_print text s

def Stops (rest : Text) : Prop :=
  ∀ c ∈ rest.head?, isNumberByte c = false

theorem stops_nil : Stops [] := by
  simp [Stops]

theorem stops_cons (other : isNumberByte c = false) (rest : Text) : Stops (c :: rest) := by
  simpa [Stops] using other

theorem stops_items (items : List Json) (rest : Text) : Stops (printItems number items ++ rest) := by
  cases items <;> rw [printItems] <;> exact stops_cons (by decide) _

theorem stops_members (members : List (Text × Json)) (rest : Text) : Stops (printMembers number members ++ rest) := by
  cases members with
  | nil =>
    rw [printMembers]
    exact stops_cons (by decide) _
  | cons member members =>
    rcases member with ⟨key, value⟩
    rw [printMembers]
    exact stops_cons (by decide) _

structure Reads (fuel : Nat) : Prop where
  value : ∀ (depth : Nat) {height : Nat} {json json' : Json}, Rereads number height json json' →
    2 * (print number json).length ≤ fuel → depth + height ≤ nestingLimit → ∀ rest : Text, Stops rest →
    parseValue fuel depth (print number json ++ rest) = some (json', rest)
  items : ∀ (depth : Nat) {height : Nat} {item item' : Json} {items items' : List Json},
    Rereads number height item item' → RereadsItems number height items items' →
    2 * ((print number item).length + (printItems number items).length) ≤ fuel →
    depth + height ≤ nestingLimit → ∀ rest : Text,
    parseItems fuel depth (print number item ++ (printItems number items ++ rest)) = some (item' :: items', rest)
  members : ∀ (depth : Nat) {height : Nat} {key : Text} {value value' : Json} {members members' : List (Text × Json)},
    0 ∉ key → Rereads number height value value' → RereadsMembers number height members members' →
    2 * ((print number value).length + (printMembers number members).length) ≤ fuel →
    depth + height ≤ nestingLimit → ∀ rest : Text,
    parseMembers fuel depth
        (printString key ++ 58 :: (print number value ++ (printMembers number members ++ rest))) =
      some ((key, value') :: members', rest)

theorem print_pos (shown : Rereads number height json json') : 0 < (print number json).length := by
  obtain ⟨c, s, start, -⟩ := print_start number shown
  rw [start]
  exact Nat.succ_pos _

theorem parseValue_number {value : Rat} (shown : NumberReads number value json) {rest : Text} (stops : Stops rest) :
    parseValue (fuel + 1) depth (number value ++ rest) = some (json, rest) := by
  cases shown with
  | null text =>
    rw [text]
    rfl
  | @number again bytes start read _ =>
    obtain ⟨c, after, text, first⟩ := start
    have taken : (number value ++ rest).takeWhile isNumberByte = number value := by
      rw [List.takeWhile_append_of_pos bytes]
      cases rest with
      | nil => simp
      | cons d rest => simp [stops d rfl]
    have dropped : (number value ++ rest).dropWhile isNumberByte = rest := by
      rw [List.dropWhile_append_of_pos bytes]
      cases rest with
      | nil => rfl
      | cons d rest => simp [stops d rfl]
    have parsed : parseNumber (number value ++ rest) = some (.number again, rest) := by
      rw [parseNumber, taken, dropped, read]
      rfl
    have letter {word : Text} {b : UInt8} (other : isNumberByte b = false) :
        (b :: word).isPrefixOf (c :: (after ++ rest)) = false := by
      have byte : isNumberByte c = true := bytes c (by rw [text]; exact List.mem_cons_self)
      have apart : b ≠ c := by
        rintro rfl
        rw [byte] at other
        cases other
      simp [List.isPrefixOf_cons_cons, apart]
    rw [text, List.cons_append] at parsed ⊢
    have quote : c ≠ 34 := by
      rcases first with rfl | digit
      · decide
      · rintro rfl
        cases digit
    rw [parseValue, show ascii "null" = [110, 117, 108, 108] by simp [ascii],
      show ascii "false" = [102, 97, 108, 115, 101] by simp [ascii],
      show ascii "true" = [116, 114, 117, 101] by simp [ascii], letter (by decide), letter (by decide),
      letter (by decide)]
    simp only [Bool.false_eq_true, if_false, if_neg quote, if_pos first]
    exact parsed

theorem reads_value (ih : Reads number fuel) (shown : Rereads number height json json')
    (enough : 2 * (print number json).length ≤ fuel + 1) (shallow : depth + height ≤ nestingLimit) (rest : Text)
    (stops : Stops rest) : parseValue (fuel + 1) depth (print number json ++ rest) = some (json', rest) := by
  cases shown with
  | null => rfl
  | bool value => cases value <;> rfl
  | string text =>
    rw [print]
    exact parseValue_printString text rest
  | number shown =>
    rw [print]
    exact parseValue_number number shown stops
  | array shown =>
    have more : ¬ nestingLimit ≤ depth := by omega
    cases shown with
    | nil =>
      rw [print]
      exact if_neg more
    | cons first later =>
      rw [print, List.length_cons, List.length_append] at enough
      obtain ⟨c, s, start, visible, bracket, -⟩ := print_start number first
      have read := ih.items (depth + 1) first later (by omega) (by omega) rest
      rw [print]
      rw [start] at read ⊢
      simp only [List.cons_append, List.append_assoc] at read ⊢
      rw [parseValue_array visible bracket (by omega), read]
      rfl
  | object shown =>
    have more : ¬ nestingLimit ≤ depth := by omega
    cases shown with
    | nil =>
      rw [print]
      exact if_neg more
    | cons text first later =>
      rw [print, List.length_cons, List.length_append, List.length_cons, List.length_append] at enough
      have read := ih.members (depth + 1) text first later (by omega) (by omega) rest
      rw [print]
      unfold printString at read ⊢
      simp only [List.cons_append, List.append_assoc] at read ⊢
      rw [parseValue_object (by decide) (by decide) (by omega), read]
      rfl

theorem reads (fuel : Nat) : Reads number fuel := by
  induction fuel with
  | zero =>
    constructor
    · intro depth height json json' shown enough
      have positive := print_pos number shown
      omega
    · intro depth height item item' items items' shown _ enough
      have positive := print_pos number shown
      omega
    · intro depth height key value value' members members' _ shown _ enough
      have positive := print_pos number shown
      omega
  | succ fuel ih =>
    constructor
    · intro depth height json json' shown enough shallow rest stops
      exact reads_value number ih shown enough shallow rest stops
    · intro depth height item item' items items' first later enough shallow rest
      have some' : 0 < (printItems number items).length := by cases items <;> rw [printItems] <;> exact Nat.succ_pos _
      rw [parseItems_item (skipSpace_print number first _)
        (ih.value depth first (by omega) shallow _ (stops_items number items rest))]
      cases later with
      | nil =>
        rw [printItems, List.singleton_append, skipSpace_cons (by decide)]
        rfl
      | cons second later =>
        rw [printItems, List.length_cons, List.length_append] at enough
        rw [printItems, List.cons_append, skipSpace_cons (by decide), List.append_assoc]
        simp only [if_true]
        rw [ih.items depth second later (by omega) shallow]
        rfl
    · intro depth height key value value' members members' text first later enough shallow rest
      have some' : 0 < (printMembers number members).length := by
        cases members <;> rw [printMembers] <;> exact Nat.succ_pos _
      rw [parseMembers_member (parseString_printString text _) (skipSpace_print number first _)
        (ih.value depth first (by omega) shallow _ (stops_members number members rest))]
      cases later with
      | nil =>
        rw [printMembers, List.singleton_append, skipSpace_cons (by decide)]
        rfl
      | cons text' second later =>
        rw [printMembers, List.length_cons, List.length_append, List.length_cons, List.length_append] at enough
        rw [printMembers, List.cons_append, skipSpace_cons (by decide), List.append_assoc, List.cons_append,
          List.append_assoc]
        simp only [if_true]
        rw [ih.members depth text' second later (by omega) shallow]
        rfl

theorem escapeByte_clean (byte : UInt8) : 0 ∉ escapeByte byte ∧ 10 ∉ escapeByte byte := by
  have all : ∀ n < 256, 0 ∉ escapeByte (UInt8.ofNat n) ∧ 10 ∉ escapeByte (UInt8.ofNat n) := by
    decide +kernel
  have this := all byte.toNat byte.toNat_lt
  rwa [UInt8.ofNat_toNat] at this

theorem printString_clean (s : Text) : 0 ∉ printString s ∧ 10 ∉ printString s := by
  have bytes (c : UInt8) (clean : ∀ byte, c ∉ escapeByte byte) (quote : c ≠ 34) :
      c ∉ printString s := by
    unfold printString
    intro member
    rcases List.mem_append.mp member with first | last
    · rcases List.mem_cons.mp first with same | inside
      · exact quote same
      · rcases List.mem_flatMap.mp inside with ⟨byte, -, found⟩
        exact clean byte found
    · exact quote (List.mem_singleton.mp last)
  exact ⟨bytes 0 (fun byte => (escapeByte_clean byte).1) (by decide),
    bytes 10 (fun byte => (escapeByte_clean byte).2) (by decide)⟩

theorem number_clean {value : Rat} (shown : NumberReads number value json) : 0 ∉ number value ∧ 10 ∉ number value := by
  cases shown with
  | null text =>
    rw [text]
    simp [ascii]
  | number bytes _ _ _ =>
    refine ⟨fun member => ?_, fun member => ?_⟩
    · exact absurd (bytes 0 member) (by decide)
    · exact absurd (bytes 10 member) (by decide)

mutual

theorem print_clean {height : Nat} {json json' : Json} :
    Rereads number height json json' → 0 ∉ print number json ∧ 10 ∉ print number json
  | .null => by rw [print]; simp [ascii]
  | .bool value => by rw [print]; cases value <;> simp [ascii]
  | .string _ => by rw [print]; exact printString_clean _
  | .number shown => by rw [print]; exact number_clean number shown
  | .array .nil => by rw [print]; decide
  | .array (.cons item items) => by
    have first := print_clean item
    have later := printItems_clean items
    rw [print]
    simp [first, later]
  | .object .nil => by rw [print]; decide
  | .object (@RereadsMembers.cons _ _ key _ _ _ _ _ value members) => by
    have name := printString_clean key
    have first := print_clean value
    have later := printMembers_clean members
    rw [print]
    simp [name, first, later]

theorem printItems_clean {height : Nat} {items items' : List Json} :
    RereadsItems number height items items' → 0 ∉ printItems number items ∧ 10 ∉ printItems number items
  | .nil => by rw [printItems]; decide
  | .cons item items => by
    have first := print_clean item
    have later := printItems_clean items
    rw [printItems]
    simp [first, later]

theorem printMembers_clean {height : Nat} {members members' : List (Text × Json)} :
    RereadsMembers number height members members' →
      0 ∉ printMembers number members ∧ 10 ∉ printMembers number members
  | .nil => by rw [printMembers]; decide
  | @RereadsMembers.cons _ _ key _ _ _ _ _ value members => by
    have name := printString_clean key
    have first := print_clean value
    have later := printMembers_clean members
    rw [printMembers]
    simp [name, first, later]

end

theorem parseWithEnd_print (shown : Rereads number height json json') (shallow : height ≤ nestingLimit) :
    parseWithEnd (print number json) = some (json', []) := by
  have text := (print_clean number shown).1
  obtain ⟨c, s, start, visible, -, -, small⟩ := print_start number shown
  have bom : skipBom (print number json) = print number json := by
    unfold skipBom
    apply if_neg
    rintro ⟨-, mark⟩
    rw [start, List.take_succ_cons] at mark
    rw [(List.cons.inj mark).1] at small
    exact absurd small (by decide)
  have read := (reads number (2 * (print number json).length + 2)).value 0 shown (by omega)
    (by omega) [] stops_nil
  have skip := skipSpace_print number shown []
  rw [List.append_nil] at read skip
  rw [parseWithEnd, cstr_eq_self text, bom, skip, read]

theorem parse_print (plain : Plain height json) (shallow : height ≤ nestingLimit) :
    parse (print number json) = some json := by
  rw [parse, parseWithEnd_print number (plain.rereads number) shallow]
  rfl

end Cjson

end CognitiveOs.Infra
