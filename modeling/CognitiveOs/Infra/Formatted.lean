import CognitiveOs.Infra.Print

/-!
# Printing JSON for people

`cJSON_Print`, which puts each member on a line of its own, and that a value without numbers is
parsed back from it.
-/

namespace CognitiveOs.Infra

namespace Json

def tabs (n : Nat) : Text :=
  List.replicate n 9

mutual

/-- `print_value` with `format`, inside `level` brackets. -/
def printFormatted (number : Rat → Text) (level : Nat) : Json → Text
  | .array [] => [91, 93]
  | .array (item :: items) => 91 :: (printFormatted number (level + 1) item ++ formattedItems number (level + 1) items)
  | .object [] => 123 :: 10 :: (tabs level ++ [125])
  | .object ((key, value) :: members) =>
    123 :: 10 :: (tabs (level + 1) ++ (printString key ++ 58 :: 9 ::
      (printFormatted number (level + 1) value ++ formattedMembers number (level + 1) members)))
  | .null => ascii "null"
  | .bool value => if value then ascii "true" else ascii "false"
  | .number value => number value
  | .string value => printString value

def formattedItems (number : Rat → Text) (level : Nat) : List Json → Text
  | [] => [93]
  | item :: items => 44 :: 32 :: (printFormatted number level item ++ formattedItems number level items)

/-- What follows a member, up to the brace; `level` counts that brace. -/
def formattedMembers (number : Rat → Text) (level : Nat) : List (Text × Json) → Text
  | [] => 10 :: (tabs (level - 1) ++ [125])
  | (key, value) :: members =>
    44 :: 10 :: (tabs level ++ (printString key ++ 58 :: 9 ::
      (printFormatted number level value ++ formattedMembers number level members)))

end

end Json

namespace Cjson

open Json

variable (number : Rat → Text)

@[simp] theorem skipSpace_space {c : UInt8} {s : Text} (blank : c ≤ 32) : skipSpace (c :: s) = skipSpace s := by
  simp [skipSpace, blank]

@[simp] theorem skipSpace_tabs (n : Nat) (s : Text) : skipSpace (tabs n ++ s) = skipSpace s := by
  induction n with
  | zero => rfl
  | succ n ih =>
    rw [tabs, List.replicate_succ, List.cons_append, skipSpace_space (by decide)]
    exact ih

variable {height : Nat} {json : Json}

theorem formatted_start (plain : Plain height json) (level : Nat) :
    ∃ c s, printFormatted number level json = c :: s ∧ 32 < c ∧ c ≠ 93 ∧ c ≠ 125 ∧ c < 128 := by
  cases plain with
  | null => exact ⟨110, _, by rw [printFormatted]; rfl, by decide⟩
  | bool value =>
    cases value with
    | false => exact ⟨102, _, by rw [printFormatted]; rfl, by decide⟩
    | true => exact ⟨116, _, by rw [printFormatted]; rfl, by decide⟩
  | string _ => exact ⟨34, _, by rw [printFormatted]; rfl, by decide⟩
  | array items => cases items <;> exact ⟨91, _, by rw [printFormatted], by decide⟩
  | object members => cases members <;> exact ⟨123, _, by rw [printFormatted], by decide⟩

theorem skipSpace_formatted (plain : Plain height json) (level : Nat) (t : Text) :
    skipSpace (printFormatted number level json ++ t) = printFormatted number level json ++ t := by
  obtain ⟨c, s, start, visible, -⟩ := formatted_start number plain level
  rw [start]
  exact skipSpace_cons visible

theorem formatted_pos (plain : Plain height json) (level : Nat) : 0 < (printFormatted number level json).length := by
  obtain ⟨c, s, start, -⟩ := formatted_start number plain level
  rw [start]
  exact Nat.succ_pos _

theorem parseMembers_spaced {fuel depth : Nat} {t key s s' : Text} {value : Json} (text : 0 ∉ key)
    (name : skipSpace t = printString key ++ 58 :: s) (read : parseValue fuel depth (skipSpace s) = some (value, s')) :
    parseMembers (fuel + 1) depth t =
      match skipSpace s' with
      | [] => none
      | c :: rest =>
        if c = 44 then
          (parseMembers fuel depth rest).map fun (members, after) => ((key, value) :: members, after)
        else if c = 125 then some ([(key, value)], rest)
        else none := by
  have colon : skipSpace (58 :: s) = 58 :: s := skipSpace_cons (by decide)
  have named : parseString (skipSpace t) = some (key, 58 :: s) := by
    rw [name]
    exact parseString_print text (58 :: s)
  cases next : skipSpace s' with
  | nil => simp [parseMembers, named, colon, read, next]
  | cons c rest => simp [parseMembers, named, colon, read, next]

structure ReadsFormatted (fuel : Nat) : Prop where
  value : ∀ (depth level : Nat) {height : Nat} {json : Json}, Plain height json →
    2 * (printFormatted number level json).length ≤ fuel → depth + height ≤ nestingLimit → ∀ rest : Text,
    parseValue fuel depth (printFormatted number level json ++ rest) = some (json, rest)
  items : ∀ (depth level : Nat) {height : Nat} {item : Json} {items : List Json}, Plain height item →
    PlainItems height items →
    2 * ((printFormatted number level item).length + (formattedItems number level items).length) ≤ fuel →
    depth + height ≤ nestingLimit → ∀ (t rest : Text),
    skipSpace t = printFormatted number level item ++ (formattedItems number level items ++ rest) →
    parseItems fuel depth t = some (item :: items, rest)
  members : ∀ (depth level : Nat) {height : Nat} {key : Text} {value : Json} {members : List (Text × Json)}, 0 ∉ key →
    Plain height value → PlainMembers height members →
    2 * ((printFormatted number level value).length + (formattedMembers number level members).length) ≤ fuel →
    depth + height ≤ nestingLimit → ∀ (t rest : Text),
    skipSpace t = printString key ++ 58 :: 9 :: (printFormatted number level value ++
      (formattedMembers number level members ++ rest)) →
    parseMembers fuel depth t = some ((key, value) :: members, rest)

theorem reads_formatted_value {fuel : Nat} (ih : ReadsFormatted number fuel) {depth level : Nat}
    (plain : Plain height json) (enough : 2 * (printFormatted number level json).length ≤ fuel + 1)
    (shallow : depth + height ≤ nestingLimit) (rest : Text) :
    parseValue (fuel + 1) depth (printFormatted number level json ++ rest) = some (json, rest) := by
  cases plain with
  | null =>
    rw [printFormatted]
    rfl
  | bool value => cases value <;> rw [printFormatted] <;> rfl
  | string text =>
    rw [printFormatted]
    exact parseValue_printString text rest
  | array items =>
    have more : ¬ nestingLimit ≤ depth := by omega
    cases items with
    | nil =>
      rw [printFormatted]
      exact if_neg more
    | cons first later =>
      rw [printFormatted, List.length_cons, List.length_append] at enough
      obtain ⟨c, s, start, visible, bracket, -⟩ := formatted_start number first (level + 1)
      have read := ih.items (depth + 1) (level + 1) first later (by omega) (by omega) _ rest
        (skipSpace_formatted number first (level + 1) _)
      rw [printFormatted]
      rw [start] at read ⊢
      simp only [List.cons_append, List.append_assoc] at read ⊢
      rw [parseValue_array visible bracket (by omega), read]
      rfl
  | object members =>
    have more : ¬ nestingLimit ≤ depth := by omega
    cases members with
    | nil =>
      have close : skipSpace (10 :: (tabs level ++ 125 :: rest)) = 125 :: rest := by
        rw [skipSpace_space (by decide), skipSpace_tabs, skipSpace_cons (by decide)]
      rw [printFormatted]
      simp only [List.cons_append, List.append_assoc, List.nil_append]
      show (if nestingLimit ≤ depth then _ else if _ then _ else _) = _
      rw [if_neg more, close]
      rfl
    | @cons _ key _ members text first later =>
      rw [printFormatted] at enough ⊢
      simp only [List.length_cons, List.length_append] at enough
      have open' (t : Text) :
          skipSpace (10 :: (tabs (level + 1) ++ (printString key ++ t))) = printString key ++ t := by
        rw [skipSpace_space (by decide), skipSpace_tabs, skipSpace_printString]
      have read := ih.members (depth + 1) (level + 1) text first later (by omega) (by omega) _ rest (open' _)
      simp only [List.cons_append, List.append_assoc] at read ⊢
      show (if nestingLimit ≤ depth then _ else if _ then _ else _) = _
      rw [if_neg more, open', if_neg (by simp [printString]), read]
      rfl

theorem reads_formatted (fuel : Nat) : ReadsFormatted number fuel := by
  induction fuel with
  | zero =>
    constructor
    · intro depth level height json plain enough
      have positive := formatted_pos number plain level
      omega
    · intro depth level height item items plain _ enough
      have positive := formatted_pos number plain level
      omega
    · intro depth level height key value members _ plain _ enough
      have positive := formatted_pos number plain level
      omega
  | succ fuel ih =>
    constructor
    · intro depth level height json plain enough shallow rest
      exact reads_formatted_value number ih plain enough shallow rest
    · intro depth level height item items first later enough shallow t rest start
      have some' : 0 < (formattedItems number level items).length := by
        cases items <;> rw [formattedItems] <;> exact Nat.succ_pos _
      have read := ih.value depth level first (by omega) shallow (formattedItems number level items ++ rest)
      rw [← start] at read
      cases later with
      | nil =>
        have close : skipSpace (formattedItems number level [] ++ rest) = 93 :: rest := by
          rw [formattedItems, List.singleton_append, skipSpace_cons (by decide)]
        simp [parseItems, read, close]
      | @cons _ second items plain later =>
        rw [formattedItems, List.length_cons, List.length_cons, List.length_append] at enough
        have next : skipSpace (formattedItems number level (second :: items) ++ rest) =
            44 :: 32 :: (printFormatted number level second ++ (formattedItems number level items ++ rest)) := by
          rw [formattedItems]
          simp only [List.cons_append, List.append_assoc]
          exact skipSpace_cons (by decide)
        have again := ih.items depth level plain later (by omega) shallow
          (32 :: (printFormatted number level second ++ (formattedItems number level items ++ rest))) rest (by
            rw [skipSpace_space (by decide), skipSpace_formatted number plain])
        simp [parseItems, read, next, again]
    · intro depth level height key value members text first later enough shallow t rest start
      have some' : 0 < (formattedMembers number level members).length := by
        cases members <;> rw [formattedMembers] <;> exact Nat.succ_pos _
      have read := ih.value depth level first (by omega) shallow (formattedMembers number level members ++ rest)
      rw [parseMembers_spaced text start (by rw [skipSpace_space (by decide), skipSpace_formatted number first, read])]
      cases later with
      | nil =>
        have close : skipSpace (formattedMembers number level [] ++ rest) = 125 :: rest := by
          rw [formattedMembers]
          simp only [List.cons_append, List.append_assoc, List.nil_append]
          rw [skipSpace_space (by decide), skipSpace_tabs, skipSpace_cons (by decide)]
        simp [close]
      | @cons _ key' value' members text' plain later =>
        rw [formattedMembers] at enough
        simp only [List.length_cons, List.length_append] at enough
        have next : skipSpace (formattedMembers number level ((key', value') :: members) ++ rest) =
            44 :: 10 :: (tabs level ++ (printString key' ++ 58 :: 9 :: (printFormatted number level value' ++
              (formattedMembers number level members ++ rest)))) := by
          rw [formattedMembers]
          simp only [List.cons_append, List.append_assoc]
          exact skipSpace_cons (by decide)
        have again := ih.members depth level text' plain later (by omega) shallow
          (10 :: (tabs level ++ (printString key' ++ 58 :: 9 :: (printFormatted number level value' ++
              (formattedMembers number level members ++ rest))))) rest (by
            rw [skipSpace_space (by decide), skipSpace_tabs, skipSpace_printString])
        simp [next, again]

mutual

theorem formatted_clean {height level : Nat} {json : Json} : Plain height json → 0 ∉ printFormatted number level json
  | .null => by rw [printFormatted]; decide
  | .bool value => by cases value <;> rw [printFormatted] <;> decide
  | @Plain.string _ value _ => by rw [printFormatted]; exact (printString_clean value).1
  | .array .nil => by rw [printFormatted]; decide
  | .array (.cons first later) => by
    rw [printFormatted]
    simp [formatted_clean first, formattedItems_clean later]
  | .object .nil => by
    rw [printFormatted]
    simp [tabs]
  | .object (@PlainMembers.cons _ key _ _ _ first later) => by
    rw [printFormatted]
    simp [tabs, (printString_clean key).1, formatted_clean first, formattedMembers_clean later]

theorem formattedItems_clean {height level : Nat} {items : List Json} :
    PlainItems height items → 0 ∉ formattedItems number level items
  | .nil => by rw [formattedItems]; decide
  | .cons first later => by
    rw [formattedItems]
    simp [formatted_clean first, formattedItems_clean later]

theorem formattedMembers_clean {height level : Nat} {members : List (Text × Json)} :
    PlainMembers height members → 0 ∉ formattedMembers number level members
  | .nil => by
    rw [formattedMembers]
    simp [tabs]
  | @PlainMembers.cons _ key _ _ _ first later => by
    rw [formattedMembers]
    simp [tabs, (printString_clean key).1, formatted_clean first, formattedMembers_clean later]

end

theorem parse_formatted (plain : Plain height json) (shallow : height ≤ nestingLimit) :
    parse (printFormatted number 0 json) = some json := by
  have text : 0 ∉ printFormatted number 0 json := formatted_clean number plain
  obtain ⟨c, s, start, visible, -, -, small⟩ := formatted_start number plain 0
  have bom : skipBom (printFormatted number 0 json) = printFormatted number 0 json := by
    unfold skipBom
    apply if_neg
    rintro ⟨-, mark⟩
    rw [start, List.take_succ_cons] at mark
    rw [(List.cons.inj mark).1] at small
    exact absurd small (by decide)
  have read := (reads_formatted number (2 * (printFormatted number 0 json).length + 2)).value 0 0 plain (by omega)
    (by omega) []
  have skip := skipSpace_formatted number plain 0 []
  rw [List.append_nil] at read skip
  rw [parse, parseWithEnd, cstr_eq_self text, bom, skip, read]
  rfl

end Cjson

end CognitiveOs.Infra
