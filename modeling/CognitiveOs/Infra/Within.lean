import CognitiveOs.Infra.Repair

/-!
# How deep a value is

What `cJSON_Parse` returns is within its nesting limit, and what is within it can be printed and read back.
-/

namespace CognitiveOs.Infra

namespace Cjson

open Json

mutual

/-- A value of C strings, at most `height` brackets deep. -/
inductive Within : Nat → Json → Prop where
  | null {height : Nat} : Within height .null
  | bool {height : Nat} (value : Bool) : Within height (.bool value)
  | number {height : Nat} (value : Rat) : Within height (.number value)
  | string {height : Nat} {value : Text} : 0 ∉ value → Within height (.string value)
  | array {height : Nat} {items : List Json} : WithinItems height items → Within (height + 1) (.array items)
  | object {height : Nat} {members : List (Text × Json)} : WithinMembers height members →
      Within (height + 1) (.object members)

inductive WithinItems : Nat → List Json → Prop where
  | nil {height : Nat} : WithinItems height []
  | cons {height : Nat} {item : Json} {items : List Json} : Within height item → WithinItems height items →
      WithinItems height (item :: items)

inductive WithinMembers : Nat → List (Text × Json) → Prop where
  | nil {height : Nat} : WithinMembers height []
  | cons {height : Nat} {key : Text} {value : Json} {members : List (Text × Json)} : 0 ∉ key → Within height value →
      WithinMembers height members → WithinMembers height ((key, value) :: members)

end

theorem Within.array_iff {height : Nat} {items : List Json} :
    Within (height + 1) (.array items) ↔ WithinItems height items := by
  constructor
  · intro within
    cases within with
    | array items => exact items
  · exact .array

theorem WithinMembers.append {height : Nat} {members others : List (Text × Json)} (first : WithinMembers height members)
    (second : WithinMembers height others) : WithinMembers height (members ++ others) := by
  induction members with
  | nil => exact second
  | cons member members ih =>
    cases first with
    | cons key value rest => exact .cons key value (ih rest)

/-! ### What is printed -/

section

variable {number : Rat → Text}

mutual

theorem Within.rereads (readable : ∀ value, ∃ json, NumberReads number value json) {height : Nat} {json : Json} :
    Within height json → ∃ json', Rereads number height json json'
  | .null => ⟨_, .null⟩
  | .bool value => ⟨_, .bool value⟩
  | .number value => (readable value).imp fun _ => .number
  | .string text => ⟨_, .string text⟩
  | .array items => (items.rereads readable).elim fun _ shown => ⟨_, .array shown⟩
  | .object members => (members.rereads readable).elim fun _ shown => ⟨_, .object shown⟩

theorem WithinItems.rereads (readable : ∀ value, ∃ json, NumberReads number value json) {height : Nat}
    {items : List Json} : WithinItems height items → ∃ items', RereadsItems number height items items'
  | .nil => ⟨_, .nil⟩
  | .cons item items => (item.rereads readable).elim fun _ first =>
      (items.rereads readable).elim fun _ rest => ⟨_, .cons first rest⟩

theorem WithinMembers.rereads (readable : ∀ value, ∃ json, NumberReads number value json) {height : Nat}
    {members : List (Text × Json)} : WithinMembers height members →
      ∃ members', RereadsMembers number height members members'
  | .nil => ⟨_, .nil⟩
  | .cons key value members => (value.rereads readable).elim fun _ first =>
      (members.rereads readable).elim fun _ rest => ⟨_, .cons key first rest⟩

end

mutual

theorem within_of_rereads {height : Nat} {json json' : Json} : Rereads number height json json' → Within height json'
  | .null => .null
  | .bool value => .bool value
  | .string text => .string text
  | .number (.number _ _ _ _) => .number _
  | .number (.null _) => .null
  | .array items => .array (withinItems_of_rereads items)
  | .object members => .object (withinMembers_of_rereads members)

theorem withinItems_of_rereads {height : Nat} {items items' : List Json} :
    RereadsItems number height items items' → WithinItems height items'
  | .nil => .nil
  | .cons item items => .cons (within_of_rereads item) (withinItems_of_rereads items)

theorem withinMembers_of_rereads {height : Nat} {members members' : List (Text × Json)} :
    RereadsMembers number height members members' → WithinMembers height members'
  | .nil => .nil
  | .cons key value members => .cons key (within_of_rereads value) (withinMembers_of_rereads members)

end

end

/-! ### What is parsed -/

theorem parseString_text {s value after : Text} (read : parseString s = some (value, after)) : 0 ∉ value := by
  unfold parseString at read
  split at read
  · split at read
    · cases read
    · obtain ⟨raw, -, same⟩ := Option.map_eq_some_iff.mp read
      cases same
      exact not_mem_cstr raw
  · cases read

/-- What `fuel` is enough to parse is within the limit. -/
structure Nested (fuel : Nat) : Prop where
  value {depth : Nat} {s rest : Text} {json : Json} : parseValue fuel depth s = some (json, rest) →
    Within (nestingLimit - depth) json
  items {depth : Nat} {s rest : Text} {items : List Json} : parseItems fuel depth s = some (items, rest) →
    WithinItems (nestingLimit - depth) items
  members {depth : Nat} {s rest : Text} {members : List (Text × Json)} :
    parseMembers fuel depth s = some (members, rest) → WithinMembers (nestingLimit - depth) members

theorem nested_value {fuel : Nat} (ih : Nested fuel) {depth : Nat} {s rest : Text} {json : Json}
    (read : parseValue (fuel + 1) depth s = some (json, rest)) : Within (nestingLimit - depth) json := by
  have step (shallow : ¬ nestingLimit ≤ depth) : nestingLimit - depth = nestingLimit - (depth + 1) + 1 := by omega
  unfold parseValue at read
  by_cases null : (ascii "null").isPrefixOf s
  · rw [if_pos null] at read
    cases read
    exact .null
  by_cases false' : (ascii "false").isPrefixOf s
  · rw [if_neg null, if_pos false'] at read
    cases read
    exact .bool false
  by_cases true' : (ascii "true").isPrefixOf s
  · rw [if_neg null, if_neg false', if_pos true'] at read
    cases read
    exact .bool true
  rw [if_neg null, if_neg false', if_neg true'] at read
  cases s with
  | nil => cases read
  | cons c s =>
    simp only at read
    by_cases string : c = 34
    · rw [if_pos string] at read
      obtain ⟨⟨value, after⟩, found, same⟩ := Option.map_eq_some_iff.mp read
      cases same
      exact .string (parseString_text found)
    rw [if_neg string] at read
    by_cases digit : c = 45 ∨ isDigit c
    · rw [if_pos digit] at read
      obtain ⟨⟨value, after⟩, -, same⟩ := Option.map_eq_some_iff.mp read
      cases same
      exact .number value
    rw [if_neg digit] at read
    by_cases array : c = 91
    · rw [if_pos array] at read
      obtain ⟨shallow, read⟩ := Option.ite_none_left_eq_some.mp read
      rw [step shallow]
      split at read
      · cases read
        exact .array .nil
      · obtain ⟨⟨items, after⟩, inner, same⟩ := Option.map_eq_some_iff.mp read
        cases same
        exact .array (ih.items inner)
    rw [if_neg array] at read
    by_cases object : c = 123
    · rw [if_pos object] at read
      obtain ⟨shallow, read⟩ := Option.ite_none_left_eq_some.mp read
      rw [step shallow]
      split at read
      · cases read
        exact .object .nil
      · obtain ⟨⟨members, after⟩, inner, same⟩ := Option.map_eq_some_iff.mp read
        cases same
        exact .object (ih.members inner)
    · rw [if_neg object] at read
      cases read

theorem nested (fuel : Nat) : Nested fuel := by
  induction fuel with
  | zero =>
    refine ⟨fun read => ?_, fun read => ?_, fun read => ?_⟩
    · cases read
    · cases read
    · cases read
  | succ fuel ih =>
    refine ⟨nested_value ih, fun {depth s rest items} read => ?_, fun {depth s rest members} read => ?_⟩
    · rw [parseItems] at read
      split at read
      · cases read
      · rename_i item
        split at read
        · cases read
        · split at read
          · obtain ⟨⟨items, after⟩, more, same⟩ := Option.map_eq_some_iff.mp read
            cases same
            exact .cons (ih.value item) (ih.items more)
          split at read
          · cases read
            exact .cons (ih.value item) .nil
          · cases read
    · rw [parseMembers] at read
      split at read
      · cases read
      · rename_i key
        have text := parseString_text key
        split at read
        · cases read
        split at read
        · cases read
        split at read
        · cases read
        · rename_i value
          split at read
          · cases read
          split at read
          · obtain ⟨⟨members, after⟩, more, same⟩ := Option.map_eq_some_iff.mp read
            cases same
            exact .cons text (ih.value value) (ih.members more)
          split at read
          · cases read
            exact .cons text (ih.value value) .nil
          · cases read

theorem parse_within {s : Text} {json : Json} (read : parse s = some json) : Within nestingLimit json := by
  obtain ⟨⟨json, rest⟩, whole, rfl⟩ := Option.map_eq_some_iff.mp read
  exact (nested _).value whole

end Cjson

end CognitiveOs.Infra
