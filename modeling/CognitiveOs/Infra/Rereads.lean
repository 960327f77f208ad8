import CognitiveOs.Infra.Numerals
import Mathlib.Data.Rat.Floor

/-!
# Members and items that are read back

What a lookup finds in an object, and the items of an array, after they were printed and parsed.
-/

namespace CognitiveOs.Infra.Cjson

open Json

variable {number : Rat → Text}

/-- `(int64_t)` and `(int)` of a double in their range. -/
def castInt (value : Rat) : Int :=
  if value < 0 then -⌊-value⌋ else ⌊value⌋

theorem castInt_intCast (k : Int) : castInt k = k := by
  unfold castInt
  split
  · rw [← Int.cast_neg, Int.floor_intCast, Int.neg_neg]
  · exact Int.floor_intCast k

theorem get?_rereads {height : Nat} {members members' : List (Text × Json)}
    (shown : RereadsMembers number height members members') {key : Text} {value : Json}
    (found : (Json.object members).get? key = some value) :
    ∃ value', (Json.object members').get? key = some value' ∧ Rereads number height value value' := by
  induction members generalizing members' with
  | nil => cases found
  | cons first members ih =>
    cases shown with
    | @cons _ name value₁ value₁' _ others clean one rest =>
      by_cases same : name = key
      · subst same
        rw [get?_cons_self] at found
        cases found
        exact ⟨value₁', get?_cons_self _ _ _, one⟩
      · rw [get?_cons_of_ne same] at found
        rw [get?_cons_of_ne same]
        exact ih rest found

theorem get?_rereads_none {height : Nat} {members members' : List (Text × Json)}
    (shown : RereadsMembers number height members members') {key : Text}
    (nothing : (Json.object members).get? key = none) : (Json.object members').get? key = none := by
  induction members generalizing members' with
  | nil =>
    cases shown
    rfl
  | cons first members ih =>
    cases shown with
    | @cons _ name value₁ value₁' _ others clean one rest =>
      by_cases same : name = key
      · subst same
        rw [get?_cons_self] at nothing
        cases nothing
      · rw [get?_cons_of_ne same] at nothing
        rw [get?_cons_of_ne same]
        exact ih rest nothing

theorem forall₂_rereads {height : Nat} {items items' : List Json} (shown : RereadsItems number height items items') :
    List.Forall₂ (Rereads number height) items items' := by
  induction items generalizing items' with
  | nil =>
    cases shown
    exact .nil
  | cons item items ih =>
    cases shown with
    | cons one rest => exact .cons one (ih rest)

theorem within_items {height : Nat} {items : List Json} (each : ∀ item ∈ items, Within height item) :
    WithinItems height items := by
  induction items with
  | nil => exact .nil
  | cons item items ih =>
    exact .cons (each item List.mem_cons_self) (ih fun item member => each item (List.mem_cons_of_mem _ member))

theorem numberReads_unique {value : Rat} {json json' : Json} (shown : NumberReads number value json)
    (shown' : NumberReads number value json') : json = json' := by
  have apart {again : Rat} (bytes : ∀ b ∈ number value, isNumberByte b = true)
      (read : number value = ascii "null") : json = json' := by
    rw [read] at bytes
    exact absurd (bytes 110 (by decide)) (by decide)
  cases shown with
  | @number again bytes start read same =>
    cases shown' with
    | number bytes' start' read' same' =>
      rw [read] at read'
      cases read'
      rfl
    | null text => exact @apart again bytes text
  | null text =>
    cases shown' with
    | @number again bytes start read same => exact @apart again bytes text
    | null text' => rfl

theorem PrintsIntegers.rereads_int (prints : PrintsIntegers number) {height : Nat} {k : Int}
    (small : k.natAbs < 10 ^ 15) {json : Json} (shown : Rereads number height (.number k) json) : json = .number k := by
  cases shown with
  | number reads => exact numberReads_unique reads (prints.reads_self small)

end CognitiveOs.Infra.Cjson
