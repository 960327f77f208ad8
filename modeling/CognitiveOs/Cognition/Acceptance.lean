import CognitiveOs.Cognition.Steps

/-!
# The acceptance contract

What a run must have done before it may call itself complete, and how a declaration
of the model or of the caller is merged into it.
-/

namespace CognitiveOs.Cognition

open Infra Os

theorem none_fits : ([] : List Text).length ≤ 64 := Nat.zero_le _

structure Paths where
  list : List Text := []
  nodup : list.Nodup := by exact List.nodup_nil
  bounded : list.length ≤ 64 := by exact none_fits

namespace Paths

def add (paths : Paths) (path : Text) : Option Paths :=
  if known : path ∈ paths.list then some paths
  else if room : paths.list.length < 64 then
    some
      { list := paths.list ++ [path]
        nodup := by simpa [List.nodup_append] using ⟨paths.nodup, fun _ member => by grind⟩
        bounded := by rw [List.length_append]; exact room }
  else none

theorem mem_add_iff {paths next : Paths} {path : Text} (added : paths.add path = some next)
    (other : Text) : other ∈ next.list ↔ other ∈ paths.list ∨ other = path := by
  unfold add at added
  split at added
  · rename_i known
    rw [← Option.some.inj added]
    constructor
    · exact Or.inl
    · rintro (member | rfl)
      · exact member
      · exact known
  · split at added
    · rw [← Option.some.inj added]
      simp
    · cases added

end Paths

/-- `r->acceptance`; a flag is only ever set to true. -/
structure Contract where
  requiresAction : Bool := false
  requiresObservation : Bool := false
  artifacts : Paths := {}
  fullReads : Paths := {}

abbrev Baseline := List (Text × UInt64)

structure Acceptance where
  contract : Option Contract := none
  invalid : Bool := false
  baseline : Baseline := []

/-! ### Validation -/

def validPath : Json → Bool
  | .string path => path ≠ [] && path.length ≤ 1800
  | _ => false

def validField : Text × Json → Bool
  | (key, field) =>
    if key = ascii "requires_action" || key = ascii "requires_observation" then
      match field with
      | .bool _ => true
      | _ => false
    else if key = ascii "artifacts" || key = ascii "full_reads" then
      match field with
      | .array items => items.length ≤ 64 && items.all validPath
      | _ => false
    else false

/-- `reasoning_acceptance_validate`, on the value its argument is the text of. -/
def acceptanceValidate : Json → Bool
  | .object members => members.all validField
  | _ => false

/-! ### Merging -/

variable (workspace : Text) (w : World)

def mergePath (artifact : Bool) (paths : Paths) (baseline : Baseline) (path : Text) :
    Option Paths × Baseline :=
  let full := normalizedEvidencePath workspace w path 2048
  if 2047 ≤ full.length then (none, baseline)
  else
    match paths.add full with
    | none => (none, baseline)
    | some next =>
      (some next,
        if artifact && !paths.list.contains full then (artifactBaselineOf w baseline full).2
        else baseline)

def mergePaths (artifact : Bool) : List Json → Paths → Baseline → Option Paths × Baseline
  | [], paths, baseline => (some paths, baseline)
  | item :: items, paths, baseline =>
    match mergePath workspace w artifact paths baseline (item.string?.getD []) with
    | (none, baseline) => (none, baseline)
    | (some paths, baseline) => mergePaths artifact items paths baseline

def mergeField (contract : Contract) (baseline : Baseline) : Text × Json → Option Contract × Baseline
  | (key, .bool value) =>
    let contract :=
      if value then
        if key = ascii "requires_action" then { contract with requiresAction := true }
        else { contract with requiresObservation := true }
      else contract
    (some contract, baseline)
  | (key, field) =>
    if key = ascii "artifacts" then
      let (paths, baseline) := mergePaths workspace w true field.items contract.artifacts baseline
      (paths.map fun paths => { contract with artifacts := paths }, baseline)
    else
      let (paths, baseline) := mergePaths workspace w false field.items contract.fullReads baseline
      (paths.map fun paths => { contract with fullReads := paths }, baseline)

def mergeFields : List (Text × Json) → Contract → Baseline → Option Contract × Baseline
  | [], contract, baseline => (some contract, baseline)
  | field :: fields, contract, baseline =>
    match mergeField workspace w contract baseline field with
    | (none, baseline) => (none, baseline)
    | (some contract, baseline) => mergeFields fields contract baseline

/-- `merge_acceptance`: the edits are made on a copy. -/
def mergeAcceptance (t : Acceptance) : Option Json → Acceptance
  | none => t
  | some input =>
    if !acceptanceValidate input then { t with invalid := true }
    else
      let members :=
        match input with
        | .object members => members
        | _ => []
      match mergeFields workspace w members (t.contract.getD {}) t.baseline with
      | (none, baseline) => { t with invalid := true, baseline }
      | (some next, baseline) => { contract := some next, baseline }

end CognitiveOs.Cognition
