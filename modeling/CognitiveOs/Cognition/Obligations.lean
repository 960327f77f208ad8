import CognitiveOs.Cognition.Run

/-!
# The obligations of a run

The contract only grows, a rejected declaration leaves it alone, and a run is reported as
completed only when everything it owes is done.
-/

namespace CognitiveOs.Cognition

open Infra Os Foundation

inductive Obligation where
  | action
  | observation
  | artifact (path : Text)
  | fullRead (path : Text)
  deriving DecidableEq

def Contract.Owes (contract : Contract) : Obligation → Prop
  | .action => contract.requiresAction = true
  | .observation => contract.requiresObservation = true
  | .artifact path => path ∈ contract.artifacts.list
  | .fullRead path => path ∈ contract.fullReads.list

def Acceptance.Owes (t : Acceptance) (o : Obligation) : Prop :=
  (t.contract.getD {}).Owes o

variable (workspace : Text) (w : World)

def DeclaredBy (field : Text × Json) : Obligation → Prop
  | .action => field = (ascii "requires_action", .bool true)
  | .observation => field = (ascii "requires_observation", .bool true)
  | .artifact path => ∃ items declared, field = (ascii "artifacts", .array items) ∧
      .string declared ∈ items ∧ path = normalizedEvidencePath workspace w declared 2048
  | .fullRead path => ∃ items declared, field = (ascii "full_reads", .array items) ∧
      .string declared ∈ items ∧ path = normalizedEvidencePath workspace w declared 2048

def Declares (input : Json) (o : Obligation) : Prop :=
  ∃ members, input = .object members ∧ ∃ field ∈ members, DeclaredBy workspace w field o

/-! ### One declaration -/

section Merge

variable {workspace : Text} {w : World} {artifact : Bool} {paths next : Paths}
  {baseline baseline' : Baseline}

theorem mergePath_spec {path : Text}
    (merged : mergePath workspace w artifact paths baseline path = (some next, baseline')) :
    paths.add (normalizedEvidencePath workspace w path 2048) = some next := by
  unfold mergePath at merged
  simp only at merged
  split at merged
  · cases merged
  · split at merged
    · cases merged
    · rename_i added
      cases merged
      exact added

theorem mergePaths_spec {items : List Json}
    (merged : mergePaths workspace w artifact items paths baseline = (some next, baseline'))
    (path : Text) :
    path ∈ next.list ↔ path ∈ paths.list ∨
      ∃ item ∈ items, path = normalizedEvidencePath workspace w (item.string?.getD []) 2048 := by
  induction items generalizing paths baseline with
  | nil =>
    cases merged
    simp
  | cons item items ih =>
    unfold mergePaths at merged
    split at merged
    · cases merged
    · rename_i middle _ first
      have added := Paths.mem_add_iff (mergePath_spec first) path
      rw [ih merged, added]
      simp [or_assoc]

theorem declared_iff {items : List Json} (valid : items.all validPath = true) (path : Text) :
    (∃ item ∈ items, path = normalizedEvidencePath workspace w (item.string?.getD []) 2048) ↔
      ∃ declared, .string declared ∈ items ∧
        path = normalizedEvidencePath workspace w declared 2048 := by
  constructor
  · rintro ⟨item, member, named⟩
    have checked := List.all_eq_true.mp valid item member
    cases item with
    | string declared => exact ⟨declared, member, named⟩
    | null | bool | number | array | object => cases checked
  · rintro ⟨declared, member, named⟩
    exact ⟨.string declared, member, named⟩

theorem validField_cases {field : Text × Json} (valid : validField field = true) :
    (∃ value, field = (ascii "requires_action", .bool value)) ∨
      (∃ value, field = (ascii "requires_observation", .bool value)) ∨
      (∃ items, field = (ascii "artifacts", .array items) ∧ items.all validPath = true) ∨
      ∃ items, field = (ascii "full_reads", .array items) ∧ items.all validPath = true := by
  rcases field with ⟨key, value⟩
  unfold validField at valid
  simp only at valid
  split at valid
  · rename_i flag
    cases value with
    | bool value => simpa [or_assoc] using flag
    | null | number | string | array | object => cases valid
  · split at valid
    · rename_i listed
      cases value with
      | array items =>
        have checked : items.all validPath = true := by grind
        rcases (by simpa using listed : key = ascii "artifacts" ∨ key = ascii "full_reads")
          with rfl | rfl
        · exact Or.inr (Or.inr (Or.inl ⟨items, rfl, checked⟩))
        · exact Or.inr (Or.inr (Or.inr ⟨items, rfl, checked⟩))
      | null | bool | number | string | object => cases valid
    · cases valid

theorem observation_ne_action : ascii "requires_observation" ≠ ascii "requires_action" := by
  decide

theorem fullReads_ne_artifacts : ascii "full_reads" ≠ ascii "artifacts" := by
  decide

theorem mergeField_spec {contract next : Contract} {field : Text × Json}
    (valid : validField field = true)
    (merged : mergeField workspace w contract baseline field = (some next, baseline'))
    (o : Obligation) : next.Owes o ↔ contract.Owes o ∨ DeclaredBy workspace w field o := by
  rcases validField_cases valid with ⟨value, rfl⟩ | ⟨value, rfl⟩ | ⟨items, rfl, checked⟩ |
    ⟨items, rfl, checked⟩
  · cases merged
    cases value <;> cases o <;>
      simp [Contract.Owes, DeclaredBy, observation_ne_action.symm]
  · cases merged
    cases value <;> cases o <;> simp [Contract.Owes, DeclaredBy, observation_ne_action]
  · simp only [mergeField, if_true, Json.items, Prod.mk.injEq, Option.map_eq_some_iff] at merged
    rcases merged with ⟨⟨paths, same, rfl⟩, rfl⟩
    have listed := mergePaths_spec (Prod.ext same rfl)
    cases o with
    | artifact path =>
      have spec := listed path
      rw [declared_iff checked] at spec
      simpa [Contract.Owes, DeclaredBy] using spec
    | fullRead path => simp [Contract.Owes, DeclaredBy, fullReads_ne_artifacts.symm]
    | action | observation => simp [Contract.Owes, DeclaredBy]
  · simp only [mergeField, if_neg fullReads_ne_artifacts, Json.items, Prod.mk.injEq,
      Option.map_eq_some_iff] at merged
    rcases merged with ⟨⟨paths, same, rfl⟩, rfl⟩
    have listed := mergePaths_spec (Prod.ext same rfl)
    cases o with
    | fullRead path =>
      have spec := listed path
      rw [declared_iff checked] at spec
      simpa [Contract.Owes, DeclaredBy] using spec
    | artifact path => simp [Contract.Owes, DeclaredBy, fullReads_ne_artifacts]
    | action | observation => simp [Contract.Owes, DeclaredBy]

theorem mergeFields_spec {members : List (Text × Json)} {contract next : Contract}
    (valid : members.all validField = true)
    (merged : mergeFields workspace w members contract baseline = (some next, baseline'))
    (o : Obligation) :
    next.Owes o ↔ contract.Owes o ∨ ∃ field ∈ members, DeclaredBy workspace w field o := by
  induction members generalizing contract baseline with
  | nil =>
    cases merged
    simp
  | cons field members ih =>
    rw [List.all_cons, Bool.and_eq_true] at valid
    unfold mergeFields at merged
    split at merged
    · cases merged
    · rename_i middle _ first
      rw [ih valid.2 merged, mergeField_spec valid.1 first]
      simp [or_assoc]

end Merge

theorem mergeAcceptance_accepted {t : Acceptance} {input : Json}
    (accepted : (mergeAcceptance workspace w t (some input)).invalid = false) (o : Obligation) :
    (mergeAcceptance workspace w t (some input)).Owes o ↔ t.Owes o ∨ Declares workspace w input o := by
  unfold mergeAcceptance at accepted ⊢
  cases valid : acceptanceValidate input with
  | false => simp [valid] at accepted
  | true =>
    cases input with
    | object members =>
      simp only [valid, Bool.not_true, Bool.false_eq_true, if_false] at accepted ⊢
      split at accepted
      · cases accepted
      · rename_i merged
        have spec := mergeFields_spec valid merged o
        simpa [Acceptance.Owes, Declares] using spec
    | null | bool | number | string | array => cases valid

theorem mergeAcceptance_rejected {t : Acceptance} {input : Json}
    (rejected : (mergeAcceptance workspace w t (some input)).invalid = true) :
    (mergeAcceptance workspace w t (some input)).contract = t.contract := by
  unfold mergeAcceptance at rejected ⊢
  cases valid : acceptanceValidate input with
  | false => simp [valid]
  | true =>
    simp only [valid, Bool.not_true, Bool.false_eq_true, if_false] at rejected ⊢
    split at rejected
    · rfl
    · cases rejected

/-! ### Runs -/

section Runs

variable {c : Config}

/-- The later contract keeps what the earlier one asks for, and adds only what was declared. -/
structure Grows (c : Config) (before after : Acceptance) : Prop where
  kept : ∀ o, before.Owes o → after.Owes o
  origin : ∀ o, after.Owes o → before.Owes o ∨ ∃ w input, Declares c.workspace w input o

namespace Grows

theorem of_contract {before after : Acceptance} (same : after.contract = before.contract) :
    Grows c before after := by
  constructor
  · intro o owed
    unfold Acceptance.Owes
    rwa [same]
  · intro o owed
    unfold Acceptance.Owes at owed
    rw [same] at owed
    exact Or.inl owed

theorem refl (t : Acceptance) : Grows c t t :=
  of_contract rfl

theorem trans {a b d : Acceptance} (first : Grows c a b) (second : Grows c b d) : Grows c a d := by
  constructor
  · intro o owed
    exact second.kept o (first.kept o owed)
  · intro o owed
    rcases second.origin o owed with owed | declared
    · exact first.origin o owed
    · exact Or.inr declared

theorem merge (w : World) (t : Acceptance) (input : Option Json) :
    Grows c t (mergeAcceptance c.workspace w t input) := by
  cases input with
  | none => exact refl t
  | some input =>
    cases outcome : (mergeAcceptance c.workspace w t (some input)).invalid with
    | true => exact of_contract (mergeAcceptance_rejected c.workspace w outcome)
    | false =>
      have spec := mergeAcceptance_accepted c.workspace w outcome
      constructor
      · intro o owed
        exact (spec o).mpr (Or.inl owed)
      · intro o owed
        exact ((spec o).mp owed).imp_right fun declares => ⟨w, input, declares⟩

end Grows

theorem acted_acceptance (r : Reasoning) (round : Round) :
    (acted c r round).acceptance = r.acceptance := by
  unfold acted
  generalize donesOf c (beginRound r) round.actions = dones
  have kept : ∀ (dones : List Done) (r : Reasoning),
      (dones.foldl (perform c) r).acceptance = r.acceptance := by
    intro dones
    induction dones with
    | nil => intro r; rfl
    | cons d dones ih =>
      intro r
      rw [List.foldl_cons, ih, perform_acceptance]
  exact kept dones (beginRound r)

theorem hAct_acceptance (r : Reasoning) (round : Round) :
    (hAct c r round).acceptance = r.acceptance := by
  unfold hAct
  split
  · exact acted_acceptance r round
  · exact acted_acceptance r round

theorem verifyCompletionFiles_grows (w : World) (equal : Text → Text → Bool) (r : Reasoning)
    (decision : Option Json) :
    Grows c r.acceptance (verifyCompletionFiles c w equal r decision).acceptance :=
  (Grows.merge w r.acceptance _).trans (Grows.of_contract rfl)

theorem hReason_grows (r : Reasoning) (d : Decision) :
    Grows c r.acceptance (hReason c r d).acceptance := by
  have first : Grows c r.acceptance (declareContract c r d).1.acceptance := by
    unfold declareContract
    split
    · exact Grows.merge d.world r.acceptance _
    · exact Grows.refl r.acceptance
  apply first.trans
  unfold hReason
  generalize declareContract c r d = decided
  rcases decided with ⟨r, planned⟩
  cases planned with
  | true =>
    cases d.completion with
    | none => exact Grows.refl r.acceptance
    | some completion =>
      have optional : (resolveOptionalMissingReads c d.world r completion).acceptance =
          r.acceptance := by
        unfold resolveOptionalMissingReads
        simp only
        split <;> rfl
      have verified := verifyCompletionFiles_grows (c := c) d.world d.equal
        (resolveOptionalMissingReads c d.world r completion) (some completion)
      rwa [optional] at verified
  | false =>
    have rejected : (noteRejected c r d).acceptance = r.acceptance := by
      unfold noteRejected
      split
      · rfl
      · simp only
        split <;> rfl
    show Grows c r.acceptance (noteRejected c r d).acceptance
    rw [rejected]
    exact Grows.refl r.acceptance

theorem step_grows {t u : Traced} {l : Label} (taken : loop c t l u) :
    Grows c t.now.acceptance u.now.acceptance := by
  obtain rfl : step c t l = u := taken
  cases l with
  | contract w input => exact Grows.merge w t.now.acceptance (some input)
  | reason d => exact hReason_grows t.now d
  | act round => exact Grows.of_contract (congrArg Acceptance.contract (hAct_acceptance t.now round))
  | fold => exact Grows.refl t.now.acceptance
  | steer => exact Grows.refl t.now.acceptance
  | close g =>
    show Grows c t.now.acceptance (gateVerified c t.now g).acceptance
    unfold gateVerified
    split
    · exact verifyCompletionFiles_grows g.world g.equal t.now none
    · exact Grows.refl t.now.acceptance

theorem run_grows {t u : Traced} {ls : List Label} (run : (loop c).Run t ls u) :
    Grows c t.now.acceptance u.now.acceptance := by
  induction run with
  | start => exact Grows.refl _
  | step _ taken grown => exact grown.trans (step_grows taken)

end Runs

/-! ### Completion -/

def Satisfied (w : World) (r : Reasoning) : Obligation → Prop
  | .action => r.runMutated = true
  | .observation => 0 < r.runSuccessfulTools
  | .artifact path =>
    (runHasVerifiedArtifact w r.registry r.produced r.acceptance.baseline path).1 = true
  | .fullRead path => r.reads.overflow = false ∧ fullReadVerified w r.reads path = true

section Completion

variable {c : Config} {w : World}

variable {path : Text}

theorem artifactBaselineOf_eq {baseline : Baseline}
    (changed : (artifactBaselineOf w baseline path).1 ≠ w.fsFileVersion path) :
    (artifactBaselineOf w baseline path).2 = baseline := by
  unfold artifactBaselineOf at changed ⊢
  split
  · rfl
  · split
    · rfl
    · simp_all

variable {seen : List ArtifactSeen}

theorem produced_baseline {baseline baseline' : Baseline} {read : RunStep}
    (there : stillThere w path read.evidenceVersion = true)
    (accepted : runHasVerifiedArtifact.produced w seen baseline path read = (true, baseline')) :
    baseline' = baseline := by
  have current : read.evidenceVersion = w.fsFileVersion path := by
    simp only [stillThere, Bool.and_eq_true, decide_eq_true_eq] at there
    exact there.1.1.2
  simp only [runHasVerifiedArtifact.produced, Prod.mk.injEq, Bool.and_eq_true,
    decide_eq_true_eq] at accepted
  rcases accepted with ⟨⟨changed, -⟩, rfl⟩
  exact artifactBaselineOf_eq (current ▸ changed)

theorem runHasVerifiedArtifact_baseline {g : Registry} {baseline baseline' : Baseline}
    (accepted : runHasVerifiedArtifact w g seen baseline path = (true, baseline')) : baseline' = baseline := by
  unfold runHasVerifiedArtifact at accepted
  split at accepted
  · exact (Prod.ext_iff.mp accepted).2.symm
  · split at accepted
    · cases accepted
    · rename_i read _ _
      split at accepted
      · cases accepted
      · rename_i there
        have still : stillThere w path read.evidenceVersion = true := by simpa using there
        split at accepted
        · split at accepted
          · exact (Prod.ext_iff.mp accepted).2.symm
          · exact produced_baseline still accepted
        · exact produced_baseline still accepted

theorem artifactsVerified_spec {g : Registry} {paths : List Text} {baseline baseline' : Baseline}
    (accepted : artifactsVerified w g seen paths baseline = (true, baseline')) :
    ∀ path ∈ paths, (runHasVerifiedArtifact w g seen baseline path).1 = true := by
  induction paths with
  | nil => simp
  | cons path paths ih =>
    unfold artifactsVerified at accepted
    split at accepted
    · cases accepted
    · rename_i first
      obtain rfl := runHasVerifiedArtifact_baseline first
      intro other member
      rcases List.mem_cons.mp member with rfl | later
      · rw [first]
      · exact ih accepted other later

variable {r : Reasoning}

theorem contractChecked_spec (accepted : (contractChecked w r).1 = true) {o : Obligation} (owed : r.acceptance.Owes o) :
    Satisfied w r o := by
  unfold contractChecked at accepted
  unfold Acceptance.Owes at owed
  cases agreed : r.acceptance.contract with
  | none =>
    rw [agreed] at owed
    cases o <;> simp [Contract.Owes] at owed
  | some contract =>
    simp only [agreed, Option.getD_some] at accepted owed
    split at accepted
    · cases accepted
    · split at accepted
      · cases accepted
      · rename_i acting observing
        split at accepted
        · cases accepted
        · rename_i verified
          cases o with
          | action => simpa [Satisfied, show contract.requiresAction = true from owed] using acting
          | observation =>
            have counted : ¬ r.runSuccessfulTools = 0 := by
              simpa [show contract.requiresObservation = true from owed] using observing
            exact Nat.pos_of_ne_zero counted
          | artifact path => exact artifactsVerified_spec verified path owed
          | fullRead path =>
            have read := List.all_eq_true.mp accepted path owed
            simpa [Satisfied] using read

theorem verifyCompletionFiles_passed {equal : Text → Text → Bool}
    (passed : (verifyCompletionFiles c w equal r none).fileChecks.failed = false) :
    r.acceptance.invalid = false ∧ (contractChecked w r).1 = true := by
  have checked : (filesChecked w equal r).1 = true := by
    simpa [verifyCompletionFiles, declared_none] using passed
  unfold filesChecked at checked
  simp only at checked
  split at checked
  · cases checked
  · rename_i failed
    simp only [Bool.or_eq_true, not_or, Bool.not_eq_true] at failed
    exact ⟨failed.2, checked⟩

theorem completes_spec {g : Closing} (completed : completes c r g = true) :
    r.acceptance.invalid = false ∧ ∀ o, r.acceptance.Owes o → Satisfied g.world r o := by
  rw [completes_iff] at completed
  rcases completed with ⟨uncancelled, intime, -, -, -, passed, valid, -⟩
  unfold gateVerified at passed valid
  rw [uncancelled, intime] at passed valid
  split at passed
  · have checked := verifyCompletionFiles_passed passed
    exact ⟨checked.1, fun o owed => contractChecked_spec checked.2 owed⟩
  · rename_i unchecked
    simp only [Bool.not_false, Bool.true_and, Bool.or_eq_true, not_or, Bool.not_eq_true,
      Option.isSome_eq_false_iff, Option.isNone_iff_eq_none] at unchecked
    refine ⟨unchecked.2, ?_⟩
    intro o owed
    unfold Acceptance.Owes at owed
    rw [unchecked.1.2] at owed
    cases o <;> simp [Contract.Owes] at owed

end Completion

/-! ### The contract of a run -/

/-- In every run a declaration is taken over whole or not at all, what is owed stays owed
and was declared, the paths of a kind are at most 64 and distinct, and at a completion
everything owed is done. -/
theorem contract_kept (c : Config) {ls : List Label} {t : Traced} (run : (loop c).Run {} ls t) :
    (∀ w input o, (mergeAcceptance c.workspace w t.now.acceptance (some input)).invalid = false →
      ((mergeAcceptance c.workspace w t.now.acceptance (some input)).Owes o ↔
        t.now.acceptance.Owes o ∨ Declares c.workspace w input o)) ∧
    (∀ w input, (mergeAcceptance c.workspace w t.now.acceptance (some input)).invalid = true →
      (mergeAcceptance c.workspace w t.now.acceptance (some input)).contract =
        t.now.acceptance.contract) ∧
    (∀ rest u, (loop c).Run t rest u → ∀ o, t.now.acceptance.Owes o → u.now.acceptance.Owes o) ∧
    (∀ o, t.now.acceptance.Owes o → ∃ w input, Declares c.workspace w input o) ∧
    (∀ contract, t.now.acceptance.contract = some contract →
      contract.artifacts.list.Nodup ∧ contract.artifacts.list.length ≤ 64 ∧
        contract.fullReads.list.Nodup ∧ contract.fullReads.list.length ≤ 64) ∧
    ∀ g, completes c t.now g = true →
      t.now.acceptance.invalid = false ∧
        ∀ o, t.now.acceptance.Owes o → Satisfied g.world t.now o := by
  refine ⟨?_, ?_, ?_, ?_, ?_, ?_⟩
  · intro w input o accepted
    exact mergeAcceptance_accepted c.workspace w accepted o
  · intro w input rejected
    exact mergeAcceptance_rejected c.workspace w rejected
  · intro rest u later o owed
    exact (run_grows later).kept o owed
  · intro o owed
    rcases (run_grows run).origin o owed with fresh | declared
    · cases o <;> simp [Acceptance.Owes, Contract.Owes] at fresh
    · exact declared
  · intro contract _
    exact ⟨contract.artifacts.nodup, contract.artifacts.bounded, contract.fullReads.nodup,
      contract.fullReads.bounded⟩
  · intro g completed
    exact completes_spec completed

/-- A run under the contract of its task: the second declaration takes nothing back. -/
theorem contract_kept_empty :
    let c : Config := { workspace := ascii "/w", useTransaction := false, number := printInteger }
    ∃ t, (loop c).Run {} [.contract {} (.object [(ascii "requires_action", .bool true)]),
        .contract {} (.object [(ascii "requires_action", .bool false)])] t ∧
      ∀ g, completes c t.now g = true → t.now.runMutated = true := by
  intro c
  have run : (loop c).Run {} [.contract {} (.object [(ascii "requires_action", .bool true)]),
      .contract {} (.object [(ascii "requires_action", .bool false)])] _ :=
    Machine.Run.cons rfl (Machine.Run.single rfl)
  refine ⟨_, run, ?_⟩
  intro g completed
  exact ((contract_kept c run).2.2.2.2.2 g completed).2 .action rfl

end CognitiveOs.Cognition
