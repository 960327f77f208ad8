import CognitiveOs.Memory.Gate.Uniqueness
import Mathlib.Data.List.Induction

/-!
# How a record matures

Runs of the gate that remember the merges into each record since its promotion. A merge whose
file cannot be written is one: the record in memory has changed.
-/

namespace CognitiveOs.Memory.Gate

open Foundation Infra Security

/-- The memory, and the candidates that were merged into the record of an identifier since it was
promoted, the oldest first. -/
structure Chronicle where
  memory : Longterm
  merges : Text → List Candidate

def mergesAfter (k : Chronicle) (call : Apply) : Text → List Candidate :=
  match decision k.memory.store call.cfg call.candidate with
  | .reject => k.merges
  | .merge orig => Function.update k.merges orig.id (k.merges orig.id ++ [call.candidate])
  | .promote => Function.update k.merges (candidateId call.candidate) []

def chronicleStep (k : Chronicle) (call : Apply) : Chronicle where
  memory := memGateApply k.memory call.env call.cfg call.candidate
  merges := mergesAfter k call

def chronicle : Machine Chronicle Apply :=
  .ofFun chronicleStep

def statusAfter (merges : List Candidate) : Status :=
  merges.foldl maturedStatus .provisional

theorem statusAfter_snoc (merges : List Candidate) (c : Candidate) :
    statusAfter (merges ++ [c]) = maturedStatus (statusAfter merges) c := by
  simp [statusAfter]

inductive Status.Next : Status → Status → Prop where
  | trusted : Next .provisional .trusted
  | verified : Next .trusted .verified

theorem maturedStatus_cases (s : Status) (c : Candidate) :
    maturedStatus s c = s ∨ c.evidence ≠ [] ∧ s.Next (maturedStatus s c) ∧
      (s = .trusted → c.outcome = .success ∨ c.outcome = .failure) := by
  by_cases bare : c.evidence = []
  · exact .inl (if_pos bare)
  · simp only [maturedStatus, bare, if_false]
    cases s with
    | provisional => exact .inr ⟨bare, .trusted, by simp⟩
    | trusted =>
      cases outcome : c.outcome with
      | success | failure => exact .inr ⟨bare, .verified, by simp⟩
      | unknown | partialSuccess => exact .inl rfl
    | verified | deprecated | contradicted | archived => exact .inl rfl

/-! ### What the merges make of a status -/

variable {merges : List Candidate}

/-- The merge after `before` verifies the record. -/
structure Verifies (before : List Candidate) (c : Candidate) : Prop where
  from_trusted : statusAfter before = .trusted
  verified : statusAfter (before ++ [c]) = .verified
  evidence : c.evidence ≠ []
  outcome : c.outcome = .success ∨ c.outcome = .failure
  /-- An earlier merge had evidence, too. -/
  earlier : ∃ d ∈ before, d.evidence ≠ []

theorem statusAfter_live (merges : List Candidate) :
    statusAfter merges = .provisional ∨ statusAfter merges = .trusted ∨ statusAfter merges = .verified := by
  induction merges using List.reverseRecOn with
  | nil => exact .inl rfl
  | append_singleton before c ih =>
    rw [statusAfter_snoc]
    rcases maturedStatus_cases (statusAfter before) c with same | ⟨-, forward, -⟩
    · rwa [same]
    · generalize maturedStatus (statusAfter before) c = next at forward
      generalize statusAfter before = previous at forward
      cases forward <;> simp

theorem evidence_of_trusted (trusted : statusAfter merges = .trusted) : ∃ d ∈ merges, d.evidence ≠ [] := by
  induction merges using List.reverseRecOn with
  | nil => cases trusted
  | append_singleton before c ih =>
    rw [statusAfter_snoc] at trusted
    rcases maturedStatus_cases (statusAfter before) c with same | ⟨evidence, -, -⟩
    · obtain ⟨d, member, evidence⟩ := ih (same.symm.trans trusted)
      exact ⟨d, List.mem_append_left _ member, evidence⟩
    · exact ⟨c, by simp, evidence⟩

theorem verifies_of_verified (verified : statusAfter merges = .verified) :
    ∃ before c after, merges = before ++ c :: after ∧ Verifies before c := by
  induction merges using List.reverseRecOn with
  | nil => cases verified
  | append_singleton before c ih =>
    have whole := verified
    rw [statusAfter_snoc] at verified
    rcases maturedStatus_cases (statusAfter before) c with same | ⟨evidence, forward, strong⟩
    · obtain ⟨earlier, d, after, rfl, verifies⟩ := ih (same.symm.trans verified)
      exact ⟨earlier, d, after ++ [c], by simp, verifies⟩
    · rw [verified] at forward
      have trusted : statusAfter before = .trusted := by
        generalize statusAfter before = previous at forward
        cases forward
        rfl
      exact ⟨before, c, [], rfl, trusted, whole, evidence, strong trusted, evidence_of_trusted trusted⟩

/-! ### The invariant -/

structure Grown (r : Record) (merges : List Candidate) : Prop where
  version : r.version = 1 + merges.length
  status : r.status = statusAfter merges
  confidence : 0 ≤ r.confidence ∧ r.confidence ≤ 1
  utility : 0 ≤ r.utility ∧ r.utility ≤ 1

theorem clamp01_bounds (x : ℚ) : 0 ≤ clamp01 x ∧ clamp01 x ≤ 1 := by
  unfold clamp01
  split
  · exact ⟨le_refl _, zero_le_one⟩
  · rename_i low
    split
    · exact ⟨zero_le_one, le_refl _⟩
    · rename_i high
      exact ⟨not_lt.mp low, not_lt.mp high⟩

theorem grown_promoted (c : Candidate) (now : Int) : Grown (promoted c now) [] where
  version := rfl
  status := rfl
  confidence := clamp01_bounds _
  utility := ⟨le_refl _, zero_le_one⟩

theorem Grown.merged {orig : Record} (grown : Grown orig merges) (cfg : Config) (c : Candidate) (now : Int) :
    Grown (merged cfg orig c now) (merges ++ [c]) where
  version := by
    have before := grown.version
    simp only [Gate.merged, List.length_append, List.length_singleton]
    omega
  status := by
    rw [statusAfter_snoc, ← grown.status]
    rfl
  confidence := clamp01_bounds _
  utility := clamp01_bounds _

theorem Grown.redacted {r : Record} (grown : Grown r merges) (content : Text) : Grown { r with content } merges :=
  { grown with }

def AllGrown (k : Chronicle) : Prop :=
  ∀ r ∈ k.memory.store.items, Grown r (k.merges r.id)

theorem AllGrown.step {k : Chronicle} (grown : AllGrown k) (call : Apply) : AllGrown (chronicleStep k call) := by
  unfold AllGrown
  simp only [chronicleStep, mergesAfter, store_memGateApply]
  cases made : decision k.memory.store call.cfg call.candidate with
  | reject => exact grown
  | merge orig =>
    have before := grown orig (mem_of_origin (merge_cases made).2.2.1)
    exact forall_put grown ((before.merged call.cfg call.candidate call.env.now).redacted _)
  | promote => exact forall_put grown ((grown_promoted call.candidate call.env.now).redacted _)

/-- What a call does to the records: one stays as it is, or takes a candidate in and its status
stays or takes one step forward on evidence, or it begins with a promotion. -/
def Forward (k : Chronicle) (call : Apply) (r' : Record) : Prop :=
  (r' ∈ k.memory.store.items ∧ (chronicleStep k call).merges r'.id = k.merges r'.id) ∨
    (∃ r ∈ k.memory.store.items, r.id = r'.id ∧
      (chronicleStep k call).merges r'.id = k.merges r.id ++ [call.candidate] ∧ r'.version = r.version + 1 ∧
      (r'.status = r.status ∨ call.candidate.evidence ≠ [] ∧ r.status.Next r'.status)) ∨
    (decision k.memory.store call.cfg call.candidate = .promote ∧ r'.id = candidateId call.candidate ∧
      (chronicleStep k call).merges r'.id = [] ∧ r'.version = 1 ∧ r'.status = .provisional)

theorem forward_step (k : Chronicle) (call : Apply) :
    ∀ r' ∈ (chronicleStep k call).memory.store.items, Forward k call r' := by
  intro r' member
  unfold Forward
  cases made : decision k.memory.store call.cfg call.candidate with
  | reject =>
    simp only [chronicleStep, store_memGateApply, made] at member
    exact .inl ⟨member, by simp [chronicleStep, mergesAfter, made]⟩
  | merge orig =>
    have before := mem_of_origin (merge_cases made).2.2.1
    simp only [chronicleStep, store_memGateApply, made] at member
    rcases mem_put.mp member with rfl | ⟨kept, away⟩
    · refine .inr (.inl ⟨orig, before, rfl, ?_, rfl, ?_⟩)
      · simp [chronicleStep, mergesAfter, made, merged]
      · rcases maturedStatus_cases orig.status call.candidate with same | ⟨evidence, forward, -⟩
        · exact .inl same
        · exact .inr ⟨evidence, forward⟩
    · have away : r'.id ≠ orig.id := away
      exact .inl ⟨kept, by simp [chronicleStep, mergesAfter, made, Function.update_of_ne away]⟩
  | promote =>
    simp only [chronicleStep, store_memGateApply, made] at member
    rcases mem_put.mp member with rfl | ⟨kept, away⟩
    · exact .inr (.inr ⟨rfl, rfl, by simp [chronicleStep, mergesAfter, made, promoted], rfl, rfl⟩)
    · have away : r'.id ≠ candidateId call.candidate := away
      exact .inl ⟨kept, by simp [chronicleStep, mergesAfter, made, Function.update_of_ne away]⟩

/-! ### Runs -/

def unmerged (vs : Vectors) : Chronicle :=
  { memory := { store := noRecords, vectors := vs }, merges := fun _ => [] }

/-- In every run of the gate from an empty store, the version of a record counts its merges, its
scores are in the unit interval, and its status is provisional, trusted or verified, the last by a
merge with evidence of a success or failure, after an earlier one with evidence. Each further call
leaves a record, moves it forward, or begins it. -/
theorem matured_of_run {vs : Vectors} {calls : List Apply} {k : Chronicle}
    (run : chronicle.Run (unmerged vs) calls k) :
    (∀ r ∈ k.memory.store.items,
      r.version = 1 + (k.merges r.id).length ∧ (0 ≤ r.confidence ∧ r.confidence ≤ 1) ∧
        (0 ≤ r.utility ∧ r.utility ≤ 1) ∧ (r.status = .provisional ∨ r.status = .trusted ∨ r.status = .verified) ∧
        r.status = statusAfter (k.merges r.id) ∧
        (r.status = .verified → ∃ before c after, k.merges r.id = before ++ c :: after ∧ Verifies before c)) ∧
      ∀ call, ∀ r' ∈ (chronicleStep k call).memory.store.items, Forward k call r' := by
  have all : AllGrown k := by
    refine @Machine.Run.invariant _ _ _ AllGrown ?_ _ _ _ run ?_
    · rintro k call _ grown rfl
      exact grown.step call
    · intro r member
      cases member
  refine ⟨fun r member => ?_, forward_step k⟩
  have grown := all r member
  refine ⟨grown.version, grown.confidence, grown.utility, ?_, grown.status, fun verified => ?_⟩
  · rw [grown.status]
    exact statusAfter_live _
  · exact verifies_of_verified (grown.status.symm.trans verified)

/-- A text and two repetitions of it. -/
theorem matured_of_retold :
    ∃ k : Chronicle, chronicle.Run (unmerged noVectors) [retold "a", retold "b", retold "c"] k ∧
      k.memory.store.items.map (fun r => (r.status, r.version)) = [(.verified, 3)] ∧
      ∀ r ∈ k.memory.store.items, r.version = 1 + (k.merges r.id).length :=
  have run := Machine.run_ofFun_iff.mpr rfl
  ⟨_, run, by decide +kernel, fun r member => ((matured_of_run run).1 r member).1⟩

end CognitiveOs.Memory.Gate
