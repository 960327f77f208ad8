import CognitiveOs.Memory.Gate.Uniqueness

/-!
# Where a record's text comes from

Runs of the gate that remember the candidate behind the text of each record.
-/

namespace CognitiveOs.Memory.Gate

open Foundation Infra Security

/-- The memory, and the candidate that last gave a record its text. -/
structure Traced where
  memory : Longterm
  author : Text → Option Candidate

def authorAfter (t : Traced) (call : Apply) : Text → Option Candidate :=
  match decision t.memory.store call.cfg call.candidate with
  | .reject => t.author
  | .merge orig => Function.update t.author orig.id (some call.candidate)
  | .promote => Function.update t.author (candidateId call.candidate) (some call.candidate)

def tracedStep (t : Traced) (call : Apply) : Traced where
  memory := memGateApply t.memory call.env call.cfg call.candidate
  author := authorAfter t call

/-- The gate under configurations that keep a text without evidence below the bar for promotion. -/
def tracedGate : Machine Traced Apply :=
  (Machine.ofFun tracedStep).restrict fun _ call => call.cfg.noEvidenceCap < call.cfg.promoteThreshold

def Status.established (s : Status) : Prop :=
  s = .trusted ∨ s = .verified

instance (s : Status) : Decidable s.established :=
  inferInstanceAs (Decidable (s = .trusted ∨ s = .verified))

/-- A candidate without evidence that passes the bar for merges finds no trusted or verified
record of its origin. -/
def Unopposed (t : Traced) (call : Apply) : Prop :=
  call.candidate.evidence = [] → call.candidate.content ≠ [] →
    call.cfg.mergeThreshold ≤ memGateScore call.candidate call.cfg →
    ∀ r, origin t.memory.store call.candidate = some r → ¬ r.status.established

def Authored (t : Traced) : Prop :=
  ∀ r ∈ t.memory.store.items, ∃ c ps, t.author r.id = some c ∧ r.content = secretRedactSshPasswords ps c.content

def Evidenced (t : Traced) : Prop :=
  ∀ r ∈ t.memory.store.items, r.status.established → ∃ c, t.author r.id = some c ∧ c.evidence ≠ []

/-! ### What one call keeps -/

theorem forall_tracedStep {t : Traced} {call : Apply} {holds : Record → Option Candidate → Prop}
    (kept : ∀ r ∈ t.memory.store.items, holds r (t.author r.id))
    (new : ∀ r, (∃ orig, decision t.memory.store call.cfg call.candidate = .merge orig ∧
        r = merged call.cfg orig call.candidate call.env.now) ∨ r = promoted call.candidate call.env.now →
      holds { r with content := secretRedactSshPasswords call.env.passwords r.content } (some call.candidate)) :
    ∀ r ∈ (tracedStep t call).memory.store.items, holds r ((tracedStep t call).author r.id) := by
  unfold tracedStep authorAfter
  simp only [store_memGateApply]
  cases made : decision t.memory.store call.cfg call.candidate with
  | reject => exact kept
  | merge orig => exact forall_put kept (new _ (.inl ⟨orig, made, rfl⟩))
  | promote => exact forall_put kept (new _ (.inr rfl))

theorem authored_step {t : Traced} (authored : Authored t) (call : Apply) : Authored (tracedStep t call) := by
  refine @forall_tracedStep t call
    (fun r a => ∃ c ps, a = some c ∧ r.content = secretRedactSshPasswords ps c.content) authored ?_
  rintro r (⟨orig, _, rfl⟩ | rfl)
  · exact ⟨call.candidate, call.env.passwords, rfl, rfl⟩
  · exact ⟨call.candidate, call.env.passwords, rfl, rfl⟩

theorem maturedStatus_unevidenced {s : Status} {c : Candidate} (bare : c.evidence = []) : maturedStatus s c = s :=
  if_pos bare

theorem evidenced_step {t : Traced} (evidenced : Evidenced t) {call : Apply} (unopposed : Unopposed t call) :
    Evidenced (tracedStep t call) := by
  refine @forall_tracedStep t call (fun r a => r.status.established → ∃ c, a = some c ∧ c.evidence ≠ []) evidenced ?_
  rintro r (⟨orig, merge, rfl⟩ | rfl) grown
  · obtain ⟨full, past, found, _⟩ := merge_cases merge
    refine ⟨call.candidate, rfl, ?_⟩
    intro bare
    have grown : (maturedStatus orig.status call.candidate).established := grown
    rw [maturedStatus_unevidenced bare] at grown
    exact unopposed bare full past orig found grown
  · -- a promotion enters as provisional
    rcases grown with grown | grown
    · cases grown
    · cases grown

/-! ### Runs -/

def untold (vs : Vectors) : Traced :=
  { memory := { store := noRecords, vectors := vs }, author := fun _ => none }

def hearsay (content : String) : Apply :=
  { retold content with candidate := { (retold content).candidate with evidence := [] } }

end CognitiveOs.Memory.Gate
