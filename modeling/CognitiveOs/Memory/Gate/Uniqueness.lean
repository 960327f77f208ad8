import CognitiveOs.Memory.Gate.Model

/-!
# One live record for an origin

Calls of the gate between puts that retire records. A search for an origin stops at the first
record of it, live or not.
-/

namespace CognitiveOs.Memory.Gate

open Foundation Foundation.Upsert Infra Security

variable {s : Store} {r : Record}

theorem mem_put {ps : Passwords} {r' : Record} :
    r' ∈ (s.put ps r).items ↔
      r' = { r with content := secretRedactSshPasswords ps r.content } ∨ r' ∈ s.items ∧ r'.id ≠ r.id :=
  mem_upsert s.distinct

theorem forall_put {α : Type*} {notes : Text → α} {ps : Passwords} {note : α} {holds : Record → α → Prop}
    (kept : ∀ r ∈ s.items, holds r (notes r.id))
    (new : holds { r with content := secretRedactSshPasswords ps r.content } note) :
    ∀ r' ∈ (s.put ps r).items, holds r' (Function.update notes r.id note r'.id) := by
  intro r' member
  rcases mem_put.mp member with rfl | ⟨member, away⟩
  · rw [show ({ r with content := secretRedactSshPasswords ps r.content } : Record).id = r.id from rfl,
      Function.update_self]
    exact new
  · rw [Function.update_of_ne away]
    exact kept r' member

theorem store_memGateApply (m : Longterm) (env : Env) (cfg : Config) (c : Candidate) :
    (memGateApply m env cfg c).store =
      match decision m.store cfg c with
      | .reject => m.store
      | .merge orig => m.store.put env.passwords (merged cfg orig c env.now)
      | .promote => m.store.put env.passwords (promoted c env.now) := by
  unfold memGateApply
  cases decision m.store cfg c with
  | reject => rfl
  | merge orig => cases env.persisted <;> simp
  | promote => cases env.persisted <;> simp

/-! ### What a decision says -/

variable {c : Candidate}

theorem mem_of_find {id : Text} (found : s.find id = some r) : r ∈ s.items ∧ r.id = id := by
  refine ⟨List.mem_of_find?_eq_some found, ?_⟩
  simpa using List.find?_some found

theorem mem_of_findOrigin {o : Text} (found : s.findOrigin o = some r) : r ∈ s.items ∧ r.originId = o := by
  refine ⟨List.mem_of_find?_eq_some found, ?_⟩
  simpa using List.find?_some found

theorem mem_of_origin (found : origin s c = some r) : r ∈ s.items := by
  unfold origin at found
  split at found
  · exact (mem_of_find found).1
  · exact (mem_of_findOrigin found).1

theorem merge_cases {cfg : Config} {orig : Record} (merge : decision s cfg c = .merge orig) :
    c.content ≠ [] ∧ cfg.mergeThreshold ≤ memGateScore c cfg ∧ origin s c = some orig ∧ statusLive orig.status := by
  unfold decision at merge
  split at merge
  · cases merge
  · rename_i past
    rw [not_or, not_lt] at past
    split at merge
    · rename_i found
      cases merge
      obtain ⟨found, live⟩ := Option.filter_eq_some_iff.mp found
      exact ⟨past.1, past.2, found, live⟩
    · split at merge
      · cases merge
      · cases merge

theorem promote_cases {cfg : Config} (promote : decision s cfg c = .promote) :
    ∀ r, origin s c = some r → statusLive r.status = false := by
  unfold decision at promote
  split at promote
  · cases promote
  · split at promote
    · cases promote
    · rename_i absent
      intro r found
      rw [found, Option.filter_eq_none_iff] at absent
      exact Bool.eq_false_iff.mpr (absent r rfl)

/-! ### Runs -/

inductive Use where
  | gate (call : Apply)
  | put (passwords : Passwords) (r : Record)

def useStep (m : Longterm) : Use → Longterm
  | .gate call => memGateApply m call.env call.cfg call.candidate
  | .put passwords r => if r.id = [] then m else { m with store := m.store.put passwords r }

def Retires (_ : Longterm) : Use → Prop
  | .gate _ => True
  | .put _ r => statusLive r.status = false

def memory : Machine Longterm Use :=
  (Machine.ofFun useStep).restrict Retires

def Foremost (s : Store) (o : Text) : Prop :=
  ∀ first, s.findOrigin o = some first → statusLive first.status = false →
    ∀ r ∈ s.items, r.originId = o → statusLive r.status = false

def Clear (m : Longterm) : Use → Prop
  | .gate call => call.candidate.originId ≠ [] → Foremost m.store call.candidate.originId
  | .put _ _ => True

def Unique (s : Store) : Prop :=
  ∀ r ∈ s.items, ∀ r' ∈ s.items, r.originId ≠ [] → r.originId = r'.originId → statusLive r.status →
    statusLive r'.status → r = r'

theorem unique_put (unique : Unique s) (ps : Passwords) (alone : statusLive r.status → r.originId ≠ [] →
      ∀ r' ∈ s.items, r'.originId = r.originId → statusLive r'.status → r'.id = r.id) : Unique (s.put ps r) := by
  intro r₁ member₁ r₂ member₂ named same live₁ live₂
  rcases mem_put.mp member₁ with rfl | ⟨member₁, away₁⟩
  · rcases mem_put.mp member₂ with rfl | ⟨member₂, away₂⟩
    · rfl
    · exact absurd (alone live₁ named r₂ member₂ same.symm live₂) away₂
  · rcases mem_put.mp member₂ with rfl | ⟨member₂, away₂⟩
    · have named : r.originId ≠ [] := fun none => named (same.trans none)
      exact absurd (alone live₂ named r₁ member₁ same live₁) away₁
    · exact unique r₁ member₁ r₂ member₂ named same live₁ live₂

theorem unique_step {m next : Longterm} {use : Use} (unique : Unique m.store)
    (taken : (memory.restrict Clear) m use next) : Unique next.store := by
  obtain ⟨clear, retires, rfl⟩ := taken
  cases use with
  | put passwords r =>
    simp only [useStep]
    split
    · exact unique
    · refine unique_put unique passwords ?_
      intro live
      exact absurd live (Bool.eq_false_iff.mp retires)
  | gate call =>
    change Unique (memGateApply m call.env call.cfg call.candidate).store
    rw [store_memGateApply]
    split
    · exact unique
    · rename_i orig merge
      obtain ⟨_, _, found, live⟩ := merge_cases merge
      refine unique_put unique _ ?_
      intro _ named r' member same live'
      -- the record that is replaced is the one live record of its origin
      rw [unique r' member orig (mem_of_origin found) (same ▸ named) same live' live]
      rfl
    · rename_i promote
      refine unique_put unique _ ?_
      intro _ named r' member same live'
      have search : origin m.store call.candidate = m.store.findOrigin call.candidate.originId := if_neg named
      cases found : m.store.findOrigin call.candidate.originId with
      | none =>
        have other := List.find?_eq_none.mp found r' member
        exact absurd (decide_eq_true same) other
      | some first =>
        have dead := promote_cases promote first (search.trans found)
        have dead' := clear named first found dead r' member same
        exact absurd live' (Bool.eq_false_iff.mp dead')

/-- In every run from an empty store in which no candidate meets a dead record of its origin in
front of a live one, an origin has at most one live record, and a candidate whose origin has one
is merged into it unless it stays below the bar for merges. -/
theorem unique_of_run {vs : Vectors} {uses : List Use} {m : Longterm}
    (run : (memory.restrict Clear).Run { store := noRecords, vectors := vs } uses m) :
    Unique m.store ∧
      ∀ call, Clear m (.gate call) → call.candidate.originId ≠ [] →
        ∀ r ∈ m.store.items, r.originId = call.candidate.originId → statusLive r.status →
          decision m.store call.cfg call.candidate =
            if call.candidate.content = [] ∨ memGateScore call.candidate call.cfg < call.cfg.mergeThreshold then .reject
            else .merge r := by
  have unique : Unique m.store := by
    refine @Machine.Run.invariant _ _ _ (fun m => Unique m.store) ?_ _ _ _ run ?_
    · intro s use next unique taken
      exact unique_step unique taken
    · intro r member
      cases member
  refine ⟨unique, ?_⟩
  intro call clear named r member same live
  unfold decision origin
  rw [if_neg named]
  cases found : m.store.findOrigin call.candidate.originId with
  | none =>
    have other := List.find?_eq_none.mp found r member
    exact absurd (decide_eq_true same) other
  | some first =>
    obtain ⟨here, same'⟩ := mem_of_findOrigin found
    have front : statusLive first.status := by
      by_contra dead
      have dead' := clear named first found (Bool.eq_false_iff.mpr dead) r member same
      exact Bool.eq_false_iff.mp dead' live
    rw [unique first here r member (same' ▸ named) (same'.trans same.symm) front live]
    simp [Option.filter, live]

/-! ### A third text after a retirement -/

def retold (content : String) : Apply :=
  { lesson content with env := { passwords := [], now := 1, persisted := true } }

def emptied : Longterm :=
  { store := noRecords, vectors := noVectors }

def retired (content : String) : Record :=
  { promoted (retold content).candidate 1 with status := .archived }

theorem unique_of_retold :
    Unique (useStep emptied (.gate (retold "a"))).store ∧
      ∀ call, Clear (useStep emptied (.gate (retold "a"))) (.gate call) → call.candidate.originId ≠ [] →
        ∀ r ∈ (useStep emptied (.gate (retold "a"))).store.items, r.originId = call.candidate.originId →
          statusLive r.status →
          decision (useStep emptied (.gate (retold "a"))).store call.cfg call.candidate =
            if call.candidate.content = [] ∨ memGateScore call.candidate call.cfg < call.cfg.mergeThreshold then .reject
            else .merge r := by
  refine @unique_of_run noVectors [.gate (retold "a")] _ ?_
  refine Machine.Run.single ⟨?_, trivial, rfl⟩
  intro _ first found
  cases found

/-- After a first record is archived, two more texts of its origin make two live records of it. -/
theorem retold_twice : ∃ (uses : List Use) (m : Longterm),
    memory.Run emptied uses m ∧ ¬ Unique m.store ∧
      ∃ (call : Apply) (r : Record), call.candidate.originId ≠ [] ∧ r ∈ m.store.items ∧
        r.originId = call.candidate.originId ∧ statusLive r.status ∧
        decision m.store call.cfg call.candidate = .promote := by
  refine ⟨[.gate (retold "a"), .put [] (retired "a"), .gate (retold "b"), .gate (retold "c")],
    useStep (useStep (useStep (useStep emptied (.gate (retold "a"))) (.put [] (retired "a"))) (.gate (retold "b")))
      (.gate (retold "c")), ?_, ?_, retold "d", promoted (retold "b").candidate 1, ?_⟩
  · refine Machine.Run.cons ⟨trivial, rfl⟩ (Machine.Run.cons ⟨rfl, rfl⟩ ?_)
    exact Machine.Run.cons ⟨trivial, rfl⟩ (Machine.Run.single ⟨trivial, rfl⟩)
  · intro unique
    have same := unique (promoted (retold "b").candidate 1) (by decide +kernel) (promoted (retold "c").candidate 1)
      (by decide +kernel) (by decide +kernel) (by decide +kernel) (by decide +kernel) (by decide +kernel)
    revert same
    decide +kernel
  · decide +kernel

end CognitiveOs.Memory.Gate
