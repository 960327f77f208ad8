import CognitiveOs.Memory.Episodes
import Mathlib.Data.List.Dedup

/-!
# When the memory is consolidated

`memory_maybe_consolidate` of `memory/memory.c`. New episodes are told from the difference of two
counts of a store that also loses episodes; a history of the runs tells what came and what went.
-/

namespace CognitiveOs.Memory.Consolidation

open Foundation Infra Episodes

/-- What `struct memory` has for the passes. -/
structure State where
  memory : Episodes.State
  consolidatedAt : Nat
  lastConsolMs : Int
  consolCount : Nat
  halfLife : Int
  minStrength : ℚ
  archive : Bool

def State.ride (m : State) (now : Int) : Episodes.State :=
  if 0 < m.halfLife ∨ 0 < m.minStrength then
    lifecyclePass m.memory { now, halfLife := m.halfLife, minStrength := m.minStrength, archive := m.archive }
  else m.memory

/-- `memory_maybe_consolidate` at a time, and its answer. What is distilled goes to other stores. -/
def maybeConsolidate (m : State) (threshold interval now : Int) : State × Int :=
  if threshold ≤ 0 then (m, -1)
  else if m.lastConsolMs ≠ 0 ∧ 0 < interval ∧ now - m.lastConsolMs < interval then (m, 0)
  else
    let n := m.memory.episodes.length
    if (n : Int) - m.consolidatedAt < threshold then (m, 0)
    else
      ({ m with
          memory := m.ride now
          consolidatedAt := n
          lastConsolMs := now
          consolCount := m.consolCount + 1 }, 1)

def memoryReinforce (m : Episodes.State) (task : Text) (clock : Int) : Episodes.State :=
  match (m.episodes.reverse.find? fun e => e.task = task) with
  | none => m
  | some e => { m with episodes := reinforce m.episodes task e.result clock }

inductive Label where
  | record (task result : Text) (clock : Int)
  | reinforce (task : Text) (clock : Int)
  | lifecycle (cfg : LifecycleCfg)
  | setLifecycle (halfLife : Int) (minStrength : ℚ) (archive : Bool)
  | consolidate (threshold interval now : Int)

def step (m : State) : Label → State
  | .record task result clock => { m with memory := recordExperience m.memory task result clock }
  | .reinforce task clock => { m with memory := memoryReinforce m.memory task clock }
  | .lifecycle cfg => { m with memory := lifecyclePass m.memory cfg }
  | .setLifecycle halfLife minStrength archive => { m with halfLife, minStrength, archive }
  | .consolidate threshold interval now => (maybeConsolidate m threshold interval now).1

/-! ### What came and what went -/

structure History where
  /-- The tasks of the episodes that were recorded, those done again left out. -/
  recorded : List Text
  /-- The episodes that were loaded at the start and not seen by a pass yet. -/
  loaded : Nat
  /-- The episodes that were evicted or dropped. -/
  removed : Nat

structure Traced where
  state : State
  history : History

/-- An episode of a new task is recorded, and the oldest one goes when the store is full. -/
def History.record (h : History) (es : List Episode) (task : Text) : History :=
  if es.any fun e => e.task = task then h
  else
    { h with
      recorded := h.recorded ++ [task]
      removed := if episodesCap ≤ es.length then h.removed + 1 else h.removed }

def tracedStep (t : Traced) (label : Label) : Traced where
  state := step t.state label
  history :=
    let es := t.state.memory.episodes
    let es' := (step t.state label).memory.episodes
    match label with
    | .record task _ _ => t.history.record es task
    | .reinforce _ _ | .setLifecycle _ _ _ => t.history
    | .lifecycle _ => { t.history with removed := t.history.removed + (es.length - es'.length) }
    | .consolidate threshold interval now =>
      if (maybeConsolidate t.state threshold interval now).2 = 1 then
        { recorded := [], loaded := 0, removed := es.length - es'.length }
      else t.history

/-- `memory_new` over a file of episodes. -/
def start (m : Episodes.State) : Traced where
  state := { memory := m, consolidatedAt := 0, lastConsolMs := 0, consolCount := 0, halfLife := 0, minStrength := 0,
             archive := false }
  history := { recorded := [], loaded := m.episodes.length, removed := 0 }

/-! ### What is promised -/

def Elapsed (m : State) (interval now : Int) : Prop :=
  m.lastConsolMs = 0 ∨ interval ≤ 0 ∨ interval ≤ now - m.lastConsolMs

/-- At least so many distinct episodes are new since the last pass, and the interval has passed. -/
def Due (t : Traced) (threshold interval now : Int) : Prop :=
  threshold ≤ t.history.recorded.dedup.length ∧ Elapsed t.state interval now

def Prompt (t : Traced) (threshold interval now : Int) : Prop :=
  Due t threshold interval now → (maybeConsolidate t.state threshold interval now).2 = 1

/-- When a pass is due, the new episodes outweigh those that are gone by the threshold. -/
def Outweighed (t : Traced) (threshold interval now : Int) : Prop :=
  Due t threshold interval now →
    0 < threshold ∧ threshold + t.history.removed ≤ t.history.loaded + t.history.recorded.length

def Balanced (t : Traced) : Prop :=
  t.state.memory.episodes.length + t.history.removed =
    t.state.consolidatedAt + t.history.loaded + t.history.recorded.length

theorem length_reinforce (es : List Episode) (task result : Text) (now : Int) :
    (Episodes.reinforce es task result now).length = es.length := by
  simpa using congrArg List.length (reinforce_tasks es task result now)

theorem length_add (es : List Episode) (task result : Text) (clock : Int) :
    (episodicAddFull es task result 0 0 clock).length =
      if es.any fun e => e.task = task then es.length
      else if episodesCap ≤ es.length then es.length - 1 + 1 else es.length + 1 := by
  unfold episodicAddFull
  simp only
  split
  · rw [length_reinforce]
  · rw [List.length_append, List.length_singleton]
    split <;> simp

theorem length_pass (m : Episodes.State) (cfg : LifecycleCfg) :
    (lifecyclePass m cfg).episodes.length ≤ m.episodes.length := by
  have aged : (aged m.episodes cfg).length = m.episodes.length := by
    simpa using congrArg List.length (aged_tasks m.episodes cfg)
  unfold lifecyclePass
  simp only
  split
  · exact aged.le
  · refine le_trans ?_ aged.le
    unfold episodicDropBelow
    split
    · exact le_refl _
    · exact List.length_filter_le _ _

theorem length_ride (m : State) (now : Int) : (m.ride now).episodes.length ≤ m.memory.episodes.length := by
  unfold State.ride
  split
  · exact length_pass _ _
  · exact le_refl _

theorem maybeConsolidate_cases (m : State) (threshold interval now : Int) :
    (0 < threshold ∧ Elapsed m interval now ∧ threshold + m.consolidatedAt ≤ m.memory.episodes.length ∧
      maybeConsolidate m threshold interval now =
        ({ m with
            memory := m.ride now
            consolidatedAt := m.memory.episodes.length
            lastConsolMs := now
            consolCount := m.consolCount + 1 }, 1)) ∨
    (¬ (0 < threshold ∧ Elapsed m interval now ∧ threshold + m.consolidatedAt ≤ m.memory.episodes.length) ∧
      (maybeConsolidate m threshold interval now).1 = m ∧ (maybeConsolidate m threshold interval now).2 ≠ 1) := by
  have elapsed : Elapsed m interval now ↔ ¬ (m.lastConsolMs ≠ 0 ∧ 0 < interval ∧ now - m.lastConsolMs < interval) := by
    unfold Elapsed
    omega
  rw [elapsed]
  unfold maybeConsolidate
  by_cases off : threshold ≤ 0
  · rw [if_pos off]
    exact .inr ⟨by omega, rfl, by simp⟩
  · rw [if_neg off]
    by_cases early : m.lastConsolMs ≠ 0 ∧ 0 < interval ∧ now - m.lastConsolMs < interval
    · rw [if_pos early]
      exact .inr ⟨fun made => made.2.1 early, rfl, by simp⟩
    · rw [if_neg early]
      by_cases few : (m.memory.episodes.length : Int) - m.consolidatedAt < threshold
      · simp only [few, if_true]
        exact .inr ⟨by omega, trivial, by decide⟩
      · simp only [few, if_false]
        exact .inl ⟨by omega, early, by omega, trivial⟩

theorem Balanced.step {t : Traced} (balanced : Balanced t) (label : Label) : Balanced (tracedStep t label) := by
  unfold Balanced at balanced ⊢
  unfold tracedStep
  cases label with
  | record task result clock =>
    have length := length_add t.state.memory.episodes task result clock
    simp only [Consolidation.step, recordExperience, History.record] at length ⊢
    split at length
    · rename_i stored
      rw [if_pos stored, length]
      exact balanced
    · rename_i new
      rw [if_neg new, length]
      simp only [List.length_append, List.length_singleton]
      have positive : 0 < episodesCap := by decide
      split <;> omega
  | reinforce task clock =>
    simp only [Consolidation.step, memoryReinforce]
    split
    · exact balanced
    · simp only [length_reinforce]
      exact balanced
  | lifecycle cfg =>
    have less := length_pass t.state.memory cfg
    simp only [Consolidation.step]
    omega
  | setLifecycle => exact balanced
  | consolidate threshold interval now =>
    simp only [Consolidation.step]
    rcases maybeConsolidate_cases t.state threshold interval now with ⟨-, -, -, made⟩ | ⟨-, same, other⟩
    · have less := length_ride t.state now
      simp only [made, if_true, List.length_nil]
      omega
    · rw [if_neg other, same]
      exact balanced

/-- In every run, a pass that is due is made if and only if the new episodes outweigh those that are gone. -/
theorem prompt_iff {m : Episodes.State} {labels : List Label} {t : Traced}
    (run : (Machine.ofFun tracedStep).Run (start m) labels t) (threshold interval now : Int) :
    Prompt t threshold interval now ↔ Outweighed t threshold interval now := by
  have balanced : Balanced t := by
    refine run.invariant ?_ ?_
    · rintro s label _ balanced rfl
      exact balanced.step label
    · simp [Balanced, start]
  unfold Balanced at balanced
  refine imp_congr_right fun due => ?_
  rcases maybeConsolidate_cases t.state threshold interval now with ⟨positive, -, enough, made⟩ | ⟨few, -, other⟩
  · rw [made]
    exact iff_of_true rfl ⟨positive, by omega⟩
  · refine iff_of_false other fun outweighed => few ⟨outweighed.1, due.2, ?_⟩
    omega

/-- An episode is counted and then forgotten by the pass; the next one is new, and there is no pass. -/
def forgotten : List Label :=
  [.setLifecycle 0 2 false, .record (ascii "build") [] 1, .consolidate 1 0 2, .record (ascii "test") [] 3]

theorem new_episode_starved :
    ∃ t, (Machine.ofFun tracedStep).Run (start fresh) forgotten t ∧ ¬ Prompt t 1 0 4 := by
  refine ⟨_, Machine.run_ofFun_iff.mpr rfl, fun prompt => ?_⟩
  have made := prompt ⟨by decide +kernel, .inr (.inl (by decide))⟩
  revert made
  decide +kernel

/-- Without forgetting, the next new episode makes a pass. -/
theorem prompt_iff_remembered :
    ∃ t, (Machine.ofFun tracedStep).Run (start fresh)
        [.record (ascii "build") [] 1, .consolidate 1 0 2, .record (ascii "test") [] 3] t ∧ Prompt t 1 0 4 := by
  have run : (Machine.ofFun tracedStep).Run (start fresh)
      [.record (ascii "build") [] 1, .consolidate 1 0 2, .record (ascii "test") [] 3] _ :=
    Machine.run_ofFun_iff.mpr rfl
  exact ⟨_, run, (prompt_iff run 1 0 4).mpr fun _ => by decide +kernel⟩

end CognitiveOs.Memory.Consolidation
