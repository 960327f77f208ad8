import CognitiveOs.Foundation.Options
import CognitiveOs.Runtime.FlowRun.Run

/-!
# The order of a flow

Where every node is while the main thread goes through the layers: ahead of it, waiting for its worker,
started, or behind. A node waits only when the nodes before it have succeeded.
-/

namespace CognitiveOs.Runtime.FlowRun

open Foundation Infra

/-- Every node before `v` has finished with success. -/
def PredsOk (d : FlowDag) (st : State) (v : Nat) : Prop :=
  ∀ u, v ∈ d.adj u → st.worker u = .finished ∧ st.rc u = 0

structure Fresh (st : State) (v : Nat) : Prop where
  worker : st.worker v = .idle
  marked : st.marked v = []

structure Chosen (d : FlowDag) (st : State) (v : Nat) : Prop extends Fresh st v where
  preds : PredsOk d st v

structure Running (d : FlowDag) (st : State) (v : Nat) : Prop where
  worker : st.worker v = .running
  marked : st.marked v = []
  preds : PredsOk d st v

structure Finished (d : FlowDag) (st : State) (v : Nat) : Prop where
  worker : st.worker v = .finished
  marked : ∃ terminal, st.marked v = [terminal] ∧ (terminal = .ok ↔ st.rc v = 0)
  preds : PredsOk d st v

/-- A node that is passed over, because of an abort or of a node before it. -/
structure Skipped (d : FlowDag) (st : State) (v : Nat) : Prop where
  worker : st.worker v = .idle
  marked : ∃ terminal, st.marked v = [terminal] ∧ terminal ≠ .ok
  rc : st.rc v ≠ 0
  reason : st.aborted = true ∨ ∃ u, v ∈ d.adj u ∧ st.marked u ≠ [] ∧ st.rc u ≠ 0

namespace Phase

def layer : Phase → Option Nat
  | .select layer _ _ => some layer
  | .prepare layer _ _ => some layer
  | .spawn layer _ _ _ _ => some layer
  | .join layer _ _ => some layer
  | .done => none

def held : Phase → List Nat
  | .select _ _ runidx => runidx
  | .prepare _ _ runidx => runidx
  | .spawn _ _ batch rest _ => batch ++ rest
  | .join _ todo rest => todo ++ rest
  | .done => []

def waiting : Phase → List Nat
  | .select _ _ runidx => runidx
  | .prepare _ _ runidx => runidx
  | .spawn _ todo _ rest _ => todo ++ rest
  | .join _ _ rest => rest
  | .done => []

/-- The main thread has looked at node `v`. -/
def Passed (d : FlowDag) : Phase → Nat → Prop
  | .select layer i _, v => layerOf d v < layer ∨ layerOf d v = layer ∧ v < i
  | .prepare layer _ _, v => layerOf d v ≤ layer
  | .spawn layer _ _ _ _, v => layerOf d v ≤ layer
  | .join layer _ _, v => layerOf d v ≤ layer
  | .done, _ => True

/-- The jobs to set up are nodes to run, and a worker that runs inline has been started. -/
def Wf : Phase → Prop
  | .prepare _ todo runidx => todo ⊆ runidx
  | .spawn _ todo batch rest inline => ∀ i, inline = some i → i ∈ batch ++ rest ∧ i ∉ todo ++ rest
  | _ => True

end Phase

structure Orderly (d : FlowDag) (st : State) : Prop where
  wf : st.phase.Wf
  nodup : st.phase.held.Nodup
  inside : ∀ v ∈ st.phase.held, v < d.n ∧ st.phase.Passed d v ∧ st.phase.layer = some (layerOf d v)
  ahead : ∀ v, ¬(v < d.n ∧ st.phase.Passed d v) → Fresh st v
  waiting : ∀ v ∈ st.phase.waiting, Chosen d st v
  started : ∃ started, st.phase.held = started ++ st.phase.waiting ∧ ∀ v ∈ started, Running d st v ∨ Finished d st v
  behind : ∀ v < d.n, st.phase.Passed d v → v ∉ st.phase.held → Finished d st v ∨ Skipped d st v
  failed : st.failed = true ↔ ∃ v < d.n, st.phase.Passed d v ∧ v ∉ st.phase.held ∧ st.rc v ≠ 0

variable {d : FlowDag} {st st' : State} {u v : Nat}

theorem layerOf_le (small : v < d.n) : layerOf d v ≤ maxLayer d := by
  have listed : layerOf d v ∈ (List.range d.n).map (layerOf d) := List.mem_map_of_mem (List.mem_range.mpr small)
  obtain ⟨a, below⟩ := exists_step_le_foldl Nat.le_max_left listed 0
  exact (Nat.le_max_right a _).trans below

theorem passed_next {layer i : Nat} {runidx : List Nat} (phase : st.phase = .select layer i runidx)
    (here : layerOf d i = layer) (runidx' : List Nat) :
    (Phase.select layer (i + 1) runidx').Passed d v ↔ st.phase.Passed d v ∨ v = i := by
  rw [phase]
  simp only [Phase.Passed]
  by_cases same : v = i
  · subst same
    omega
  · omega

structure Frame (st st' : State) (changed : Nat → Prop) : Prop where
  rc : ∀ v, ¬changed v → st'.rc v = st.rc v
  worker : ∀ v, ¬changed v → st'.worker v = st.worker v
  marked : ∀ v, ¬changed v → st'.marked v = st.marked v
  aborted : st.aborted = true → st'.aborted = true
  active : ∀ v, changed v → st.worker v ≠ .finished ∧ st.marked v = []

theorem Frame.still (rc : st'.rc = st.rc) (worker : st'.worker = st.worker) (marked : st'.marked = st.marked)
    (aborted : st.aborted = true → st'.aborted = true) : Frame st st' fun _ => False :=
  ⟨fun v _ => congrFun rc v, fun v _ => congrFun worker v, fun v _ => congrFun marked v, aborted,
    fun _ this => this.elim⟩

namespace Frame

variable {changed : Nat → Prop} (frame : Frame st st' changed)
include frame

theorem preds (ok : PredsOk d st v) : PredsOk d st' v := by
  intro u edge
  obtain ⟨finished, success⟩ := ok u edge
  have same : ¬changed u := fun this => (frame.active u this).1 finished
  rw [frame.worker u same, frame.rc u same]
  exact ⟨finished, success⟩

theorem fresh (same : ¬changed v) (fresh : Fresh st v) : Fresh st' v where
  worker := (frame.worker v same).trans fresh.worker
  marked := (frame.marked v same).trans fresh.marked

theorem chosen (same : ¬changed v) (chosen : Chosen d st v) : Chosen d st' v where
  toFresh := frame.fresh same chosen.toFresh
  preds := frame.preds chosen.preds

theorem running (same : ¬changed v) (running : Running d st v) : Running d st' v where
  worker := (frame.worker v same).trans running.worker
  marked := (frame.marked v same).trans running.marked
  preds := frame.preds running.preds

theorem finished (finished : Finished d st v) : Finished d st' v := by
  have same : ¬changed v := fun this => (frame.active v this).1 finished.worker
  refine ⟨(frame.worker v same).trans finished.worker, ?_, frame.preds finished.preds⟩
  rw [frame.marked v same, frame.rc v same]
  exact finished.marked

theorem unmarked (mark : st.marked v ≠ []) : ¬changed v :=
  fun this => mark (frame.active v this).2

theorem skipped (skipped : Skipped d st v) : Skipped d st' v := by
  obtain ⟨terminal, mark, notOk⟩ := skipped.marked
  have same : ¬changed v := frame.unmarked (by rw [mark]; exact List.cons_ne_nil _ _)
  refine ⟨(frame.worker v same).trans skipped.worker, ⟨terminal, (frame.marked v same).trans mark, notOk⟩, ?_, ?_⟩
  · rw [frame.rc v same]
    exact skipped.rc
  · refine skipped.reason.imp frame.aborted ?_
    rintro ⟨u, edge, marked, failure⟩
    have same := frame.unmarked marked
    refine ⟨u, edge, ?_, ?_⟩
    · rwa [frame.marked u same]
    · rwa [frame.rc u same]

end Frame

namespace Orderly

variable (orderly : Orderly d st)
include orderly

theorem rephase {phase : Phase} (wf : phase.Wf) (held : phase.held = st.phase.held)
    (waiting : phase.waiting = st.phase.waiting) (passed : ∀ v < d.n, phase.Passed d v ↔ st.phase.Passed d v)
    (layer : st.phase.held ≠ [] → phase.layer = st.phase.layer) : Orderly d { st with phase := phase } := by
  have frame : Frame st { st with phase := phase } _ := Frame.still rfl rfl rfl id
  obtain ⟨started, whole, here⟩ := orderly.started
  refine ⟨wf, held ▸ orderly.nodup, ?_, ?_, ?_, ⟨started, ?_, ?_⟩, ?_, ?_⟩
  · intro v member
    have member : v ∈ st.phase.held := held ▸ member
    obtain ⟨small, was, here⟩ := orderly.inside v member
    exact ⟨small, (passed v small).mpr was, (layer (List.ne_nil_of_mem member)).trans here⟩
  · intro v out
    exact frame.fresh id (orderly.ahead v fun both => out ⟨both.1, (passed v both.1).mpr both.2⟩)
  · exact fun v member => frame.chosen id (orderly.waiting v (waiting ▸ member))
  · exact held.trans (whole.trans (congrArg _ waiting.symm))
  · exact fun v member => (here v member).imp (frame.running id) frame.finished
  · intro v small was out
    exact (orderly.behind v small ((passed v small).mp was) (held ▸ out)).imp frame.finished frame.skipped
  · refine orderly.failed.trans (exists_congr fun v => and_congr_right fun small => ?_)
    show _ ↔ phase.Passed d v ∧ v ∉ phase.held ∧ st.rc v ≠ 0
    rw [passed v small, held]

variable {layer i : Nat} {runidx : List Nat}

theorem settled (later : ∀ u v, v ∈ d.adj u → layerOf d u < layerOf d v) (phase : st.phase = .select layer i runidx)
    (here : layerOf d v = layer) (edge : v ∈ d.adj u) : Finished d st u ∨ Skipped d st u := by
  have lower := later u v edge
  refine orderly.behind u (lt_of_adj edge) ?_ ?_
  · rw [phase]
    exact Or.inl (here ▸ lower)
  · intro member
    have := (orderly.inside u member).2.2
    rw [phase] at this
    have : layer = layerOf d u := Option.some.inj this
    omega

theorem running_of_worker (runs : st.worker v = .running) :
    v < d.n ∧ Running d st v ∧ v ∈ st.phase.held ∧ v ∉ st.phase.waiting := by
  have seen : v < d.n ∧ st.phase.Passed d v := by
    by_contra out
    have := (orderly.ahead v out).worker
    rw [runs] at this
    cases this
  have held : v ∈ st.phase.held := by
    by_contra out
    obtain finished | skipped := orderly.behind v seen.1 seen.2 out
    · exact absurd (runs.symm.trans finished.worker) (by decide)
    · exact absurd (runs.symm.trans skipped.worker) (by decide)
  have out : v ∉ st.phase.waiting := by
    intro member
    exact absurd (runs.symm.trans (orderly.waiting v member).worker) (by decide)
  refine ⟨seen.1, ?_, held, out⟩
  obtain ⟨started, whole, here⟩ := orderly.started
  rw [whole] at held
  obtain running | finished := here v ((List.mem_append.mp held).resolve_right out)
  · exact running
  · exact absurd (runs.symm.trans finished.worker) (by decide)

theorem abort (rc : st'.rc = st.rc) (worker : st'.worker = st.worker) (marked : st'.marked = st.marked)
    (aborted : st.aborted = true → st'.aborted = true) (phase : st'.phase = st.phase)
    (failed : st'.failed = st.failed) : Orderly d st' := by
  have frame := Frame.still rc worker marked aborted
  obtain ⟨started, whole, here⟩ := orderly.started
  constructor
  · rw [phase]
    exact orderly.wf
  · rw [phase]
    exact orderly.nodup
  · rw [phase]
    exact orderly.inside
  · rw [phase]
    exact fun v out => frame.fresh id (orderly.ahead v out)
  · rw [phase]
    exact fun v member => frame.chosen id (orderly.waiting v member)
  · rw [phase]
    exact ⟨started, whole, fun v member => (here v member).imp (frame.running id) frame.finished⟩
  · rw [phase]
    exact fun v small was out => (orderly.behind v small was out).imp frame.finished frame.skipped
  · rw [phase, failed, rc]
    exact orderly.failed

theorem worker_ends (i : Nat) (outcome : Int) (runs : st.worker i = .running) : Orderly d (finish st i outcome) := by
  obtain ⟨small, running, held, out⟩ := orderly.running_of_worker runs
  obtain ⟨rc, terminal, same, mark⟩ : ∃ rc terminal, finish st i outcome =
      { st with worker := Function.update st.worker i .finished }.mark i rc terminal ∧ (terminal = .ok ↔ rc = 0) := by
    have marks : ∀ rc : Int, workerMark rc = .ok ↔ rc = 0 := by
      intro rc
      unfold workerMark
      split
      · simpa
      · split
        · simpa
        · split <;> simpa
    unfold finish
    dsimp only
    split
    · exact ⟨_, _, rfl, by decide⟩
    · split
      · exact ⟨_, _, rfl, marks _⟩
      · exact ⟨_, _, rfl, marks _⟩
  rw [same]
  have frame : Frame st ({ st with worker := Function.update st.worker i .finished }.mark i rc terminal) (· = i) := by
    refine ⟨fun v other => Function.update_of_ne other _ _, fun v other => Function.update_of_ne other _ _,
      fun v other => Function.update_of_ne other _ _, id, ?_⟩
    rintro v rfl
    rw [running.worker]
    exact ⟨by decide, running.marked⟩
  have done : Finished d ({ st with worker := Function.update st.worker i .finished }.mark i rc terminal) i := by
    refine ⟨Function.update_self _ _ _, ⟨terminal, ?_, ?_⟩, frame.preds running.preds⟩
    · show Function.update st.marked i (st.marked i ++ [terminal]) i = _
      rw [Function.update_self, running.marked, List.nil_append]
    · show terminal = .ok ↔ Function.update st.rc i rc i = 0
      rw [Function.update_self]
      exact mark
  obtain ⟨started, whole, here⟩ := orderly.started
  refine ⟨orderly.wf, orderly.nodup, orderly.inside, ?_, ?_, ⟨started, whole, ?_⟩, ?_, ?_⟩
  · intro v ahead
    refine frame.fresh ?_ (orderly.ahead v ahead)
    rintro rfl
    exact ahead ⟨small, (orderly.inside v held).2.1⟩
  · intro v member
    refine frame.chosen ?_ (orderly.waiting v member)
    rintro rfl
    exact out member
  · intro v member
    by_cases this : v = i
    · exact Or.inr (this ▸ done)
    · exact (here v member).imp (frame.running this) frame.finished
  · exact fun v small was free => (orderly.behind v small was free).imp frame.finished frame.skipped
  · refine orderly.failed.trans (exists_congr fun v => and_congr_right fun _ => and_congr_right fun _ => ?_)
    refine and_congr_right fun free => ?_
    rw [frame.rc v (by rintro rfl; exact free held)]

theorem next_fresh (phase : st.phase = .select layer i runidx) (here : layerOf d i = layer) :
    Fresh st i ∧ i ∉ runidx := by
  have unseen : ¬st.phase.Passed d i := by
    rw [phase]
    simp only [Phase.Passed]
    omega
  refine ⟨orderly.ahead i fun both => unseen both.2, fun member => ?_⟩
  exact unseen (orderly.inside i (by rw [phase]; exact member)).2.1

theorem skips (phase : st.phase = .select layer i runidx) (small : i < d.n) (here : layerOf d i = layer) {rc : Int}
    {terminal : Terminal} (failure : rc ≠ 0) (notOk : terminal ≠ .ok)
    (reason : st.aborted = true ∨ ∃ u, i ∈ d.adj u ∧ st.marked u ≠ [] ∧ st.rc u ≠ 0) :
    Orderly d { { st with phase := .select layer (i + 1) runidx }.mark i rc terminal with failed := true } := by
  have passed := fun v => passed_next phase here runidx (v := v)
  obtain ⟨ahead, outside⟩ := orderly.next_fresh phase here
  have frame : Frame st { { st with phase := .select layer (i + 1) runidx }.mark i rc terminal with failed := true }
      (· = i) := by
    refine ⟨fun v other => Function.update_of_ne other _ _, fun _ _ => rfl,
      fun v other => Function.update_of_ne other _ _, id, ?_⟩
    rintro v rfl
    rw [ahead.worker]
    exact ⟨by decide, ahead.marked⟩
  have self : Function.update st.rc i rc i = rc := Function.update_self _ _ _
  have held : st.phase.held = runidx := by rw [phase]; rfl
  have waiting : st.phase.waiting = runidx := by rw [phase]; rfl
  have current : st.phase.layer = some layer := by rw [phase]; rfl
  refine ⟨trivial, ?_, ?_, ?_, ?_, ⟨[], rfl, fun _ member => by cases member⟩, ?_, ?_⟩
  · exact held ▸ orderly.nodup
  · intro v member
    obtain ⟨small, was, at_⟩ := orderly.inside v (held.symm ▸ member)
    exact ⟨small, (passed v).mpr (Or.inl was), current.symm.trans at_⟩
  · intro v out
    have other : v ≠ i := by
      rintro rfl
      exact out ⟨small, (passed v).mpr (Or.inr rfl)⟩
    exact frame.fresh other (orderly.ahead v fun both => out ⟨both.1, (passed v).mpr (Or.inl both.2)⟩)
  · intro v member
    have member : v ∈ runidx := member
    refine frame.chosen ?_ (orderly.waiting v (waiting.symm ▸ member))
    rintro rfl
    exact outside member
  · intro v small was free
    obtain before | rfl := (passed v).mp was
    · exact (orderly.behind v small before (held.symm ▸ free)).imp frame.finished frame.skipped
    · refine Or.inr ⟨ahead.worker, ⟨terminal, ?_, notOk⟩, ?_, ?_⟩
      · show Function.update st.marked v (st.marked v ++ [terminal]) v = _
        rw [Function.update_self, ahead.marked, List.nil_append]
      · show Function.update st.rc v rc v ≠ 0
        rwa [self]
      · refine reason.imp id ?_
        rintro ⟨u, edge, marked, bad⟩
        have same := frame.unmarked marked
        refine ⟨u, edge, ?_, ?_⟩
        · rwa [frame.marked u same]
        · rwa [frame.rc u same]
  · refine ⟨fun _ => ⟨i, small, (passed i).mpr (Or.inr rfl), outside, ?_⟩, fun _ => rfl⟩
    show Function.update st.rc i rc i ≠ 0
    rwa [self]

theorem takes (phase : st.phase = .select layer i runidx) (small : i < d.n) (here : layerOf d i = layer)
    (ok : PredsOk d st i) : Orderly d { st with phase := .select layer (i + 1) (runidx ++ [i]) } := by
  have passed := fun v => passed_next phase here (runidx ++ [i]) (v := v)
  obtain ⟨ahead, outside⟩ := orderly.next_fresh phase here
  have frame : Frame st { st with phase := .select layer (i + 1) (runidx ++ [i]) } _ := Frame.still rfl rfl rfl id
  have held : st.phase.held = runidx := by rw [phase]; rfl
  have waiting : st.phase.waiting = runidx := by rw [phase]; rfl
  have current : st.phase.layer = some layer := by rw [phase]; rfl
  refine ⟨trivial, ?_, ?_, ?_, ?_, ⟨[], rfl, fun _ member => by cases member⟩, ?_, ?_⟩
  · refine List.Nodup.append (held ▸ orderly.nodup) (List.nodup_singleton i) ?_
    intro v member same
    exact outside (List.mem_singleton.mp same ▸ member)
  · intro v member
    obtain old | new := List.mem_append.mp member
    · obtain ⟨small, was, at_⟩ := orderly.inside v (held.symm ▸ old)
      exact ⟨small, (passed v).mpr (Or.inl was), current.symm.trans at_⟩
    · obtain rfl := List.mem_singleton.mp new
      exact ⟨small, (passed v).mpr (Or.inr rfl), congrArg some here.symm⟩
  · intro v out
    exact frame.fresh id (orderly.ahead v fun both => out ⟨both.1, (passed v).mpr (Or.inl both.2)⟩)
  · intro v member
    obtain old | new := List.mem_append.mp member
    · exact frame.chosen id (orderly.waiting v (waiting.symm ▸ old))
    · obtain rfl := List.mem_singleton.mp new
      exact frame.chosen id ⟨ahead, ok⟩
  · intro v small was free
    have free : v ∉ runidx ++ [i] := free
    rw [List.mem_append, List.mem_singleton, not_or] at free
    have before := ((passed v).mp was).resolve_right free.2
    exact (orderly.behind v small before (held.symm ▸ free.1)).imp frame.finished frame.skipped
  · refine orderly.failed.trans (exists_congr fun v => and_congr_right fun _ => ?_)
    show _ ↔ (Phase.select layer (i + 1) (runidx ++ [i])).Passed d v ∧ v ∉ runidx ++ [i] ∧ st.rc v ≠ 0
    rw [passed, held, List.mem_append, List.mem_singleton]
    constructor
    · rintro ⟨was, free, failure⟩
      refine ⟨Or.inl was, ?_, failure⟩
      rintro (member | rfl)
      · exact free member
      · rw [phase] at was
        simp only [Phase.Passed] at was
        omega
    · rintro ⟨was, free, failure⟩
      rw [not_or] at free
      exact ⟨was.resolve_right free.2, free.1, failure⟩

theorem looks (later : ∀ u v, v ∈ d.adj u → layerOf d u < layerOf d v) {layer i : Nat} {runidx : List Nat}
    (phase : st.phase = .select layer i runidx) (small : i < d.n) : Orderly d (select d st layer i runidx) := by
  unfold select
  dsimp only
  split
  · rename_i other
    refine orderly.rephase trivial (by rw [phase]; rfl) (by rw [phase]; rfl) ?_ fun _ => by rw [phase]; rfl
    intro v _
    rw [phase]
    simp only [Phase.Passed]
    by_cases same : v = i
    · subst same
      omega
    · omega
  rename_i here
  have here : layerOf d i = layer := not_not.mp here
  split
  · rename_i aborted
    have aborted : st.aborted = true := aborted
    refine orderly.skips phase small here ?_ ?_ (Or.inl aborted)
    · unfold State.abortRc
      split <;> decide
    · unfold State.abortMark
      split <;> decide
  split
  · rename_i blocked
    refine orderly.skips phase small here (by decide) (by decide) (Or.inr ?_)
    obtain ⟨u, -, bad⟩ := List.any_eq_true.mp blocked
    obtain ⟨edge, failure⟩ := of_decide_eq_true bad
    refine ⟨u, edge, ?_, failure⟩
    obtain finished | skipped := orderly.settled later phase here edge
    · obtain ⟨terminal, mark, -⟩ := finished.marked
      rw [mark]
      exact List.cons_ne_nil _ _
    · obtain ⟨terminal, mark, -⟩ := skipped.marked
      rw [mark]
      exact List.cons_ne_nil _ _
  · rename_i free
    refine orderly.takes phase small here ?_
    intro u edge
    have success : st.rc u = 0 := by
      by_contra failure
      exact free (List.any_eq_true.mpr ⟨u, List.mem_range.mpr (lt_of_adj edge), decide_eq_true ⟨edge, failure⟩⟩)
    obtain finished | skipped := orderly.settled later phase here edge
    · exact ⟨finished.worker, success⟩
    · exact absurd success skipped.rc

theorem prepares {todo : List Nat} (phase : st.phase = .prepare layer (i :: todo) runidx) (prepared : Nat → Bool) :
    Orderly d
      { st with
        phase := .prepare layer todo runidx
        prepared := prepared
        rc := Function.update st.rc i (-1) } := by
  have wf := orderly.wf
  rw [phase] at wf
  have wf : i :: todo ⊆ runidx := wf
  have member : i ∈ st.phase.waiting := by
    rw [phase]
    exact wf List.mem_cons_self
  have chosen := orderly.waiting i member
  have frame : Frame st
      { st with
        phase := .prepare layer todo runidx
        prepared := prepared
        rc := Function.update st.rc i (-1) } (· = i) := by
    refine ⟨fun v other => Function.update_of_ne other _ _, fun _ _ => rfl, fun _ _ => rfl, id, ?_⟩
    rintro v rfl
    rw [chosen.worker]
    exact ⟨by decide, chosen.marked⟩
  have held : st.phase.held = runidx := by rw [phase]; rfl
  have waiting : st.phase.waiting = runidx := by rw [phase]; rfl
  have current : st.phase.layer = some layer := by rw [phase]; rfl
  have passed : ∀ v, (Phase.prepare layer todo runidx).Passed d v ↔ st.phase.Passed d v := by
    intro v
    rw [phase]
    rfl
  have inside : i ∈ runidx := wf List.mem_cons_self
  refine ⟨fun v member => wf (List.mem_cons_of_mem _ member), held ▸ orderly.nodup, ?_, ?_, ?_,
    ⟨[], rfl, fun _ member => by cases member⟩, ?_, ?_⟩
  · intro v member
    obtain ⟨small, was, here⟩ := orderly.inside v (held.symm ▸ member)
    exact ⟨small, (passed v).mpr was, current.symm.trans here⟩
  · intro v out
    have := orderly.ahead v fun both => out ⟨both.1, (passed v).mpr both.2⟩
    exact ⟨this.worker, this.marked⟩
  · intro v member
    have fresh := orderly.waiting v (waiting.symm ▸ member)
    exact ⟨⟨fresh.worker, fresh.marked⟩, frame.preds fresh.preds⟩
  · intro v small was free
    exact (orderly.behind v small ((passed v).mp was) (held.symm ▸ free)).imp frame.finished frame.skipped
  · refine orderly.failed.trans (exists_congr fun v => and_congr_right fun _ => ?_)
    rw [passed, held]
    refine and_congr_right fun _ => and_congr_right fun free => ?_
    rw [frame.rc v (by rintro rfl; exact free inside)]

theorem spawns {layer i : Nat} {todo batch rest : List Nat}
    (phase : st.phase = .spawn layer (i :: todo) batch rest none) {inline : Option Nat} (self : ∀ v, inline = some v → v = i) :
    Orderly d
      { st with
        phase := .spawn layer todo batch rest inline
        worker := Function.update st.worker i .running } := by
  have waiting : st.phase.waiting = i :: (todo ++ rest) := by rw [phase]; rfl
  have held : st.phase.held = batch ++ rest := by rw [phase]; rfl
  have current : st.phase.layer = some layer := by rw [phase]; rfl
  have passed : ∀ v, (Phase.spawn layer todo batch rest inline).Passed d v ↔ st.phase.Passed d v := by
    intro v
    rw [phase]
    rfl
  obtain ⟨started, whole, here⟩ := orderly.started
  rw [waiting] at whole
  have nodup := orderly.nodup
  rw [whole] at nodup
  have chosen := orderly.waiting i (by rw [waiting]; exact List.mem_cons_self)
  have outside : i ∉ todo ++ rest := (List.nodup_cons.mp (List.nodup_append.mp nodup).2.1).1
  have frame : Frame st
      { st with
        phase := .spawn layer todo batch rest inline
        worker := Function.update st.worker i .running } (· = i) := by
    refine ⟨fun _ _ => rfl, fun v other => Function.update_of_ne other _ _, fun _ _ => rfl, id, ?_⟩
    rintro v rfl
    rw [chosen.worker]
    exact ⟨by decide, chosen.marked⟩
  refine ⟨?_, show (batch ++ rest).Nodup from held ▸ orderly.nodup, ?_, ?_, ?_, ⟨started ++ [i], ?_, ?_⟩, ?_, ?_⟩
  · intro v inline
    rw [self v inline, ← held, whole]
    exact ⟨List.mem_append_right _ List.mem_cons_self, outside⟩
  · intro v member
    obtain ⟨small, was, here⟩ := orderly.inside v (held.symm ▸ member)
    exact ⟨small, (passed v).mpr was, current.symm.trans here⟩
  · intro v out
    refine frame.fresh ?_ (orderly.ahead v fun both => out ⟨both.1, (passed v).mpr both.2⟩)
    rintro rfl
    have member : v ∈ st.phase.held := by
      rw [whole]
      exact List.mem_append_right _ List.mem_cons_self
    exact out ⟨(orderly.inside v member).1, (passed v).mpr (orderly.inside v member).2.1⟩
  · intro v member
    have member : v ∈ todo ++ rest := member
    refine frame.chosen ?_ (orderly.waiting v (by rw [waiting]; exact List.mem_cons_of_mem _ member))
    rintro rfl
    exact outside member
  · show batch ++ rest = (started ++ [i]) ++ (todo ++ rest)
    rw [← held, whole, List.append_assoc]
    rfl
  · intro v member
    obtain old | new := List.mem_append.mp member
    · have other : v ≠ i := by
        rintro rfl
        exact (List.nodup_append.mp nodup).2.2 v old v List.mem_cons_self rfl
      exact (here v old).imp (frame.running other) frame.finished
    · obtain rfl := List.mem_singleton.mp new
      exact Or.inl ⟨Function.update_self _ _ _, chosen.marked, frame.preds chosen.preds⟩
  · intro v small was free
    exact (orderly.behind v small ((passed v).mp was) (held.symm ▸ free)).imp frame.finished frame.skipped
  · refine orderly.failed.trans (exists_congr fun v => and_congr_right fun _ => ?_)
    rw [passed, held]
    rfl

theorem joins {todo rest : List Nat} (phase : st.phase = .join layer (i :: todo) rest)
    (ended : st.worker i = .finished) :
    Orderly d { st with phase := .join layer todo rest, failed := st.failed || decide (st.rc i ≠ 0) } := by
  have frame : Frame st { st with phase := .join layer todo rest, failed := st.failed || decide (st.rc i ≠ 0) } _ :=
    Frame.still rfl rfl rfl id
  have waiting : st.phase.waiting = rest := by rw [phase]; rfl
  have held : st.phase.held = i :: (todo ++ rest) := by rw [phase]; rfl
  have current : st.phase.layer = some layer := by rw [phase]; rfl
  have passed : ∀ v, (Phase.join layer todo rest).Passed d v ↔ st.phase.Passed d v := by
    intro v
    rw [phase]
    rfl
  obtain ⟨started, whole, here⟩ := orderly.started
  have split : started = i :: todo := by
    rw [held, waiting] at whole
    have whole : (i :: todo) ++ rest = started ++ rest := whole
    exact (List.append_cancel_right whole).symm
  have nodup := orderly.nodup
  rw [held] at nodup
  obtain ⟨outside, nodup⟩ := List.nodup_cons.mp nodup
  have done : Finished d st i := by
    obtain running | finished := here i (by rw [split]; exact List.mem_cons_self)
    · exact absurd (ended.symm.trans running.worker) (by decide)
    · exact finished
  have first : i ∈ st.phase.held := by
    rw [held]
    exact List.mem_cons_self
  refine ⟨trivial, nodup, ?_, ?_, ?_, ⟨todo, rfl, ?_⟩, ?_, ?_⟩
  · intro v member
    obtain ⟨small, was, here⟩ := orderly.inside v (by rw [held]; exact List.mem_cons_of_mem _ member)
    exact ⟨small, (passed v).mpr was, current.symm.trans here⟩
  · intro v out
    exact frame.fresh id (orderly.ahead v fun both => out ⟨both.1, (passed v).mpr both.2⟩)
  · intro v member
    exact frame.chosen id (orderly.waiting v (waiting.symm ▸ member))
  · intro v member
    exact (here v (by rw [split]; exact List.mem_cons_of_mem _ member)).imp (frame.running id) frame.finished
  · intro v small was free
    by_cases same : v = i
    · subst same
      exact Or.inl (frame.finished done)
    · have free : v ∉ st.phase.held := by
        rw [held, List.mem_cons, not_or]
        exact ⟨same, free⟩
      exact (orderly.behind v small ((passed v).mp was) free).imp frame.finished frame.skipped
  · show (st.failed || decide (st.rc i ≠ 0)) = true ↔
      ∃ v < d.n, (Phase.join layer todo rest).Passed d v ∧ v ∉ todo ++ rest ∧ st.rc v ≠ 0
    rw [Bool.or_eq_true, orderly.failed, decide_eq_true_eq]
    constructor
    · rintro (⟨v, small, was, free, failure⟩ | failure)
      · rw [held, List.mem_cons, not_or] at free
        exact ⟨v, small, (passed v).mpr was, free.2, failure⟩
      · obtain ⟨small, was, -⟩ := orderly.inside i first
        exact ⟨i, small, (passed i).mpr was, outside, failure⟩
    · rintro ⟨v, small, was, free, failure⟩
      by_cases same : v = i
      · exact Or.inr (same ▸ failure)
      · refine Or.inl ⟨v, small, (passed v).mp was, ?_, failure⟩
        rw [held, List.mem_cons, not_or]
        exact ⟨same, free⟩

theorem nexts {layer : Nat} {rest : List Nat} (held : st.phase.held = rest) (waiting : st.phase.waiting = rest)
    (passed : ∀ v, st.phase.Passed d v ↔ layerOf d v ≤ layer) (current : st.phase.layer = some layer) :
    Orderly d { st with phase := nextBatch d layer rest } := by
  unfold nextBatch
  split
  · refine orderly.rephase (fun _ inline => by cases inline) ?_ ?_ (fun v _ => (passed v).symm) fun _ => current.symm
    · rw [held]
      exact List.take_append_drop _ _
    · rw [waiting]
      exact List.take_append_drop _ _
  · rename_i empty
    have empty : rest = [] := not_not.mp empty
    rw [empty] at held waiting
    split
    · refine orderly.rephase trivial held.symm waiting.symm ?_ fun some => absurd held some
      intro v _
      rw [passed]
      simp only [Phase.Passed]
      omega
    · rename_i last
      refine orderly.rephase trivial held.symm waiting.symm ?_ fun some => absurd held some
      intro v small
      rw [passed]
      have := layerOf_le small
      simp only [Phase.Passed, true_iff]
      omega

end Orderly

theorem start_orderly (d : FlowDag) : Orderly d start where
  wf := trivial
  nodup := List.nodup_nil
  inside _ member := by cases member
  ahead _ _ := ⟨rfl, rfl⟩
  waiting _ member := by cases member
  started := ⟨[], rfl, fun _ member => by cases member⟩
  behind v _ was _ := by
    have was : layerOf d v < 0 ∨ layerOf d v = 0 ∧ v < 0 := was
    omega
  failed := by
    constructor
    · intro this
      cases this
    · rintro ⟨v, -, was, -⟩
      have was : layerOf d v < 0 ∨ layerOf d v = 0 ∧ v < 0 := was
      omega

inductive MainStep (d : FlowDag) (st : State) (success : Bool) : State → Prop where
  | looks {layer i : Nat} {runidx : List Nat} (phase : st.phase = .select layer i runidx) (small : i < d.n) :
    MainStep d st success (select d st layer i runidx)
  | looked {layer i : Nat} {runidx : List Nat} (phase : st.phase = .select layer i runidx) (large : ¬i < d.n) :
    MainStep d st success { st with phase := .prepare layer runidx runidx }
  | prepares {layer i : Nat} {todo runidx : List Nat} (phase : st.phase = .prepare layer (i :: todo) runidx) :
    MainStep d st success
      { st with
        phase := .prepare layer todo runidx
        prepared := Function.update st.prepared i success
        rc := Function.update st.rc i (-1) }
  | nexts {layer : Nat} {rest : List Nat} (phase : st.phase = .prepare layer [] rest ∨ st.phase = .join layer [] rest) :
    MainStep d st success { st with phase := nextBatch d layer rest }
  | returns {layer i : Nat} {todo batch rest : List Nat} (phase : st.phase = .spawn layer todo batch rest (some i)) :
    MainStep d st success { st with phase := .spawn layer todo batch rest none }
  | spawns {layer i : Nat} {todo batch rest : List Nat} (phase : st.phase = .spawn layer (i :: todo) batch rest none) :
    MainStep d st success
      { st with
        phase := .spawn layer todo batch rest (if success then none else some i)
        worker := Function.update st.worker i .running }
  | spawned {layer : Nat} {batch rest : List Nat} (phase : st.phase = .spawn layer [] batch rest none) :
    MainStep d st success { st with phase := .join layer batch rest }
  | joins {layer i : Nat} {todo rest : List Nat} (phase : st.phase = .join layer (i :: todo) rest)
    (ended : st.worker i = .finished) :
    MainStep d st success { st with phase := .join layer todo rest, failed := st.failed || decide (st.rc i ≠ 0) }

theorem main_cases {success : Bool} (taken : main d st success = some st') : MainStep d st success st' := by
  unfold main at taken
  split at taken
  · rename_i layer i runidx phase
    split at taken
    · rename_i small
      obtain rfl := Option.some.inj taken
      exact .looks phase small
    · rename_i large
      obtain rfl := Option.some.inj taken
      exact .looked phase large
  · rename_i layer i todo runidx phase
    obtain rfl := Option.some.inj taken
    exact .prepares phase
  · rename_i layer runidx phase
    obtain rfl := Option.some.inj taken
    exact .nexts (Or.inl phase)
  · rename_i layer todo batch rest i phase
    split at taken
    · obtain rfl := Option.some.inj taken
      exact .returns phase
    · cases taken
  · rename_i layer i todo batch rest phase
    obtain rfl := Option.some.inj taken
    exact .spawns phase
  · rename_i layer batch rest phase
    obtain rfl := Option.some.inj taken
    exact .spawned phase
  · rename_i layer i todo rest phase
    split at taken
    · rename_i ended
      obtain rfl := Option.some.inj taken
      exact .joins phase ended
    · cases taken
  · rename_i layer rest phase
    obtain rfl := Option.some.inj taken
    exact .nexts (Or.inr phase)
  · cases taken

theorem Orderly.mainStep (later : ∀ u v, v ∈ d.adj u → layerOf d u < layerOf d v) (orderly : Orderly d st)
    {success : Bool} (moves : MainStep d st success st') : Orderly d st' := by
  cases moves with
  | looks phase small => exact orderly.looks later phase small
  | looked phase large =>
    refine orderly.rephase (List.Subset.refl _) (by rw [phase]; rfl) (by rw [phase]; rfl) ?_ fun _ => by
      rw [phase]
      rfl
    intro v small
    rw [phase]
    simp only [Phase.Passed]
    omega
  | prepares phase => exact orderly.prepares phase _
  | nexts phase =>
    obtain phase | phase := phase
    · exact orderly.nexts (by rw [phase]; rfl) (by rw [phase]; rfl) (fun v => by rw [phase]; rfl) (by rw [phase]; rfl)
    · exact orderly.nexts (by rw [phase]; rfl) (by rw [phase]; rfl) (fun v => by rw [phase]; rfl) (by rw [phase]; rfl)
  | returns phase =>
    exact orderly.rephase (fun _ inline => by cases inline) (by rw [phase]; rfl) (by rw [phase]; rfl)
      (fun v _ => by rw [phase]; rfl) fun _ => by rw [phase]; rfl
  | spawns phase =>
    refine orderly.spawns phase fun v inline => ?_
    split at inline
    · cases inline
    · exact (Option.some.inj inline).symm
  | spawned phase =>
    exact orderly.rephase trivial (by rw [phase]; rfl) (by rw [phase]; rfl) (fun v _ => by rw [phase]; rfl)
      fun _ => by rw [phase]; rfl
  | joins phase ended => exact orderly.joins phase ended

theorem Orderly.step (later : ∀ u v, v ∈ d.adj u → layerOf d u < layerOf d v) (orderly : Orderly d st) {label : Label}
    (taken : step d st label = some st') : Orderly d st' := by
  cases label with
  | cancel =>
    obtain rfl := Option.some.inj taken
    exact orderly.abort rfl rfl rfl (fun _ => rfl) rfl rfl
  | timeout =>
    obtain rfl := Option.some.inj taken
    exact orderly.abort rfl rfl rfl (fun _ => Bool.or_true _) rfl rfl
  | finish i outcome =>
    unfold FlowRun.step at taken
    dsimp only at taken
    split at taken
    · rename_i runs
      obtain rfl := Option.some.inj taken
      exact orderly.worker_ends i outcome runs
    · cases taken
  | main success => exact orderly.mainStep later (main_cases taken)

theorem orderly_of_run (later : ∀ u v, v ∈ d.adj u → layerOf d u < layerOf d v) {labels : List Label}
    (run : (machine d).Run start labels st) : Orderly d st := by
  refine @Machine.Run.invariant _ _ _ (fun st => Orderly d st) ?_ _ _ _ run (start_orderly d)
  intro st label st' orderly taken
  exact orderly.step later taken

end CognitiveOs.Runtime.FlowRun
