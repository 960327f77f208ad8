import CognitiveOs.Runtime.FlowRun.Order

/-!
# What a flow guarantees

The order of the workers, the marks of the nodes, what an abort does, and the result of a run.
-/

namespace CognitiveOs.Runtime.FlowRun

open Foundation Infra

variable {d : FlowDag} {st st' : State}

/-- A bound for the steps of the main thread that are left, a worker that is started counted twice. -/
def Phase.left (d : FlowDag) : Phase → Nat
  | .select layer i runidx =>
    (maxLayer d - layer) * (11 * d.n + 4) + (11 * (d.n - i) + 10 * runidx.length + 3)
  | .prepare layer todo runidx => (maxLayer d - layer) * (11 * d.n + 4) + (todo.length + 8 * runidx.length + 2)
  | .spawn layer todo batch rest inline =>
    (maxLayer d - layer) * (11 * d.n + 4) +
      (3 * todo.length + batch.length + 8 * rest.length + (if inline.isSome then 1 else 0) + 3)
  | .join layer todo rest => (maxLayer d - layer) * (11 * d.n + 4) + (todo.length + 8 * rest.length + 2)
  | .done => 0

def active (d : FlowDag) (worker : Nat → Worker) : Finset Nat :=
  (Finset.range d.n).filter fun v => worker v = .running

def State.left (d : FlowDag) (st : State) : Nat :=
  st.phase.left d + (active d st.worker).card

theorem active_start (worker : Nat → Worker) (i : Nat) :
    (active d (Function.update worker i .running)).card ≤ (active d worker).card + 1 := by
  refine Nat.le_trans (Finset.card_le_card ?_) (Finset.card_insert_le i _)
  intro v member
  obtain ⟨small, runs⟩ := Finset.mem_filter.mp member
  by_cases same : v = i
  · exact same ▸ Finset.mem_insert_self v _
  · rw [Function.update_of_ne same] at runs
    exact Finset.mem_insert_of_mem (Finset.mem_filter.mpr ⟨small, runs⟩)

theorem active_end {worker : Nat → Worker} {i : Nat} (small : i < d.n) (runs : worker i = .running) :
    (active d (Function.update worker i .finished)).card < (active d worker).card := by
  refine Finset.card_lt_card (Finset.ssubset_iff_of_subset ?_ |>.mpr ⟨i, ?_, ?_⟩)
  · intro v member
    obtain ⟨small, runs⟩ := Finset.mem_filter.mp member
    by_cases same : v = i
    · rw [same, Function.update_self] at runs
      cases runs
    · rw [Function.update_of_ne same] at runs
      exact Finset.mem_filter.mpr ⟨small, runs⟩
  · exact Finset.mem_filter.mpr ⟨Finset.mem_range.mpr small, runs⟩
  · intro member
    have runs := (Finset.mem_filter.mp member).2
    rw [Function.update_self] at runs
    cases runs

theorem left_nextBatch (layer : Nat) (rest : List Nat) :
    (nextBatch d layer rest).left d < (maxLayer d - layer) * (11 * d.n + 4) + (8 * rest.length + 2) := by
  unfold nextBatch
  split
  · rename_i some
    have := List.length_pos_iff.mpr some
    simp only [Phase.left, List.length_take, List.length_drop, Option.isSome_none, Bool.false_eq_true, if_false,
      flowMaxParallel]
    omega
  · split
    · rename_i more
      have : maxLayer d - layer = (maxLayer d - (layer + 1)) + 1 := by omega
      simp only [Phase.left, List.length_nil]
      rw [this, Nat.add_mul]
      omega
    · simp only [Phase.left]
      omega

theorem main_left {success : Bool} (taken : main d st success = some st') : st'.left d < st.left d := by
  unfold State.left
  cases main_cases taken with
  | looks phase small =>
    unfold select
    dsimp only
    rw [phase]
    split
    · simp only [Phase.left]
      omega
    · split
      · simp only [Phase.left, State.mark]
        omega
      · split
        · simp only [Phase.left, State.mark]
          omega
        · simp only [Phase.left, List.length_append, List.length_singleton]
          omega
  | looked phase large =>
    rw [phase]
    simp only [Phase.left]
    omega
  | prepares phase =>
    rw [phase]
    simp only [Phase.left, List.length_cons]
    omega
  | @nexts layer rest phase =>
    have less := left_nextBatch (d := d) layer rest
    have before : st.phase.left d = (maxLayer d - layer) * (11 * d.n + 4) + (0 + 8 * rest.length + 2) := by
      obtain phase | phase := phase <;> rw [phase] <;> rfl
    rw [before]
    dsimp only
    omega
  | returns phase =>
    rw [phase]
    simp only [Phase.left, Option.isSome_none, Option.isSome_some, Bool.false_eq_true, if_false, if_true]
    omega
  | @spawns layer i todo batch rest phase =>
    have := active_start (d := d) st.worker i
    rw [phase]
    simp only [Phase.left, List.length_cons, Option.isSome_none, Bool.false_eq_true, if_false]
    have one : (if (if success then none else some i).isSome then 1 else 0) ≤ 1 := by split <;> simp
    omega
  | spawned phase =>
    rw [phase]
    simp only [Phase.left, List.length_nil, Option.isSome_none, Bool.false_eq_true, if_false]
    omega
  | joins phase ended =>
    rw [phase]
    simp only [Phase.left, List.length_cons]
    omega

theorem finish_phase (st : State) (i : Nat) (outcome : Int) : (finish st i outcome).phase = st.phase := by
  unfold finish
  dsimp only
  split
  · rfl
  · split <;> rfl

theorem finish_worker (st : State) (i : Nat) (outcome : Int) :
    (finish st i outcome).worker = Function.update st.worker i .finished := by
  unfold finish
  dsimp only
  split
  · rfl
  · split <;> rfl

theorem finish_aborted (st : State) (i : Nat) (outcome : Int) : (finish st i outcome).aborted = st.aborted := by
  unfold finish
  dsimp only
  split
  · rfl
  · split <;> rfl

namespace Orderly

variable (orderly : Orderly d st)
include orderly

theorem finish_left {i : Nat} {outcome : Int} (runs : st.worker i = .running) :
    (finish st i outcome).left d < st.left d := by
  have := active_end (orderly.running_of_worker runs).1 runs
  unfold State.left
  rw [finish_phase, finish_worker]
  omega

theorem worker_of_started {v : Nat} (held : v ∈ st.phase.held) (out : v ∉ st.phase.waiting) :
    st.worker v = .running ∨ st.worker v = .finished := by
  obtain ⟨started, whole, here⟩ := orderly.started
  rw [whole] at held
  exact (here v ((List.mem_append.mp held).resolve_right out)).imp Running.worker Finished.worker

theorem progress (ongoing : st.phase ≠ .done) : (∃ st', main d st true = some st') ∨ ∃ i, st.worker i = .running := by
  unfold main
  cases phase : st.phase with
  | select layer i runidx =>
    dsimp only
    split
    · exact Or.inl ⟨_, rfl⟩
    · exact Or.inl ⟨_, rfl⟩
  | prepare layer todo runidx =>
    cases todo with
    | nil => exact Or.inl ⟨_, rfl⟩
    | cons i todo => exact Or.inl ⟨_, rfl⟩
  | spawn layer todo batch rest inline =>
    cases inline with
    | none =>
      cases todo with
      | nil => exact Or.inl ⟨_, rfl⟩
      | cons i todo => exact Or.inl ⟨_, rfl⟩
    | some i =>
      have wf := orderly.wf
      rw [phase] at wf
      obtain ⟨held, out⟩ := wf i rfl
      obtain runs | ended := orderly.worker_of_started (by rw [phase]; exact held) (by rw [phase]; exact out)
      · exact Or.inr ⟨i, runs⟩
      · dsimp only
        rw [if_pos ended]
        exact Or.inl ⟨_, rfl⟩
  | join layer todo rest =>
    cases todo with
    | nil => exact Or.inl ⟨_, rfl⟩
    | cons i todo =>
      have nodup := orderly.nodup
      rw [phase] at nodup
      have out : i ∉ rest := fun member => (List.nodup_cons.mp nodup).1 (List.mem_append_right _ member)
      obtain runs | ended :=
        orderly.worker_of_started (by rw [phase]; exact List.mem_cons_self) (by rw [phase]; exact out)
      · exact Or.inr ⟨i, runs⟩
      · dsimp only
        rw [if_pos ended]
        exact Or.inl ⟨_, rfl⟩
  | done => exact absurd phase ongoing

theorem ends (later : ∀ u v, v ∈ d.adj u → layerOf d u < layerOf d v) :
    ∃ labels last, (machine d).Run st labels last ∧ last.phase = .done := by
  induction left : st.left d using Nat.strong_induction_on generalizing st with
  | h left ih =>
    by_cases done : st.phase = .done
    · exact ⟨[], st, Machine.Run.start st, done⟩
    obtain ⟨next, taken⟩ | ⟨i, runs⟩ := orderly.progress done
    · have step : FlowRun.step d st (.main true) = some next := taken
      obtain ⟨labels, last, run, reached⟩ := ih _ (left ▸ main_left taken) (orderly.step later step) rfl
      exact ⟨_, last, Machine.Run.cons step run, reached⟩
    · have step : FlowRun.step d st (.finish i 0) = some (finish st i 0) := if_pos runs
      obtain ⟨labels, last, run, reached⟩ := ih _ (left ▸ orderly.finish_left runs) (orderly.step later step) rfl
      exact ⟨_, last, Machine.Run.cons step run, reached⟩

end Orderly

variable {u v : Nat}

theorem Finished.ok (finished : Finished d st v) : st.marked v = [.ok] ↔ st.rc v = 0 := by
  obtain ⟨terminal, mark, same⟩ := finished.marked
  rw [mark, ← same, List.cons.injEq]
  exact and_iff_left rfl

theorem Skipped.not_ok (skipped : Skipped d st v) : st.marked v ≠ [.ok] := by
  obtain ⟨terminal, mark, notOk⟩ := skipped.marked
  rw [mark]
  intro this
  exact notOk (List.cons.inj this).1

theorem flowRun_spec {registered : Text → Bool} {root : Json} (starts : flowRun registered root = some d) :
    (∀ u v, v ∈ d.adj u → layerOf d u < layerOf d v) ∧ ∀ u v, v ∈ d.adj u ↔ Depends root d u v := by
  unfold flowRun at starts
  split at starts
  · cases starts
  rename_i graph parsed
  split at starts
  · cases starts
  rename_i all
  split at starts
  · obtain rfl := Option.some.inj starts
    obtain ⟨wf, -, -, depends⟩ := flowParse_spec parsed
    exact ⟨fun u v edge => flowLayer_lt wf (Nat.le_of_not_lt all) edge, depends⟩
  · cases starts

namespace Orderly

variable (orderly : Orderly d st)
include orderly

theorem cases (v : Nat) : Fresh st v ∨ Running d st v ∨ Finished d st v ∨ Skipped d st v := by
  by_cases seen : v < d.n ∧ st.phase.Passed d v
  · by_cases held : v ∈ st.phase.held
    · obtain ⟨started, whole, here⟩ := orderly.started
      rw [whole] at held
      obtain member | member := List.mem_append.mp held
      · exact (here v member).elim (fun this => Or.inr (Or.inl this)) fun this => Or.inr (Or.inr (Or.inl this))
      · exact Or.inl (orderly.waiting v member).toFresh
    · exact Or.inr (Or.inr (orderly.behind v seen.1 seen.2 held))
  · exact Or.inl (orderly.ahead v seen)

theorem preds_of_worker (runs : st.worker v ≠ .idle) : PredsOk d st v := by
  obtain fresh | running | finished | skipped := orderly.cases v
  · exact absurd fresh.worker runs
  · exact running.preds
  · exact finished.preds
  · exact absurd skipped.worker runs

theorem marked_of_finished (ended : st.worker v = .finished) (success : st.rc v = 0) : st.marked v = [.ok] := by
  obtain fresh | running | finished | skipped := orderly.cases v
  · exact absurd (ended.symm.trans fresh.worker) (by decide)
  · exact absurd (ended.symm.trans running.worker) (by decide)
  · exact finished.ok.mpr success
  · exact absurd (ended.symm.trans skipped.worker) (by decide)

theorem marked_le (v : Nat) : (st.marked v).length ≤ 1 := by
  obtain fresh | running | finished | skipped := orderly.cases v
  · rw [fresh.marked]
    exact Nat.zero_le 1
  · rw [running.marked]
    exact Nat.zero_le 1
  · obtain ⟨terminal, mark, -⟩ := finished.marked
    rw [mark]
    exact Nat.le_refl 1
  · obtain ⟨terminal, mark, -⟩ := skipped.marked
    rw [mark]
    exact Nat.le_refl 1

theorem layer_of_waiting (member : v ∈ st.phase.waiting) : st.phase.layer = some (layerOf d v) := by
  obtain ⟨started, whole, -⟩ := orderly.started
  refine (orderly.inside v ?_).2.2
  rw [whole]
  exact List.mem_append_right _ member

section

variable (done : st.phase = .done)
include done

theorem settled_of_done (small : v < d.n) : Finished d st v ∨ Skipped d st v := by
  refine orderly.behind v small ?_ ?_
  · rw [done]
    trivial
  · rw [done]
    exact List.not_mem_nil

theorem marked_of_done (small : v < d.n) : ∃ terminal, st.marked v = [terminal] := by
  obtain finished | skipped := orderly.settled_of_done done small
  · exact finished.marked.imp fun _ => And.left
  · exact skipped.marked.imp fun _ => And.left

theorem result_of_done : st.result = 0 ↔ ∀ v < d.n, st.marked v = [.ok] := by
  have failed : st.failed = true ↔ ∃ v < d.n, st.rc v ≠ 0 := by
    refine orderly.failed.trans (exists_congr fun v => and_congr_right fun _ => ?_)
    rw [done]
    simp [Phase.Passed, Phase.held]
  have result : st.result = 0 ↔ ¬st.failed = true := by
    unfold State.result
    by_cases failed : st.failed = true
    · rw [if_pos failed]
      exact iff_of_false (by decide) (not_not.mpr failed)
    · rw [if_neg failed]
      exact iff_of_true rfl failed
  rw [result, failed]
  push Not
  refine forall_congr' fun v => forall_congr' fun small => ?_
  obtain finished | skipped := orderly.settled_of_done done small
  · exact finished.ok.symm
  · exact ⟨fun success => absurd success skipped.rc, fun mark => absurd mark skipped.not_ok⟩

theorem idle_of_done (acyclic : ∀ u v, v ∈ d.adj u → layerOf d u < layerOf d v) (calm : st.aborted = false)
    (small : v < d.n) :
    st.worker v = .idle ↔
      ∃ u, st.worker u = .finished ∧ st.marked u ≠ [.ok] ∧ Relation.TransGen (fun u v => v ∈ d.adj u) u v := by
  constructor
  · intro idle
    -- by induction on the layer: a predecessor that was not run is itself after a failed node
    induction layer : layerOf d v using Nat.strong_induction_on generalizing v with
    | h layer ih =>
      obtain finished | skipped := orderly.settled_of_done done small
      · exact absurd (idle.symm.trans finished.worker) (by decide)
      obtain aborted | ⟨u, edge, -, failure⟩ := skipped.reason
      · rw [calm] at aborted
        cases aborted
      obtain finished | before := orderly.settled_of_done done (lt_of_adj edge)
      · exact ⟨u, finished.worker, fun mark => failure (finished.ok.mp mark), .single edge⟩
      · obtain ⟨w, worker, mark, path⟩ :=
          ih _ (layer ▸ acyclic u v edge) (lt_of_adj edge) before.worker rfl
        exact ⟨w, worker, mark, path.tail edge⟩
  · rintro ⟨u, worker, mark, path⟩
    by_contra runs
    -- every node on the way to a node that was run has succeeded
    induction path with
    | single edge =>
      obtain ⟨ended, success⟩ := orderly.preds_of_worker runs _ edge
      exact mark (orderly.marked_of_finished ended success)
    | tail path edge ih =>
      obtain ⟨ended, -⟩ := orderly.preds_of_worker runs _ edge
      exact ih (lt_of_adj edge) (by rw [ended]; decide)

end

end Orderly

theorem worker_of_step {label : Label} (taken : step d st label = some st') (runs : st'.worker v ≠ .idle) :
    st.worker v ≠ .idle ∨ v ∈ st.phase.waiting := by
  cases label with
  | cancel =>
    obtain rfl := Option.some.inj taken
    exact Or.inl runs
  | timeout =>
    obtain rfl := Option.some.inj taken
    exact Or.inl runs
  | finish i outcome =>
    unfold step at taken
    dsimp only at taken
    split at taken
    · rename_i running
      obtain rfl := Option.some.inj taken
      refine Or.inl ?_
      by_cases same : v = i
      · rw [same, running]
        decide
      · rwa [finish_worker, Function.update_of_ne same] at runs
    · cases taken
  | main success =>
    cases main_cases taken with
    | looks phase small =>
      unfold select at runs
      dsimp only at runs
      split at runs
      · exact Or.inl runs
      · split at runs
        · exact Or.inl runs
        · split at runs <;> exact Or.inl runs
    | @spawns layer i todo batch rest phase =>
      have waiting : st.phase.waiting = i :: (todo ++ rest) := by rw [phase]; rfl
      by_cases same : v = i
      · rw [waiting, same]
        exact Or.inr List.mem_cons_self
      · have runs : Function.update st.worker i .running v ≠ .idle := runs
        rw [Function.update_of_ne same] at runs
        exact Or.inl runs
    | _ => exact Or.inl runs

theorem waiting_nextBatch (layer : Nat) (rest : List Nat) : (nextBatch d layer rest).waiting ⊆ rest := by
  unfold nextBatch
  split
  · show rest.take flowMaxParallel ++ rest.drop flowMaxParallel ⊆ rest
    rw [List.take_append_drop]
    exact List.Subset.refl _
  · split
    · exact List.nil_subset _
    · exact List.nil_subset _

theorem waiting_of_step {label : Label} (aborted : st.aborted = true) (taken : step d st label = some st') :
    st'.aborted = true ∧ st'.phase.waiting ⊆ st.phase.waiting := by
  cases label with
  | cancel =>
    obtain rfl := Option.some.inj taken
    exact ⟨rfl, List.Subset.refl _⟩
  | timeout =>
    obtain rfl := Option.some.inj taken
    exact ⟨Bool.or_true _, List.Subset.refl _⟩
  | finish i outcome =>
    unfold step at taken
    dsimp only at taken
    split at taken
    · obtain rfl := Option.some.inj taken
      rw [finish_phase, finish_aborted]
      exact ⟨aborted, List.Subset.refl _⟩
    · cases taken
  | main success =>
    cases main_cases taken with
    | @looks layer i runidx phase small =>
      have waiting : st.phase.waiting = runidx := by rw [phase]; rfl
      rw [waiting]
      unfold select
      dsimp only
      split
      · exact ⟨aborted, List.Subset.refl _⟩
      · exact ⟨aborted, List.Subset.refl _⟩
    | @nexts layer rest phase =>
      have waiting : st.phase.waiting = rest := by obtain phase | phase := phase <;> rw [phase] <;> rfl
      exact ⟨aborted, by rw [waiting]; exact waiting_nextBatch layer rest⟩
    | spawns phase => exact ⟨aborted, by rw [phase]; exact List.subset_cons_self _ _⟩
    | looked phase _ | prepares phase | returns phase | spawned phase | joins phase _ =>
      exact ⟨aborted, by rw [phase]; exact List.Subset.refl _⟩

/-- The workers that are started after an abort are of nodes that waited for them already. -/
structure Late (st st' : State) : Prop where
  aborted : st'.aborted = true
  waiting : st'.phase.waiting ⊆ st.phase.waiting
  worker : ∀ v, st'.worker v ≠ .idle → st.worker v ≠ .idle ∨ v ∈ st.phase.waiting

theorem late_of_run (aborted : st.aborted = true) {labels : List Label} (run : (machine d).Run st labels st') :
    Late st st' := by
  refine @Machine.Run.invariant _ _ _ (fun now => Late st now) ?_ _ _ _ run
    ⟨aborted, List.Subset.refl _, fun _ => Or.inl⟩
  intro now label next late taken
  obtain ⟨still, fewer⟩ := waiting_of_step late.aborted taken
  refine ⟨still, List.Subset.trans fewer late.waiting, fun v runs => ?_⟩
  obtain before | waits := worker_of_step taken runs
  · exact late.worker v before
  · exact Or.inr (late.waiting waits)

/-- In every run of an accepted document, aborted at any time or not: a worker is started only when all
nodes before its node have succeeded; no node gets two terminal marks; after an abort only workers of
the layer being run are started; the flow can always come to its end; and then every node has a mark,
without an abort only the nodes after a failed one were not run, and the result is 0 exactly when all
nodes succeeded. -/
theorem flow_respects_dependencies {registered : Text → Bool} {root : Json} (starts : flowRun registered root = some d)
    {labels : List Label} (run : (machine d).Run start labels st) :
    (∀ label st', machine d st label st' → ∀ v, st.worker v = .idle → st'.worker v ≠ .idle → ∀ u, Depends root d u v →
        st.worker u = .finished ∧ st.marked u = [.ok]) ∧
      (∀ v, (st.marked v).length ≤ 1) ∧
      (st.aborted = true → ∀ more last, (machine d).Run st more last → ∀ v, st.worker v = .idle →
        last.worker v ≠ .idle → st.phase.layer = some (layerOf d v)) ∧
      (∃ more last, (machine d).Run st more last ∧ last.phase = .done) ∧
      (st.phase = .done →
        (∀ v < d.n, ∃ terminal, st.marked v = [terminal]) ∧
        (st.aborted = false → ∀ v < d.n, (st.worker v = .idle ↔
          ∃ u, st.worker u = .finished ∧ st.marked u ≠ [.ok] ∧ Relation.TransGen (Depends root d) u v)) ∧
        (st.result = 0 ↔ ∀ v < d.n, st.marked v = [.ok])) := by
  obtain ⟨later, depends⟩ := flowRun_spec starts
  have orderly := orderly_of_run later run
  refine ⟨?_, orderly.marked_le, ?_, orderly.ends later, fun done => ⟨?_, ?_, orderly.result_of_done done⟩⟩
  · intro label st' taken v idle runs u before
    have waits := (worker_of_step taken runs).resolve_left (not_not.mpr idle)
    obtain ⟨ended, success⟩ := (orderly.waiting v waits).preds u ((depends u v).mpr before)
    exact ⟨ended, orderly.marked_of_finished ended success⟩
  · intro aborted more last run v idle runs
    exact orderly.layer_of_waiting (((late_of_run aborted run).worker v runs).resolve_left (not_not.mpr idle))
  · exact fun v small => orderly.marked_of_done done small
  · intro calm v small
    have same : (fun u v => v ∈ d.adj u) = Depends root d := by
      funext u v
      exact propext (depends u v)
    rw [← same]
    exact orderly.idle_of_done done later calm small

def chain : Json :=
  .object
    [(ascii "nodes", .array
      [.object [(ascii "id", .string (ascii "a")), (ascii "agent", .string (ascii "w")),
          (ascii "task", .string (ascii "t"))],
        .object [(ascii "id", .string (ascii "b")), (ascii "agent", .string (ascii "w")),
          (ascii "task", .string (ascii "\x7b\x7ba\x7d\x7d"))]])]

def chainDag : FlowDag where
  nodes :=
    [{ id := ascii "a", agent := ascii "w", task := ascii "t", indeg := 0, adj := [1] },
      { id := ascii "b", agent := ascii "w", task := ascii "\x7b\x7ba\x7d\x7d", indeg := 1, adj := [] }]

/-- The first node fails, so the second is not run. -/
theorem chain_fails : ∃ st : State, st.marked 0 = [.error] ∧ st.marked 1 = [.blocked] ∧ st.result = -1 ∧
    (st.worker 1 = .idle ↔
      ∃ u, st.worker u = .finished ∧ st.marked u ≠ [.ok] ∧ Relation.TransGen (Depends chain chainDag) u 1) := by
  obtain ⟨labels, st, ran, done, calm, first, second, result⟩ :
      ∃ (labels : List Label) (st : State), Machine.exec (step chainDag) start labels = some st ∧ st.phase = .done ∧
        st.aborted = false ∧ st.marked 0 = [.error] ∧ st.marked 1 = [.blocked] ∧ st.result = -1 :=
    ⟨List.replicate 6 (.main true) ++ .finish 0 1 :: List.replicate 7 (.main true), _, rfl, rfl, rfl, rfl, rfl, rfl⟩
  have accepted : flowRun (fun _ => true) chain = some chainDag := by decide +kernel
  have all := flow_respects_dependencies accepted (Machine.run_ofPartial_of_exec ran)
  exact ⟨st, first, second, result, (all.2.2.2.2 done).2.1 calm 1 (by decide)⟩

end CognitiveOs.Runtime.FlowRun
