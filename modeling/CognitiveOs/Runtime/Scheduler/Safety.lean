import CognitiveOs.Runtime.Scheduler.Refinement

/-!
# Safety of every run of the scheduler

The invariants of the flow hold along every interleaving, and give what its users
rely on: the counters, one worker per task, affinity, and completions that are
neither lost nor repeated.
-/

namespace CognitiveOs.Runtime

open Foundation

structure Sound (s : System) : Prop where
  accounted : s.scheduler.flow.Accounted s.history
  counted : s.scheduler.flow.Counted
  affine : s.scheduler.flow.Affine s.history

theorem sound_new {workers maxWorkers maxActive : Nat} {initial : Scheduler}
    (created : schedulerNewLimited workers maxWorkers maxActive = some initial) :
    Sound { scheduler := initial } := by
  unfold schedulerNewLimited at created
  split at created
  next => cases created
  next valid =>
    obtain rfl := Option.some.inj created
    have staffed : 0 < workers := by omega
    refine ⟨⟨?_, ?_, ?_, ?_, ?_, ?_⟩, ⟨staffed, ?_, ?_, ?_, ?_⟩, ⟨?_, ?_, ?_⟩⟩ <;>
      simp [Scheduler.flow, Slots.total, Worker.held, Worker.running, Worker.delivering,
        Worker.settling, Worker.finishing, Worker.gone]

theorem Sound.step {s t : System} {a : Action} (sound : Sound s) (done : s.step a = some t) :
    Sound t := by
  unfold System.step at done
  obtain ⟨⟨scheduler, events⟩, moved, rfl⟩ := Option.map_eq_some_iff.mp done
  have move := Scheduler.step_move moved
  exact ⟨sound.accounted.move move, .move sound.accounted sound.counted move,
    .move sound.accounted sound.affine move⟩

theorem sound_of_reachable {s : System} (reached : Reachable s) : Sound s := by
  obtain ⟨_, _, _, _, _, created, run⟩ := reached
  exact run.invariant (fun _ _ _ sound done => sound.step done) (sound_new created)

namespace Scheduler

/-- Worker `w` has its hands on task `id`. -/
def Holds (s : Scheduler) (w id : Nat) : Prop :=
  w < s.workers ∧ id ∈ (s.worker w).tasks

def runningCount (s : Scheduler) : Nat :=
  Slots.total s.worker s.workers (·.running.length)

def yieldedCount (s : Scheduler) : Nat :=
  Slots.total s.worker s.workers (·.yielded.length)

/-- How often `id` is queued, running or yielded. -/
def places (s : Scheduler) (id : Nat) : Nat :=
  (s.queue.map Queued.id).count id + Slots.total s.worker s.workers (·.held.count id)

/-- How often a completion of `id` waits for its callback. -/
def undelivered (s : Scheduler) (id : Nat) : Nat :=
  Slots.total s.worker s.workers (·.delivering.count id)

def Progresses (s : Scheduler) : Prop :=
  ∃ w < s.workers, (s.step (.take w true)).isSome ∨ (s.step (.return w { done := true })).isSome ∨
    (s.step (.deliver w)).isSome ∨ (s.step (.settle w)).isSome

end Scheduler

variable {s : System}

theorem flow_total (s : Scheduler) (weight : Worker → Nat) :
    Slots.total s.flow.worker s.workers weight = Slots.total s.worker s.workers weight :=
  Slots.total_congr weight fun _ inside => Scheduler.flow_worker inside

theorem active_eq (sound : Sound s) :
    s.scheduler.active =
      s.scheduler.queue.length + s.scheduler.runningCount + s.scheduler.yieldedCount := by
  have counted := sound.counted.active
  have split : Slots.total s.scheduler.worker s.scheduler.workers (·.held.length) =
      s.scheduler.runningCount + s.scheduler.yieldedCount := by
    rw [Scheduler.runningCount, Scheduler.yieldedCount, ← Slots.total_add]
    simp [Worker.held]
  have same := flow_total s.scheduler (·.held.length)
  simp [Scheduler.flow] at counted same
  omega

theorem holder_unique (sound : Sound s) {v w id : Nat} (first : s.scheduler.Holds v id)
    (second : s.scheduler.Holds w id) : v = w := by
  by_contra distinct
  have bound := sound.accounted.tasks_le_one id
  have both := Slots.two_weights_le_total s.scheduler.worker (·.tasks.count id)
    first.1 second.1 distinct
  have same := flow_total s.scheduler (·.tasks.count id)
  have firstCount : 0 < (s.scheduler.worker v).tasks.count id := List.count_pos_iff.mpr first.2
  have secondCount : 0 < (s.scheduler.worker w).tasks.count id := List.count_pos_iff.mpr second.2
  have workers : s.scheduler.flow.workers = s.scheduler.workers := rfl
  rw [workers, same] at bound
  omega

theorem accepted_somewhere (sound : Sound s) {id : Nat} (accepted : .accepted id ∈ s.history) :
    s.scheduler.places id + s.history.countP (Event.completes id) = 1 := by
  have once := sound.accounted.once id
  have placed := sound.accounted.placed id
  have positive : 0 < s.history.count (.accepted id) := List.count_pos_iff.mpr accepted
  have same := flow_total s.scheduler (·.held.count id)
  simp only [Scheduler.flow, Multiset.coe_count] at placed same
  simp only [Scheduler.places]
  omega

theorem completions_delivered (sound : Sound s) (id : Nat) :
    s.history.countP (Event.completes id) =
      s.scheduler.undelivered id + s.history.countP (Event.delivers id) := by
  have delivered := sound.accounted.delivered id
  have same := flow_total s.scheduler (·.delivering.count id)
  simp only [Scheduler.flow] at delivered same
  simp only [Scheduler.undelivered]
  omega

theorem stopped_worker (sound : Sound s) {w : Nat} (inside : w < s.scheduler.workers)
    (stopped : (s.scheduler.worker w).phase = .exited) :
    s.scheduler.shutdownFlag = true ∧ s.scheduler.queue = [] ∧
      s.scheduler.worker w = { phase := .exited } := by
  have slot := Scheduler.flow_worker (s := s.scheduler) inside
  obtain ⟨stopping, empty, done⟩ := sound.counted.stopped w (by rw [slot, stopped])
  refine ⟨stopping, by simpa [Scheduler.flow] using empty, ?_⟩
  rw [slot] at done
  rw [← stopped, ← done]

theorem all_stopped (sound : Sound s) (gone : s.scheduler.exited = s.scheduler.workers) :
    s.scheduler.shutdownFlag = true ∧ s.scheduler.queue = [] ∧
      ∀ w < s.scheduler.workers, s.scheduler.worker w = { phase := .exited } := by
  have counted := sound.counted.exited
  have same := flow_total s.scheduler Worker.gone
  have full : Slots.total s.scheduler.worker s.scheduler.workers Worker.gone =
      s.scheduler.workers := (same.symm.trans counted.symm).trans gone
  have each := Slots.weight_eq_one_of_full Worker.gone_le_one full
  have stopped (w : Nat) (inside : w < s.scheduler.workers) :=
    stopped_worker sound inside (Worker.gone_eq_one_iff.mp (each w inside))
  obtain ⟨stopping, empty, -⟩ := stopped 0 sound.counted.staffed
  exact ⟨stopping, empty, fun w inside => (stopped w inside).2.2⟩

theorem worker_progresses (sound : Sound s) {w : Nat} (inside : w < s.scheduler.workers)
    (work : s.scheduler.queue ≠ [] ∨ (s.scheduler.worker w).tasks ≠ []) :
    s.scheduler.Progresses := by
  refine ⟨w, inside, ?_⟩
  cases phase : (s.scheduler.worker w).phase with
  | waiting =>
    refine .inl ?_
    cases yielded : (s.scheduler.worker w).yielded with
    | cons id rest => simp [Scheduler.step, workerTake, inside, phase, yielded]
    | nil =>
      have queued : s.scheduler.queue ≠ [] := by
        refine work.resolve_right fun held => held ?_
        simp [Worker.tasks, Worker.held, Worker.running, Worker.delivering, Worker.settling,
          phase, yielded]
      obtain ⟨⟨t, queue⟩, popped⟩ :=
        Option.isSome_iff_exists.mp (Heap.pop_isSome taskLess queued)
      have popped : queuePop s.scheduler.queue = some (t, queue) := popped
      simp [Scheduler.step, workerTake, inside, phase, yielded, popped]
  | running id =>
    refine .inr (.inl ?_)
    simp only [Scheduler.step, workerReturn, phase, inside, if_true]
    split <;> simp
  | delivering id cb => simp [Scheduler.step, workerDeliver, phase, inside]
  | settling id => simp [Scheduler.step, workerSettle, phase, inside]
  | exited =>
    obtain ⟨-, empty, slot⟩ := stopped_worker sound inside phase
    simp [empty, slot, Worker.tasks, Worker.held, Worker.running, Worker.delivering,
      Worker.settling] at work

theorem progresses (sound : Sound s)
    (unfinished : 0 < s.scheduler.active ∨ 0 < s.scheduler.completing) :
    s.scheduler.Progresses := by
  rcases unfinished with active | completing
  · by_cases queued : s.scheduler.queue = []
    · have counted := active_eq sound
      have positive : 0 < Slots.total s.scheduler.worker s.scheduler.workers
          (fun w => w.running.length + w.yielded.length) := by
        rw [Slots.total_add]
        simp only [queued, List.length_nil, Scheduler.runningCount, Scheduler.yieldedCount]
          at counted
        omega
      obtain ⟨w, inside, holding⟩ := Slots.exists_of_total_pos positive
      refine worker_progresses sound inside (.inr fun none => ?_)
      simp [Worker.tasks, Worker.held] at none
      simp [none] at holding
    · exact worker_progresses sound sound.counted.staffed (.inl queued)
  · have counted := sound.counted.completing
    have same := flow_total s.scheduler Worker.finishing
    have positive : 0 < Slots.total s.scheduler.worker s.scheduler.workers Worker.finishing := by
      simp only [Scheduler.flow] at counted same
      omega
    obtain ⟨w, inside, finishing⟩ := Slots.exists_of_total_pos positive
    refine worker_progresses sound inside (.inr fun none => ?_)
    cases phase : (s.scheduler.worker w).phase <;>
      simp_all [Worker.tasks, Worker.finishing, Worker.delivering, Worker.settling]

/-- In every reachable state the counters agree with the places of the tasks, no two workers
hold a task, a continuation resumes only on its worker, and each accepted task is on its way
or completed and delivered once, as every one is when all workers have exited. -/
theorem reachable_safe (reached : Reachable s) :
    s.scheduler.active =
        s.scheduler.queue.length + s.scheduler.runningCount + s.scheduler.yieldedCount ∧
      (∀ v w id, s.scheduler.Holds v id → s.scheduler.Holds w id → v = w) ∧
      (∀ later w id earlier, s.history = later ++ .resumed w id :: earlier →
        earlier.find? (Event.about id) = some (.yielded w id)) ∧
      (∀ id, .accepted id ∈ s.history →
        s.scheduler.places id + s.history.countP (Event.completes id) = 1 ∧
        s.scheduler.undelivered id + s.history.countP (Event.delivers id) =
          s.history.countP (Event.completes id)) ∧
      (0 < s.scheduler.active ∨ 0 < s.scheduler.completing → s.scheduler.Progresses) ∧
      (s.scheduler.exited = s.scheduler.workers →
        s.scheduler.shutdownFlag = true ∧ s.scheduler.queue = [] ∧
        s.scheduler.active = 0 ∧ s.scheduler.completing = 0 ∧
        ∀ id, .accepted id ∈ s.history →
          s.history.countP (Event.completes id) = 1 ∧
          s.history.countP (Event.delivers id) = 1) := by
  have sound := sound_of_reachable reached
  refine ⟨active_eq sound, fun _ _ _ => holder_unique sound, sound.affine.resumed,
    fun id accepted => ⟨accepted_somewhere sound accepted, (completions_delivered sound id).symm⟩,
    progresses sound, fun gone => ?_⟩
  obtain ⟨stopping, empty, slots⟩ := all_stopped sound gone
  have vacant (weight : Worker → Nat) (none : weight { phase := .exited } = 0) :
      Slots.total s.scheduler.worker s.scheduler.workers weight = 0 :=
    Slots.total_eq_zero_iff.mpr fun w inside => by rw [slots w inside, none]
  refine ⟨stopping, empty, ?_, ?_, fun id accepted => ?_⟩
  · have counted := active_eq sound
    rw [empty, Scheduler.runningCount, Scheduler.yieldedCount, vacant (·.running.length) rfl,
      vacant (·.yielded.length) rfl] at counted
    simpa using counted
  · have counted := sound.counted.completing
    have same := flow_total s.scheduler Worker.finishing
    rw [vacant Worker.finishing rfl] at same
    simp only [Scheduler.flow] at counted same
    omega
  · have places := accepted_somewhere sound accepted
    have delivered := completions_delivered sound id
    simp only [Scheduler.places, empty, vacant (·.held.count id) rfl] at places
    simp only [Scheduler.undelivered, vacant (·.delivering.count id) rfl] at delivered
    simp at places
    omega

def drainedRun : List Action :=
  [.submit {}, .submit { priority := 1 }, .take 0 true, .take 1 true, .return 0 { done := false },
    .take 0 true, .shutdown, .return 1 { done := true }, .return 0 { done := true }, .deliver 0,
    .deliver 1, .settle 1, .settle 0, .take 0 true, .take 1 true]

theorem reachable_safe_drained :
    ∃ s, Reachable s ∧ s.scheduler.exited = s.scheduler.workers ∧ .accepted 0 ∈ s.history ∧
      s.scheduler.active = 0 ∧ s.history.countP (Event.completes 0) = 1 ∧
      s.history.countP (Event.delivers 0) = 1 := by
  have finishes : (Machine.exec System.step { scheduler := { workers := 2, maxWorkers := 4, maxActive := 0 } } drainedRun).any fun s =>
      s.scheduler.exited = s.scheduler.workers ∧ .accepted 0 ∈ s.history := by
    decide
  obtain ⟨s, run, finished⟩ := (Option.any_eq_true _ _).mp finishes
  obtain ⟨gone, accepted⟩ := of_decide_eq_true finished
  have reached : Reachable s := ⟨2, 4, 0, _, drainedRun, rfl, Machine.run_ofPartial_of_exec run⟩
  obtain ⟨-, -, -, -, -, drained⟩ := reachable_safe reached
  obtain ⟨-, -, active, -, delivered⟩ := drained gone
  exact ⟨s, reached, gone, accepted, active, delivered 0 accepted⟩

end CognitiveOs.Runtime
