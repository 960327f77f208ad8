import CognitiveOs.Foundation.Slots
import CognitiveOs.Runtime.Scheduler.Model

/-!
# The flow of tasks

What a scheduler is for, without priorities, statuses or history limits: a bag of
queued tasks, workers that hold some, and the events that move a task on. The
invariants of a run are proved here, one move at a time.
-/

namespace CognitiveOs.Runtime

open Foundation

/-- The tasks and workers of a scheduler, as far as tasks move between them. -/
structure Flow where
  queue : Multiset Nat
  workers : Nat
  worker : Nat → Worker
  active : Int
  completing : Int
  exited : Nat
  shutdownFlag : Bool
  nextId : Nat
  /-- The tasks whose coroutine has started. -/
  begun : Nat → Bool

namespace Worker

def running (worker : Worker) : List Nat :=
  match worker.phase with
  | .running id => [id]
  | _ => []

def held (worker : Worker) : List Nat :=
  worker.running ++ worker.yielded

def delivering (worker : Worker) : List Nat :=
  match worker.phase with
  | .delivering id _ => [id]
  | _ => []

def settling (worker : Worker) : List Nat :=
  match worker.phase with
  | .settling id => [id]
  | _ => []

def tasks (worker : Worker) : List Nat :=
  worker.held ++ worker.delivering ++ worker.settling

def finishing (worker : Worker) : Nat :=
  match worker.phase with
  | .delivering _ _ | .settling _ => 1
  | _ => 0

def gone (worker : Worker) : Nat :=
  match worker.phase with
  | .exited => 1
  | _ => 0

theorem gone_le_one (worker : Worker) : worker.gone ≤ 1 := by
  unfold gone
  split <;> simp

theorem gone_eq_one_iff {worker : Worker} : worker.gone = 1 ↔ worker.phase = .exited := by
  unfold gone
  split <;> simp_all

end Worker

namespace Event

def completes (id : Nat) : Event → Bool
  | .completed _ task => task == id
  | _ => false

def delivers (id : Nat) : Event → Bool
  | .delivered _ task _ => task == id
  | _ => false

def about (id : Nat) : Event → Bool
  | .accepted task | .started _ task | .resumed _ task | .yielded _ task
  | .completed _ task | .delivered _ task _ => task == id

end Event

namespace Flow

def setWorker (f : Flow) (w : Nat) (worker : Worker) : Flow :=
  { f with worker := Function.update f.worker w worker }

def began (f : Flow) (w id : Nat) : Event :=
  if f.begun id then .resumed w id else .started w id

inductive Move (f : Flow) : List Event → Flow → Prop where
  | quiet {shutdownFlag : Bool} {nextId : Nat} :
      (f.shutdownFlag → shutdownFlag) → f.nextId ≤ nextId →
      Move f [] { f with shutdownFlag, nextId }
  | accept {workers : Nat} :
      f.shutdownFlag = false → f.workers ≤ workers →
      Move f [.accepted f.nextId] { f with
        queue := f.nextId ::ₘ f.queue
        workers
        active := f.active + 1
        nextId := f.nextId + 1
        begun := Function.update f.begun f.nextId false }
  | resume {w id : Nat} {rest : List Nat} (begun : Bool) :
      w < f.workers → f.worker w = { phase := .waiting, yielded := id :: rest } →
      Move f [f.began w id] { f.setWorker w { phase := .running id, yielded := rest } with
        begun := Function.update f.begun id (f.begun id || begun) }
  | pop {w id : Nat} {queue : Multiset Nat} (begun : Bool) :
      w < f.workers → f.worker w = { phase := .waiting, yielded := [] } →
      f.queue = id ::ₘ queue →
      Move f [f.began w id] { f.setWorker w { phase := .running id, yielded := [] } with
        queue
        begun := Function.update f.begun id (f.begun id || begun) }
  | exit {w : Nat} :
      w < f.workers → f.worker w = { phase := .waiting, yielded := [] } →
      f.queue = 0 → f.shutdownFlag = true →
      Move f [] { f.setWorker w { phase := .exited, yielded := [] } with exited := f.exited + 1 }
  | yield {w id : Nat} {rest : List Nat} :
      w < f.workers → f.worker w = { phase := .running id, yielded := rest } →
      Move f [.yielded w id] (f.setWorker w { phase := .waiting, yielded := rest ++ [id] })
  | complete {w id : Nat} {rest : List Nat} (cb : Option Nat) :
      w < f.workers → f.worker w = { phase := .running id, yielded := rest } →
      Move f [.completed w id] { f.setWorker w { phase := .delivering id cb, yielded := rest } with
        active := f.active - 1
        completing := f.completing + 1
        begun := Function.update f.begun id false }
  | deliver {w id : Nat} {rest : List Nat} {cb : Option Nat} :
      w < f.workers → f.worker w = { phase := .delivering id cb, yielded := rest } →
      Move f [.delivered w id cb] (f.setWorker w { phase := .settling id, yielded := rest })
  | settle {w id : Nat} {rest : List Nat} :
      w < f.workers → f.worker w = { phase := .settling id, yielded := rest } →
      Move f [] { f.setWorker w { phase := .waiting, yielded := rest } with
        completing := f.completing - 1 }

/-- Every accepted task is in one place: queued, held by a worker, or completed. -/
structure Accounted (f : Flow) (history : List Event) : Prop where
  idle : ∀ w, f.workers ≤ w → f.worker w = {}
  once : ∀ id, history.count (.accepted id) ≤ 1
  fresh : ∀ id, f.nextId ≤ id → history.count (.accepted id) = 0
  placed : ∀ id, history.count (.accepted id) =
    f.queue.count id + Slots.total f.worker f.workers (·.held.count id) +
      history.countP (Event.completes id)
  delivered : ∀ id, history.countP (Event.completes id) =
    Slots.total f.worker f.workers (·.delivering.count id) + history.countP (Event.delivers id)
  settled : ∀ id,
    Slots.total f.worker f.workers (·.settling.count id) ≤ history.countP (Event.delivers id)

/-- The counters say how many tasks and workers are in each place. -/
structure Counted (f : Flow) : Prop where
  staffed : 0 < f.workers
  active : f.active = f.queue.card + Slots.total f.worker f.workers (·.held.length)
  completing : f.completing = Slots.total f.worker f.workers Worker.finishing
  exited : f.exited = Slots.total f.worker f.workers Worker.gone
  stopped : ∀ w, (f.worker w).phase = .exited →
    f.shutdownFlag = true ∧ f.queue = 0 ∧ (f.worker w).yielded = []

structure Affine (f : Flow) (history : List Event) : Prop where
  cold : ∀ id, id ∈ f.queue → f.begun id = false
  owned : ∀ w id, id ∈ (f.worker w).yielded →
    history.find? (Event.about id) = some (.yielded w id)
  resumed : ∀ later w id earlier, history = later ++ .resumed w id :: earlier →
    earlier.find? (Event.about id) = some (.yielded w id)

variable {f next : Flow} {history events : List Event}

variable {w : Nat} {old : Worker}

theorem total_setWorker (inside : w < f.workers) (slot : f.worker w = old) (new : Worker) (weight : Worker → Nat) :
    Slots.total (f.setWorker w new).worker f.workers weight + weight old =
      Slots.total f.worker f.workers weight + weight new := by
  rw [← slot]
  exact Slots.total_update weight inside new

theorem idle_setWorker (idle : ∀ v, f.workers ≤ v → f.worker v = {}) (inside : w < f.workers) (new : Worker) :
    ∀ v, f.workers ≤ v → (f.setWorker w new).worker v = {} := by
  intro v outside
  have distinct : v ≠ w := by omega
  simpa [setWorker, Function.update_of_ne distinct] using idle v outside

theorem Accounted.workerMove (kept : Accounted f history) (inside : w < f.workers) (slot : f.worker w = old)
    (new : Worker) (worker : next.worker = (f.setWorker w new).worker) (workers : next.workers = f.workers)
    (nextId : next.nextId = f.nextId) (accepts : ∀ id, events.count (.accepted id) = 0)
    (places : ∀ id, f.queue.count id + old.held.count id =
      next.queue.count id + new.held.count id + events.countP (Event.completes id))
    (finishes : ∀ id, events.countP (Event.completes id) + old.delivering.count id =
      new.delivering.count id + events.countP (Event.delivers id)) (settles : ∀ id, new.settling.count id ≤
      old.settling.count id + events.countP (Event.delivers id)) : Accounted next (events ++ history) := by
  refine ⟨?_, ?_, ?_, ?_, ?_, ?_⟩
  · rw [worker, workers]
    exact idle_setWorker kept.idle inside new
  · intro id
    simpa [accepts id] using kept.once id
  · intro id beyond
    simpa [accepts id] using kept.fresh id (by omega)
  · intro id
    have before := kept.placed id
    have moved := total_setWorker inside slot new (·.held.count id)
    have balance := places id
    rw [List.count_append, List.countP_append, worker, workers, accepts id]
    omega
  · intro id
    have before := kept.delivered id
    have moved := total_setWorker inside slot new (·.delivering.count id)
    have balance := finishes id
    rw [List.countP_append, List.countP_append, worker, workers]
    omega
  · intro id
    have before := kept.settled id
    have moved := total_setWorker inside slot new (·.settling.count id)
    have balance := settles id
    rw [List.countP_append, worker, workers]
    omega

@[simp] theorem setWorker_queue (f : Flow) (w : Nat) (worker : Worker) :
    (f.setWorker w worker).queue = f.queue := rfl

@[simp] theorem setWorker_workers (f : Flow) (w : Nat) (worker : Worker) :
    (f.setWorker w worker).workers = f.workers := rfl

@[simp] theorem began_ne_accepted (w id task : Nat) : f.began w id ≠ .accepted task := by
  unfold began
  split <;> simp

@[simp] theorem completes_began (w id task : Nat) :
    Event.completes task (f.began w id) = false := by
  unfold began
  split <;> rfl

@[simp] theorem delivers_began (w id task : Nat) :
    Event.delivers task (f.began w id) = false := by
  unfold began
  split <;> rfl

@[simp] theorem about_began (w id task : Nat) :
    Event.about task (f.began w id) = (id == task) := by
  unfold began
  split <;> rfl

theorem Accounted.accept (kept : Accounted f history) {workers : Nat}
    (grown : f.workers ≤ workers) (worker : next.worker = f.worker)
    (staff : next.workers = workers) (nextId : next.nextId = f.nextId + 1)
    (queue : next.queue = f.nextId ::ₘ f.queue) :
    Accounted next (.accepted f.nextId :: history) := by
  have vacant (weight : Worker → Nat) (none : weight {} = 0) :
      Slots.total f.worker workers weight = Slots.total f.worker f.workers weight :=
    Slots.total_grow grown fun w outside => by rw [kept.idle w outside, none]
  refine ⟨?_, ?_, ?_, ?_, ?_, ?_⟩
  · rw [worker, staff]
    exact fun w outside => kept.idle w (le_trans grown outside)
  · intro id
    by_cases same : f.nextId = id
    · subst same
      simp [kept.fresh _ le_rfl]
    · simpa [same] using kept.once id
  · intro id beyond
    have distinct : f.nextId ≠ id := by omega
    simpa [distinct] using kept.fresh id (by omega)
  · intro id
    have before := kept.placed id
    rw [worker, staff, queue, vacant (·.held.count id) rfl]
    by_cases same : f.nextId = id
    · subst same
      simp [Event.completes]
      omega
    · simp [Event.completes, same, Ne.symm same]
      omega
  · intro id
    rw [worker, staff, vacant (·.delivering.count id) rfl]
    simpa [Event.completes, Event.delivers] using kept.delivered id
  · intro id
    rw [worker, staff, vacant (·.settling.count id) rfl]
    simpa [Event.delivers] using kept.settled id

theorem Accounted.move (kept : Accounted f history) (taken : Move f events next) :
    Accounted next (events ++ history) := by
  cases taken with
  | quiet _ later =>
    exact ⟨kept.idle, kept.once, fun id beyond => kept.fresh id (le_trans later beyond),
      kept.placed, kept.delivered, kept.settled⟩
  | accept _ grown => exact kept.accept grown rfl rfl rfl rfl
  | resume _ inside slot =>
    refine kept.workerMove inside slot _ rfl rfl rfl (by simp) (fun id => ?_) ?_ ?_
    · simp [Worker.held, Worker.running, List.count_cons]
    · simp [Worker.delivering]
    · simp [Worker.settling]
  | pop _ inside slot popped =>
    refine kept.workerMove inside slot _ rfl rfl rfl (by simp) (fun id => ?_) ?_ ?_
    · simp [Worker.held, Worker.running, popped, List.count_cons, Multiset.count_cons,
        @eq_comm _ id]
    · simp [Worker.delivering]
    · simp [Worker.settling]
  | complete _ inside slot =>
    refine kept.workerMove inside slot _ rfl rfl rfl (by simp) (fun id => ?_) ?_ ?_
    · simp [Worker.held, Worker.running, List.count_cons, Event.completes]
      omega
    · simp [Worker.delivering, List.count_cons, Event.completes, Event.delivers]
    · simp [Worker.settling]
  | exit inside slot | yield inside slot | deliver inside slot | settle inside slot =>
    refine kept.workerMove inside slot _ rfl rfl rfl (by simp) (fun id => ?_) ?_ ?_
    · simp [Worker.held, Worker.running, List.count_cons, Event.completes]
    · simp [Worker.delivering, List.count_cons, Event.completes, Event.delivers]
    · simp [Worker.settling, List.count_cons, Event.delivers]

variable {new : Worker}

theorem Counted.workerMove (kept : Counted f) (inside : w < f.workers) (slot : f.worker w = old)
    (worker : next.worker = (f.setWorker w new).worker) (workers : next.workers = f.workers)
    (shutdownFlag : next.shutdownFlag = f.shutdownFlag) (active : next.active - f.active =
      next.queue.card + new.held.length - (f.queue.card + old.held.length))
    (completing : next.completing - f.completing = new.finishing - old.finishing)
    (exited : next.exited + old.gone = f.exited + new.gone) (shrinks : f.queue = 0 → next.queue = 0)
    (stops : new.phase = .exited → f.shutdownFlag = true ∧ next.queue = 0 ∧ new.yielded = []) : Counted next := by
  refine ⟨?_, ?_, ?_, ?_, ?_⟩
  · rw [workers]
    exact kept.staffed
  · have before := kept.active
    have moved := total_setWorker inside slot new (·.held.length)
    rw [worker, workers]
    omega
  · have before := kept.completing
    have moved := total_setWorker inside slot new Worker.finishing
    rw [worker, workers]
    omega
  · have before := kept.exited
    have moved := total_setWorker inside slot new Worker.gone
    rw [worker, workers]
    omega
  · intro v stopped
    rw [worker] at stopped ⊢
    rw [shutdownFlag]
    by_cases same : v = w
    · subst same
      simp only [setWorker, Function.update_self] at stopped ⊢
      exact stops stopped
    · simp only [setWorker, Function.update_of_ne same] at stopped ⊢
      obtain ⟨stopping, empty, done⟩ := kept.stopped v stopped
      exact ⟨stopping, shrinks empty, done⟩

theorem Counted.move (account : Accounted f history) (kept : Counted f)
    (taken : Move f events next) : Counted next := by
  cases taken with
  | quiet still =>
    refine ⟨kept.staffed, kept.active, kept.completing, kept.exited, fun w stopped => ?_⟩
    obtain ⟨stopping, rest⟩ := kept.stopped w stopped
    exact ⟨still stopping, rest⟩
  | @accept workers running grown =>
    have vacant (weight : Worker → Nat) (none : weight {} = 0) :
        Slots.total f.worker workers weight = Slots.total f.worker f.workers weight :=
      Slots.total_grow grown fun w outside => by rw [account.idle w outside, none]
    refine ⟨lt_of_lt_of_le kept.staffed grown, ?_, ?_, ?_, ?_⟩
    · have before := kept.active
      simp only [vacant (·.held.length) rfl, Multiset.card_cons]
      omega
    · simpa only [vacant Worker.finishing rfl] using kept.completing
    · simpa only [vacant Worker.gone rfl] using kept.exited
    · intro w stopped
      have stopping := (kept.stopped w stopped).1
      simp [running] at stopping
  | resume _ inside slot =>
    refine kept.workerMove inside slot rfl rfl rfl ?_ ?_ ?_ ?_ ?_ <;>
      simp [Worker.held, Worker.running, Worker.finishing, Worker.gone, setWorker]
  | pop _ inside slot popped =>
    refine kept.workerMove inside slot rfl rfl rfl ?_ ?_ ?_ ?_ ?_ <;>
      simp [Worker.held, Worker.running, Worker.finishing, Worker.gone, setWorker, popped]
  | exit inside slot empty stopping =>
    refine kept.workerMove inside slot rfl rfl rfl ?_ ?_ ?_ ?_ ?_ <;>
      simp [Worker.held, Worker.running, Worker.finishing, Worker.gone, setWorker, empty, stopping]
  | yield inside slot | complete _ inside slot | deliver inside slot | settle inside slot =>
    refine kept.workerMove inside slot rfl rfl rfl ?_ ?_ ?_ ?_ ?_ <;>
      simp [Worker.held, Worker.running, Worker.finishing, Worker.gone, setWorker]

theorem Accounted.places_le_one (account : Accounted f history) (id : Nat) :
    f.queue.count id + Slots.total f.worker f.workers (·.held.count id) +
      history.countP (Event.completes id) ≤ 1 := by
  rw [← account.placed id]
  exact account.once id

variable {id : Nat}

theorem Accounted.inside_of_held (account : Accounted f history) (held : id ∈ (f.worker w).held) : w < f.workers := by
  by_contra outside
  rw [account.idle w (by omega)] at held
  simp [Worker.held, Worker.running] at held

theorem Accounted.tasks_le_one (account : Accounted f history) (id : Nat) :
    Slots.total f.worker f.workers (·.tasks.count id) ≤ 1 := by
  have split : Slots.total f.worker f.workers (·.tasks.count id) =
      Slots.total f.worker f.workers (·.held.count id) +
        Slots.total f.worker f.workers (·.delivering.count id) +
          Slots.total f.worker f.workers (·.settling.count id) := by
    rw [← Slots.total_add, ← Slots.total_add]
    exact Finset.sum_congr rfl fun w _ => by simp [Worker.tasks, Nat.add_assoc]
  have places := account.places_le_one id
  have delivered := account.delivered id
  have settled := account.settled id
  omega

theorem Accounted.held_exclusive (account : Accounted f history) (held : id ∈ (f.worker w).held) :
    id ∉ f.queue ∧ history.countP (Event.completes id) = 0 ∧
      (f.worker w).held.count id = 1 ∧ ∀ v, id ∈ (f.worker v).held → v = w := by
  have inside := account.inside_of_held held
  have places := account.places_le_one id
  have here := Slots.weight_le_total f.worker (·.held.count id) inside
  have positive : 0 < (f.worker w).held.count id := List.count_pos_iff.mpr held
  refine ⟨fun queued => ?_, by omega, by omega, fun v other => ?_⟩
  · have : 0 < f.queue.count id := Multiset.count_pos.mpr queued
    omega
  · by_contra distinct
    have both := Slots.two_weights_le_total f.worker (·.held.count id)
      (account.inside_of_held other) inside distinct
    have : 0 < (f.worker v).held.count id := List.count_pos_iff.mpr other
    omega

theorem Accounted.yielded_exclusive (account : Accounted f history) (yielded : id ∈ (f.worker w).yielded) :
    id ∉ f.queue ∧ history.countP (Event.completes id) = 0 ∧
      ∀ v, (f.worker v).phase ≠ .running id := by
  obtain ⟨unqueued, unfinished, single, owner⟩ :=
    account.held_exclusive (List.mem_append_right _ yielded)
  refine ⟨unqueued, unfinished, fun v running => ?_⟩
  have held : id ∈ (f.worker v).held := by simp [Worker.held, Worker.running, running]
  obtain rfl := owner v held
  have twice : 0 < (f.worker v).yielded.count id := List.count_pos_iff.mpr yielded
  simp [Worker.held, Worker.running, running] at single
  omega

theorem Affine.taskMove (kept : Affine f history) {event : Event}
    (event_about : ∀ task, event.about task = (id == task))
    (cold : ∀ task, task ∈ next.queue → next.begun task = false) (owned : ∀ v task, task ∈ (next.worker v).yielded →
      (task = id ∧ event = .yielded v id) ∨ (task ≠ id ∧ task ∈ (f.worker v).yielded))
    (resumes : ∀ v task, event = .resumed v task →
      history.find? (Event.about task) = some (.yielded v task)) : Affine next (event :: history) := by
  refine ⟨cold, ?_, ?_⟩
  · intro v task yielded
    rcases owned v task yielded with ⟨rfl, rfl⟩ | ⟨distinct, old⟩
    · simp [Event.about]
    · rw [List.find?_cons_of_neg (by simp [event_about, Ne.symm distinct])]
      exact kept.owned v task old
  · intro later v task earlier split
    cases later with
    | nil =>
      obtain ⟨rfl, rfl⟩ := List.cons.inj split
      exact resumes v task rfl
    | cons head later =>
      exact kept.resumed later v task earlier (List.cons.inj split).2

theorem yielded_setWorker {v task : Nat} (yielded : task ∈ ((f.setWorker w new).worker v).yielded) :
    (v = w ∧ task ∈ new.yielded) ∨ (v ≠ w ∧ task ∈ (f.worker v).yielded) := by
  by_cases same : v = w
  · subst same
    exact .inl ⟨rfl, by simpa [setWorker] using yielded⟩
  · exact .inr ⟨same, by simpa [setWorker, Function.update_of_ne same] using yielded⟩

theorem yielded_of_setWorker {v task : Nat} (part : new.yielded ⊆ (f.worker w).yielded)
    (yielded : task ∈ ((f.setWorker w new).worker v).yielded) : task ∈ (f.worker v).yielded := by
  rcases yielded_setWorker yielded with ⟨rfl, mine⟩ | ⟨-, old⟩
  · exact part mine
  · exact old

theorem Affine.move (before : Accounted f history) (kept : Affine f history)
    (taken : Move f events next) : Affine next (events ++ history) := by
  have after := before.move taken
  cases taken with
  | quiet => exact ⟨kept.cold, kept.owned, kept.resumed⟩
  | accept =>
    refine kept.taskMove (fun _ => rfl) ?_ ?_ (by simp)
    · intro id queued
      by_cases same : id = f.nextId
      · simp [same]
      · have old := (Multiset.mem_cons.mp queued).resolve_left same
        simpa [Function.update_of_ne same] using kept.cold id old
    · intro w id yielded
      refine .inr ⟨?_, yielded⟩
      rintro rfl
      exact (after.yielded_exclusive yielded).1 (Multiset.mem_cons_self _ _)
  | @resume w id rest begun inside slot =>
    have mine : id ∈ (f.worker w).yielded := by simp [slot]
    refine kept.taskMove (fun _ => about_began _ _ _) ?_ ?_ ?_
    · intro task queued
      have distinct : task ≠ id := by
        rintro rfl
        exact (before.yielded_exclusive mine).1 queued
      simpa [Function.update_of_ne distinct] using kept.cold task queued
    · intro v task yielded
      refine .inr ⟨?_, ?_⟩
      · rintro rfl
        exact (after.yielded_exclusive yielded).2.2 w (by simp [setWorker])
      · exact yielded_of_setWorker (by simp [slot]) yielded
    · intro v task resumed
      unfold began at resumed
      split at resumed
      · cases resumed
        exact kept.owned _ _ mine
      · cases resumed
  | @pop w id queue begun inside slot popped =>
    have queued : id ∈ f.queue := by simp [popped]
    refine kept.taskMove (fun _ => about_began _ _ _) ?_ ?_ ?_
    · intro task rest
      have distinct : task ≠ id := by
        rintro rfl
        have single := before.places_le_one task
        have left : 0 < queue.count task := Multiset.count_pos.mpr rest
        simp [popped] at single
        omega
      have old : task ∈ f.queue := by simp [popped, rest]
      simpa [Function.update_of_ne distinct] using kept.cold task old
    · intro v task yielded
      refine .inr ⟨?_, ?_⟩
      · rintro rfl
        exact (after.yielded_exclusive yielded).2.2 w (by simp [setWorker])
      · exact yielded_of_setWorker (List.nil_subset _) yielded
    · intro v task resumed
      simp [began, kept.cold id queued] at resumed
  | exit =>
    refine ⟨kept.cold, fun v task yielded => ?_, kept.resumed⟩
    exact kept.owned _ _ (yielded_of_setWorker (List.nil_subset _) yielded)
  | settle inside slot =>
    refine ⟨kept.cold, fun v task yielded => ?_, kept.resumed⟩
    exact kept.owned _ _ (yielded_of_setWorker (by simp [slot]) yielded)
  | @yield w id rest inside slot =>
    refine kept.taskMove (fun _ => rfl) kept.cold ?_ (by simp)
    intro v task yielded
    by_cases same : task = id
    · subst same
      have mine : task ∈ ((f.setWorker w ⟨.waiting, rest ++ [task]⟩).worker w).held := by
        simp [setWorker, Worker.held]
      obtain rfl := (after.held_exclusive (List.mem_append_right _ yielded)).2.2.2 w mine
      exact .inl ⟨rfl, rfl⟩
    · refine .inr ⟨same, ?_⟩
      rcases yielded_setWorker yielded with ⟨rfl, old⟩ | ⟨-, old⟩
      · simpa [slot, same] using old
      · exact old
  | @complete w id rest cb inside slot =>
    refine kept.taskMove (fun _ => rfl) ?_ ?_ (by simp)
    · intro task queued
      by_cases same : task = id
      · simp [same]
      · simpa [Function.update_of_ne same] using kept.cold task queued
    · intro v task yielded
      refine .inr ⟨?_, ?_⟩
      · rintro rfl
        have unfinished := (after.yielded_exclusive yielded).2.1
        simp [Event.completes] at unfinished
      · exact yielded_of_setWorker (by simp [slot]) yielded
  | @deliver w id rest cb inside slot =>
    refine kept.taskMove (fun _ => rfl) kept.cold ?_ (by simp)
    intro v task yielded
    refine .inr ⟨?_, ?_⟩
    · rintro rfl
      have unfinished := (after.yielded_exclusive yielded).2.1
      rw [after.delivered task] at unfinished
      simp [Event.delivers] at unfinished
    · exact yielded_of_setWorker (by simp [slot]) yielded

end Flow

end CognitiveOs.Runtime
