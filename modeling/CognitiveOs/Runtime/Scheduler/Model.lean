import CognitiveOs.Foundation.Heap
import CognitiveOs.Foundation.Machine
import Mathlib.Algebra.GroupWithZero.Nat

/-!
# The task scheduler

`runtime/scheduler.c`: a priority queue, a set of worker threads and the tasks they
run as coroutines. Every section under the scheduler's mutex is one step, and so is
every stretch of a worker between two such sections. What the runner and the
allocator do is chosen by the step's arguments.
-/

namespace CognitiveOs.Runtime

open Foundation

inductive TaskStatus where
  | queued | running | done | failed | cancelled | timeout
  deriving DecidableEq

/-- `struct task`: the fields the scheduler itself reads and writes. -/
structure Task where
  priority : Int := 0
  status : TaskStatus := .queued
  cancelFlag : Bool := false
  timedOut : Bool := false
  executionFailed : Bool := false
  completed : Bool := false
  references : Nat := 0
  borrowed : Bool := false
  /-- `t->coro` is set. -/
  coro : Bool := false
  /-- What `task_bytes` counts for this task. -/
  bytes : Nat := 0

/-- A queued task pointer, with the two fields `task_less` compares. -/
structure Queued where
  priority : Int
  id : Nat
  deriving DecidableEq

def taskLess (a b : Queued) : Bool :=
  if a.priority ≠ b.priority then a.priority < b.priority else a.id < b.id

def queueInsert (queue : List Queued) (t : Queued) : List Queued :=
  Heap.insert taskLess queue t

def queuePop (queue : List Queued) : Option (Queued × List Queued) :=
  Heap.pop taskLess queue

/-- Where a worker thread stands in `worker_main`. -/
inductive Phase where
  /-- Before the section that picks a task (this includes `cond_wait`). -/
  | waiting
  /-- Inside `coro_resume`, without the lock. -/
  | running (id : Nat)
  /-- The task is finalized; `cb(t, cud)` has not run yet. -/
  | delivering (id : Nat) (cb : Option Nat)
  /-- Before the section that marks the task completed. -/
  | settling (id : Nat)
  | exited
  deriving DecidableEq

/-- `worker_slot` with its thread: the continuations it owns, oldest first. -/
structure Worker where
  phase : Phase := .waiting
  yielded : List Nat := []

structure Scheduler where
  exited : Nat := 0
  historyCount : Nat := 0
  historyBytes : Nat := 0
  workers : Nat
  maxWorkers : Nat
  maxActive : Nat
  rejected : Nat := 0
  queue : List Queued := []
  /-- `all`: active and retained tasks, by ascending id. -/
  all : List Nat := []
  task : Nat → Task := fun _ => {}
  shutdownFlag : Bool := false
  active : Int := 0
  completing : Int := 0
  onComplete : Option Nat := none
  nextId : Nat := 0
  worker : Nat → Worker := fun _ => {}

def Scheduler.setTask (s : Scheduler) (id : Nat) (f : Task → Task) : Scheduler :=
  { s with task := Function.update s.task id (f (s.task id)) }

def Scheduler.setWorker (s : Scheduler) (w : Nat) (worker : Worker) : Scheduler :=
  { s with worker := Function.update s.worker w worker }

inductive Event where
  | accepted (id : Nat)
  | started (w id : Nat)
  | resumed (w id : Nat)
  | yielded (w id : Nat)
  | completed (w id : Nat)
  /-- The callback registered at finalization ran (`none`: there was none). -/
  | delivered (w id : Nat) (cb : Option Nat)
  deriving DecidableEq

/-- `scheduler_new_limited`, all threads started. -/
def schedulerNewLimited (workers maxWorkers maxActive : Nat) : Option Scheduler :=
  if workers < 1 ∨ maxWorkers < workers ∨ maxWorkers > 256 then none
  else some { workers, maxWorkers, maxActive }

def pruneWithin (s : Scheduler) (count bytes : Nat) : Bool :=
  (s.historyCount = 0 || decide (count ≤ s.historyCount)) &&
    (s.historyBytes = 0 || decide (bytes ≤ s.historyBytes))

def pruneLoop (s : Scheduler) (count bytes : Nat) : List Nat → List Nat
  | [] => []
  | id :: rest =>
    let t := s.task id
    if pruneWithin s count bytes then id :: rest
    else if !t.completed || decide (t.references ≠ 0) || t.borrowed then
      id :: pruneLoop s count bytes rest
    else pruneLoop s (count - 1) (bytes - t.bytes) rest

def pruneHistory (s : Scheduler) : Scheduler :=
  let finished := s.all.filter fun id => (s.task id).completed
  let bytes := (finished.map fun id => (s.task id).bytes).sum
  { s with all := pruneLoop s finished.length bytes s.all }

/-- The terminal status, then one task less in `active`. -/
def finalizeTask (s : Scheduler) (id : Nat) : Scheduler :=
  let status (t : Task) : TaskStatus :=
    if t.timedOut then .timeout
    else if t.cancelFlag then .cancelled
    else if t.executionFailed then .failed
    else if t.status = .running then .done
    else t.status
  { s.setTask id fun t => { t with status := status t } with active := s.active - 1 }

/-- Start threads while there is more work than workers; `threads` bounds how many
calls of `thread_create` succeed. -/
def growWorkers : (threads : Nat) → Scheduler → Scheduler
  | 0, s => s
  | threads + 1, s =>
    if s.active > s.workers ∧ s.workers < s.maxWorkers then
      growWorkers threads { s.setWorker s.workers {} with workers := s.workers + 1 }
    else s

/-- The arguments of a submission and the outcome of its allocations. -/
structure Submission where
  priority : Int := 0
  permissionMode : Int := 0
  bytes : Nat := 0
  record : Bool := true
  memory : Bool := true
  threads : Nat := 0

def enqueue (s : Scheduler) (a : Submission) : Scheduler :=
  { s.setTask s.nextId fun _ => { priority := a.priority, bytes := a.bytes } with
    all := s.all ++ [s.nextId]
    queue := queueInsert s.queue ⟨a.priority, s.nextId⟩
    nextId := s.nextId + 1
    active := s.active + 1 }

/-- `scheduler_submit_configured_acceptance`. -/
def submit (s : Scheduler) (a : Submission) : Scheduler × List Event :=
  if a.permissionMode < 0 ∨ a.permissionMode > 2 ∨ !a.record then (s, [])
  else if s.shutdownFlag then (s, [])
  else if s.maxActive > 0 ∧ s.active ≥ s.maxActive then
    ({ s with rejected := s.rejected + 1 }, [])
  else if !a.memory then (s, [])
  else (growWorkers a.threads (enqueue s a), [.accepted s.nextId])

/-- Take up a task: resume its coroutine, or start one. `coroutine` says whether
`coro_new` succeeds; the task fails when it does not. -/
def workerBegin (s : Scheduler) (w id : Nat) (yielded : List Nat) (coroutine : Bool) :
    Scheduler × List Event :=
  let s := s.setWorker w { phase := .running id, yielded }
  if (s.task id).coro then (s, [.resumed w id])
  else
    (s.setTask id fun t =>
      { t with coro := coroutine, status := if coroutine then .running else .failed },
      [.started w id])

/-- The section that leaves the wait loop: exit, or pick a continuation of this
worker, or pop the queue. -/
def workerTake (s : Scheduler) (w : Nat) (coroutine : Bool) :
    Option (Scheduler × List Event) :=
  if w < s.workers ∧ (s.worker w).phase = .waiting then
    match (s.worker w).yielded with
    | id :: rest => some (workerBegin s w id rest coroutine)
    | [] =>
      match queuePop s.queue with
      | some (t, queue) => some (workerBegin { s with queue } w t.id [] coroutine)
      | none =>
        if s.shutdownFlag then
          some ({ s.setWorker w { phase := .exited } with exited := s.exited + 1 }, [])
        else none
  else none

/-- How a slice of the runner ends, and what it leaves in the task. -/
structure Slice where
  done : Bool
  executionFailed : Bool := false
  timedOut : Bool := false
  /-- Legacy runners set the status themselves. -/
  status : Option TaskStatus := none

def workerFinish (s : Scheduler) (w id : Nat) : Scheduler × List Event :=
  let finished := (finalizeTask { s with completing := s.completing + 1 } id).setTask id
    fun t => { t with coro := false }
  (finished.setWorker w { phase := .delivering id s.onComplete, yielded := (s.worker w).yielded },
    [.completed w id])

/-- The section after `coro_resume`: finish, or keep the continuation here. -/
def workerReturn (s : Scheduler) (w : Nat) (slice : Slice) : Option (Scheduler × List Event) :=
  match (s.worker w).phase with
  | .running id =>
    if w < s.workers then
      if (s.task id).coro then
        let s := s.setTask id fun t =>
          { t with
            executionFailed := slice.executionFailed
            timedOut := slice.timedOut
            status := slice.status.getD t.status }
        if slice.done then some (workerFinish s w id)
        else
          some (s.setWorker w { phase := .waiting, yielded := (s.worker w).yielded ++ [id] },
            [.yielded w id])
      else some (workerFinish s w id)
    else none
  | _ => none

def workerDeliver (s : Scheduler) (w : Nat) : Option (Scheduler × List Event) :=
  match (s.worker w).phase with
  | .delivering id cb =>
    if w < s.workers then
      some (s.setWorker w { phase := .settling id, yielded := (s.worker w).yielded },
        [.delivered w id cb])
    else none
  | _ => none

def workerSettle (s : Scheduler) (w : Nat) : Option (Scheduler × List Event) :=
  match (s.worker w).phase with
  | .settling id =>
    if w < s.workers then
      let completed := pruneHistory (s.setTask id fun t => { t with completed := true })
      let settled := { completed with completing := s.completing - 1 }
      some (settled.setWorker w { phase := .waiting, yielded := (s.worker w).yielded }, [])
    else none
  | _ => none

inductive Action where
  | submit (submission : Submission)
  | take (w : Nat) (coroutine : Bool)
  | return (w : Nat) (slice : Slice)
  | deliver (w : Nat)
  | settle (w : Nat)
  | shutdown
  | cancel (id : Nat)
  | get (id : Nat)
  | acquire (id : Nat)
  | release (id : Nat)
  | setCompletionCb (cb : Option Nat)
  | setHistoryLimits (count bytes : Nat)
  | ensureNextId (nextId : Nat)

/-- One step, with the events it adds. `find_task` only finds retained tasks. -/
def Scheduler.step (s : Scheduler) : Action → Option (Scheduler × List Event)
  | .submit submission => some (submit s submission)
  | .take w coroutine => workerTake s w coroutine
  | .return w slice => workerReturn s w slice
  | .deliver w => workerDeliver s w
  | .settle w => workerSettle s w
  | .shutdown => some ({ s with shutdownFlag := true }, [])
  | .cancel id => some (s.setTask id fun t => { t with cancelFlag := true }, [])
  | .get id =>
    some (if id ∈ s.all then s.setTask id fun t => { t with borrowed := true } else s, [])
  | .acquire id =>
    some (if id ∈ s.all then s.setTask id fun t => { t with references := t.references + 1 }
      else s, [])
  | .release id =>
    some (pruneHistory (s.setTask id fun t => { t with references := t.references - 1 }), [])
  | .setCompletionCb cb => some ({ s with onComplete := cb }, [])
  | .setHistoryLimits count bytes =>
    some (pruneHistory { s with historyCount := count, historyBytes := bytes }, [])
  | .ensureNextId nextId =>
    some (if s.nextId < nextId then { s with nextId } else s, [])

structure System where
  scheduler : Scheduler
  history : List Event := []

def System.step (s : System) (a : Action) : Option System :=
  (s.scheduler.step a).map fun (scheduler, events) =>
    { scheduler, history := events ++ s.history }

/-- `s` is reached from a new scheduler by some interleaving of steps. -/
def Reachable (s : System) : Prop :=
  ∃ workers maxWorkers maxActive initial actions,
    schedulerNewLimited workers maxWorkers maxActive = some initial ∧
      (Machine.ofPartial System.step).Run { scheduler := initial } actions s

end CognitiveOs.Runtime
