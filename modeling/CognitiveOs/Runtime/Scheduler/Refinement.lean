import CognitiveOs.Runtime.Scheduler.Flow

/-!
# The scheduler refines the flow of tasks

Every step of the scheduler is one move of its flow, whatever priorities, limits and
history it has.
-/

namespace CognitiveOs.Runtime

open Foundation

namespace Scheduler

def flow (s : Scheduler) : Flow where
  queue := (s.queue.map Queued.id : List Nat)
  workers := s.workers
  worker w := if w < s.workers then s.worker w else {}
  active := s.active
  completing := s.completing
  exited := s.exited
  shutdownFlag := s.shutdownFlag
  nextId := s.nextId
  begun id := (s.task id).coro

variable {s : Scheduler}

theorem begun_setTask (s : Scheduler) (id : Nat) (f : Task → Task) :
    (s.setTask id f).flow.begun = Function.update s.flow.begun id (f (s.task id)).coro := by
  funext task
  by_cases same : task = id
  · subst same
    simp [flow, setTask]
  · simp [flow, setTask, Function.update_of_ne same]

theorem flow_setTask (s : Scheduler) (id : Nat) (f : Task → Task) :
    (s.setTask id f).flow =
      { s.flow with begun := Function.update s.flow.begun id (f (s.task id)).coro } :=
  congrArg (fun begun => ({ s.flow with begun } : Flow)) (begun_setTask s id f)

variable {id : Nat}

theorem flow_setTask_of_coro {f : Task → Task} (keeps : (f (s.task id)).coro = (s.task id).coro) :
    (s.setTask id f).flow = s.flow := by
  rw [flow_setTask, keeps]
  simp [flow]

variable {w : Nat}

theorem flow_setWorker (inside : w < s.workers) (worker : Worker) :
    (s.setWorker w worker).flow = s.flow.setWorker w worker := by
  have slots : (fun v => if v < s.workers then Function.update s.worker w worker v else {}) =
      Function.update (fun v => if v < s.workers then s.worker v else {}) w worker := by
    funext v
    by_cases same : v = w
    · subst same
      simp [inside]
    · simp [Function.update_of_ne same]
  exact congrArg (fun worker => ({ s.flow with worker } : Flow)) slots

@[simp] theorem flow_pruneHistory (s : Scheduler) : (pruneHistory s).flow = s.flow := rfl

theorem flow_worker (inside : w < s.workers) : s.flow.worker w = s.worker w := by
  simp [flow, inside]

theorem flow_queueInsert (queue : List Queued) (t : Queued) :
    ((queueInsert queue t).map Queued.id : Multiset Nat) = t.id ::ₘ (queue.map Queued.id : List Nat) :=
  Multiset.coe_eq_coe.mpr ((Heap.insert_perm taskLess queue t).map Queued.id)

theorem flow_queuePop {queue rest : List Queued} {t : Queued}
    (popped : queuePop queue = some (t, rest)) :
    (queue.map Queued.id : Multiset Nat) = t.id ::ₘ (rest.map Queued.id : List Nat) :=
  Multiset.coe_eq_coe.mpr ((Heap.pop_perm popped).map Queued.id)

theorem queue_eq_nil_of_queuePop {queue : List Queued} (empty : queuePop queue = none) :
    queue = [] := by
  by_contra nonempty
  have some := Heap.pop_isSome taskLess nonempty
  rw [queuePop] at empty
  simp [empty] at some

theorem flow_growWorkers (threads : Nat) (s : Scheduler) :
    ∃ workers, s.workers ≤ workers ∧ (growWorkers threads s).flow = { s.flow with workers } := by
  induction threads generalizing s with
  | zero => exact ⟨s.workers, le_rfl, rfl⟩
  | succ threads ih =>
    unfold growWorkers
    split
    · obtain ⟨workers, grown, same⟩ :=
        ih { s.setWorker s.workers {} with workers := s.workers + 1 }
      refine ⟨workers, le_trans (Nat.le_succ _) grown, ?_⟩
      rw [same]
      have slots : ∀ v, (if v < s.workers + 1 then Function.update s.worker s.workers {} v else {}) =
          if v < s.workers then s.worker v else {} := by
        intro v
        rcases Nat.lt_trichotomy v s.workers with before | rfl | after
        · simp [before, Nat.lt_succ_of_lt before, Function.update_of_ne (Nat.ne_of_lt before)]
        · simp
        · simp [Nat.not_lt_of_gt after, show ¬ v < s.workers + 1 by omega]
      simp only [flow, setWorker, slots]
    · exact ⟨s.workers, le_rfl, rfl⟩

theorem flow_enqueue (s : Scheduler) (a : Submission) :
    (enqueue s a).flow = { s.flow with
      queue := s.nextId ::ₘ s.flow.queue
      active := s.active + 1
      nextId := s.nextId + 1
      begun := Function.update s.flow.begun s.nextId false } := by
  have begun := begun_setTask s s.nextId fun _ => { priority := a.priority, bytes := a.bytes }
  have queue := flow_queueInsert s.queue ⟨a.priority, s.nextId⟩
  calc (enqueue s a).flow
    _ = { s.flow with
          queue := ((queueInsert s.queue ⟨a.priority, s.nextId⟩).map Queued.id : List Nat)
          active := s.active + 1
          nextId := s.nextId + 1
          begun := (s.setTask s.nextId fun _ =>
            { priority := a.priority, bytes := a.bytes }).flow.begun } := rfl
    _ = _ := by rw [begun, queue]; rfl

variable {t : Scheduler} {events : List Event}

theorem submit_move {a : Submission} (done : submit s a = (t, events)) :
    s.flow.Move events t.flow := by
  have idle : s.flow.Move [] s.flow := .quiet (fun set => set) le_rfl
  unfold submit at done
  split at done
  · cases done
    exact idle
  split at done
  · cases done
    exact idle
  split at done
  · cases done
    exact idle
  split at done
  · cases done
    exact idle
  · next running _ _ =>
    cases done
    obtain ⟨workers, grown, same⟩ := flow_growWorkers a.threads (enqueue s a)
    rw [same, flow_enqueue]
    exact .accept (by simpa [flow] using running) grown

theorem workerBegin_flow {yielded : List Nat} {coroutine : Bool} (inside : w < s.workers)
    (done : workerBegin s w id yielded coroutine = (t, events)) :
    events = [s.flow.began w id] ∧
      t.flow = { s.flow.setWorker w { phase := .running id, yielded } with
        begun := Function.update s.flow.begun id (s.flow.begun id || coroutine) } := by
  have coro : ((s.setWorker w { phase := .running id, yielded }).task id).coro = s.flow.begun id :=
    rfl
  simp only [workerBegin, coro] at done
  split at done
  · next begun =>
    cases done
    refine ⟨by simp [Flow.began, begun], ?_⟩
    have same : Function.update s.flow.begun id (s.flow.begun id || coroutine) = s.flow.begun := by
      rw [begun, Bool.true_or, ← begun, Function.update_eq_self]
    rw [flow_setWorker inside, same]
    rfl
  · next begun =>
    cases done
    refine ⟨by simp [Flow.began, begun], ?_⟩
    rw [flow_setTask, flow_setWorker inside]
    simp [begun, Flow.setWorker]

theorem workerTake_move {coroutine : Bool} (done : workerTake s w coroutine = some (t, events)) :
    s.flow.Move events t.flow := by
  unfold workerTake at done
  split at done
  next ready =>
    obtain ⟨inside, waiting⟩ := ready
    split at done
    next id rest yielded =>
      obtain ⟨rfl, same⟩ := workerBegin_flow inside (Option.some.inj done)
      rw [same]
      exact .resume coroutine inside (by rw [flow_worker inside, ← waiting, ← yielded])
    next yielded =>
      have slot : s.flow.worker w = { phase := .waiting, yielded := [] } := by
        rw [flow_worker inside, ← waiting, ← yielded]
      split at done
      next task queue popped =>
        obtain ⟨rfl, same⟩ :=
          workerBegin_flow (s := { s with queue }) inside (Option.some.inj done)
        rw [same]
        exact .pop coroutine inside slot (flow_queuePop popped)
      next empty =>
        split at done
        next stopping =>
          obtain ⟨rfl, rfl⟩ := Prod.mk.inj (Option.some.inj done)
          have left := Flow.Move.exit inside slot
            (by simp [flow, queue_eq_nil_of_queuePop empty]) stopping
          rw [← flow_setWorker inside] at left
          exact left
        next => cases done
  next => cases done

theorem flow_finalizeTask (s : Scheduler) (id : Nat) :
    (finalizeTask s id).flow = { s.flow with active := s.active - 1 } := by
  have same := flow_setTask_of_coro (s := s) (f := fun t => { t with status := if t.timedOut then .timeout
      else if t.cancelFlag then .cancelled
      else if t.executionFailed then .failed
      else if t.status = .running then .done
      else t.status }) (show _ = (s.task id).coro from rfl)
  calc (finalizeTask s id).flow
    _ = { (s.setTask id _).flow with active := s.active - 1 } := rfl
    _ = _ := by rw [same]

theorem workerFinish_move (inside : w < s.workers) (running : (s.worker w).phase = .running id)
    (done : workerFinish s w id = (t, events)) : s.flow.Move events t.flow := by
  obtain ⟨rfl, rfl⟩ := Prod.mk.inj done
  rw [flow_setWorker, flow_setTask, flow_finalizeTask]
  · exact .complete s.onComplete inside (by rw [flow_worker inside, ← running])
  · exact inside

theorem workerReturn_move {slice : Slice} (done : workerReturn s w slice = some (t, events)) :
    s.flow.Move events t.flow := by
  unfold workerReturn at done
  split at done
  next id running =>
    split at done
    next inside =>
      split at done
      next begun =>
        have same := flow_setTask_of_coro (s := s)
          (f := fun t => { t with
            executionFailed := slice.executionFailed
            timedOut := slice.timedOut
            status := slice.status.getD t.status }) (show _ = (s.task id).coro from rfl)
        split at done
        next =>
          rw [← same]
          exact workerFinish_move inside running (Option.some.inj done)
        next =>
          obtain ⟨rfl, rfl⟩ := Prod.mk.inj (Option.some.inj done)
          rw [flow_setWorker, same]
          · exact .yield inside (by rw [flow_worker inside, ← running]; rfl)
          · exact inside
      next => exact workerFinish_move inside running (Option.some.inj done)
    next => cases done
  next => cases done

theorem workerDeliver_move (done : workerDeliver s w = some (t, events)) : s.flow.Move events t.flow := by
  unfold workerDeliver at done
  split at done
  next id cb delivering =>
    split at done
    next inside =>
      obtain ⟨rfl, rfl⟩ := Prod.mk.inj (Option.some.inj done)
      rw [flow_setWorker inside]
      exact .deliver inside (by rw [flow_worker inside, ← delivering])
    next => cases done
  next => cases done

theorem flow_completed (s : Scheduler) (id : Nat) (completing : Int) :
    Scheduler.flow { pruneHistory (s.setTask id fun t => { t with completed := true }) with
      completing } = { s.flow with completing } := by
  have same := flow_setTask_of_coro (s := s) (f := fun t => { t with completed := true })
    (show _ = (s.task id).coro from rfl)
  rw [← same]
  rfl

theorem workerSettle_move (done : workerSettle s w = some (t, events)) : s.flow.Move events t.flow := by
  unfold workerSettle at done
  split at done
  next id settling =>
    split at done
    next inside =>
      obtain ⟨rfl, rfl⟩ := Prod.mk.inj (Option.some.inj done)
      rw [flow_setWorker, flow_completed]
      · exact .settle inside (by rw [flow_worker inside, ← settling])
      · exact inside
    next => cases done
  next => cases done

theorem step_move {a : Action} (done : s.step a = some (t, events)) :
    s.flow.Move events t.flow := by
  have idle : s.flow.Move [] s.flow := .quiet (fun set => set) le_rfl
  cases a with
  | submit a => exact submit_move (Option.some.inj done)
  | take => exact workerTake_move done
  | «return» => exact workerReturn_move done
  | deliver => exact workerDeliver_move done
  | settle => exact workerSettle_move done
  | shutdown =>
    obtain ⟨rfl, rfl⟩ := Prod.mk.inj (Option.some.inj done)
    exact .quiet (fun _ => rfl) le_rfl
  | cancel id =>
    obtain ⟨rfl, rfl⟩ := Prod.mk.inj (Option.some.inj done)
    rwa [flow_setTask_of_coro rfl]
  | get id | acquire id =>
    obtain ⟨rfl, rfl⟩ := Prod.mk.inj (Option.some.inj done)
    split
    · rwa [flow_setTask_of_coro rfl]
    · exact idle
  | release id =>
    obtain ⟨rfl, rfl⟩ := Prod.mk.inj (Option.some.inj done)
    rwa [flow_pruneHistory, flow_setTask_of_coro rfl]
  | setCompletionCb cb =>
    obtain ⟨rfl, rfl⟩ := Prod.mk.inj (Option.some.inj done)
    exact idle
  | setHistoryLimits count bytes =>
    obtain ⟨rfl, rfl⟩ := Prod.mk.inj (Option.some.inj done)
    exact idle
  | ensureNextId nextId =>
    obtain ⟨rfl, rfl⟩ := Prod.mk.inj (Option.some.inj done)
    split
    next later => exact .quiet (fun set => set) (Nat.le_of_lt later)
    next => exact idle

end Scheduler

end CognitiveOs.Runtime
