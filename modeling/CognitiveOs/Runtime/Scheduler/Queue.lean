import CognitiveOs.Foundation.HeapOrder
import CognitiveOs.Runtime.Scheduler.Model
import Mathlib.Data.Multiset.AddSub

/-!
# The ready queue

`s->queue`: an array that doubles when it is full and holds a binary heap. Any
sequence of insertions and removals is one of a list sorted by priority and then id.
-/

namespace CognitiveOs.Runtime

open Foundation

/-- `a` runs before `b`: the lower priority value first, the older id among equals. -/
def Before (a b : Queued) : Prop :=
  a.priority < b.priority ∨ a.priority = b.priority ∧ a.id < b.id

theorem taskLess_iff {a b : Queued} : taskLess a b = true ↔ Before a b := by
  unfold taskLess Before
  split
  next differs => simp [differs]
  next same =>
    obtain same : a.priority = b.priority := by simpa using same
    simp [same]

theorem taskLess_weak : Heap.Weak taskLess where
  asymm := by
    intro a b before
    rw [taskLess_iff, Before] at before
    rw [Bool.eq_false_iff, ne_eq, taskLess_iff, Before]
    omega
  trans := by
    intro a b c first second
    rw [Bool.eq_false_iff, ne_eq, taskLess_iff, Before] at *
    omega

theorem before_of_not_taskLess {a b : Queued} (distinct : a.id ≠ b.id) (after : taskLess b a = false) :
    Before a b := by
  rw [Bool.eq_false_iff, ne_eq, taskLess_iff, Before] at after
  rw [Before]
  omega

theorem queueInsert_length (queue : List Queued) (t : Queued) :
    (queueInsert queue t).length = queue.length + 1 := by
  simpa [queueInsert] using (Heap.insert_perm taskLess queue t).length_eq

theorem queuePop_length {queue rest : List Queued} {t : Queued} (popped : queuePop queue = some (t, rest)) :
    queue.length = rest.length + 1 := by
  simpa using (Heap.pop_perm popped).length_eq

/-- `queue`, `qlen` and `qcap`: the entries fit in the array. -/
structure ReadyQueue where
  queue : List Queued := []
  qcap : Nat := 0
  fits : queue.length ≤ qcap := by simp

namespace ReadyQueue

/-- `queue_insert`; `memory` is the outcome of the `realloc` of a full array. -/
def insert (q : ReadyQueue) (t : Queued) (memory : Bool) : Option ReadyQueue :=
  if full : q.queue.length = q.qcap then
    if memory then
      some
        { queue := queueInsert q.queue t
          qcap := if q.qcap = 0 then 16 else q.qcap * 2
          fits := by
            rw [queueInsert_length]
            split <;> omega }
    else none
  else
    some
      { queue := queueInsert q.queue t
        qcap := q.qcap
        fits := by
          have fits := q.fits
          rw [queueInsert_length]
          omega }

/-- `queue_pop`. -/
def pop (q : ReadyQueue) : Option (Queued × ReadyQueue) :=
  match popped : queuePop q.queue with
  | some (t, rest) =>
    some (t,
      { queue := rest
        qcap := q.qcap
        fits := by
          have fits := q.fits
          have length := queuePop_length popped
          omega })
  | none => none

theorem insert_queue {q grown : ReadyQueue} {t : Queued} {memory : Bool} (done : q.insert t memory = some grown) :
    grown.queue = queueInsert q.queue t := by
  unfold insert at done
  split at done
  · split at done
    · cases done
      rfl
    · cases done
  · cases done
    rfl

theorem pop_queue {q rest : ReadyQueue} {t : Queued} (popped : q.pop = some (t, rest)) :
    queuePop q.queue = some (t, rest.queue) := by
  unfold pop at popped
  split at popped
  · next found =>
    cases popped
    exact found
  · cases popped

theorem pop_eq_none {q : ReadyQueue} : q.pop = none ↔ q.queue = [] := by
  have empty : queuePop q.queue = none ↔ q.queue = [] := Heap.pop_eq_none
  rw [← empty]
  unfold pop
  split
  · next found => simp [found]
  · next found => simp [found]

end ReadyQueue

inductive QueueOp where
  | insert (t : Queued) (memory : Bool)
  | pop
  deriving DecidableEq

structure QueueRun where
  queue : ReadyQueue := {}
  observed : List (Heap.Observed Queued) := []

def QueueRun.step (r : QueueRun) : QueueOp → QueueRun
  | .insert t memory =>
    match r.queue.insert t memory with
    | some queue => { queue, observed := r.observed ++ [.inserted t] }
    | none => { r with observed := r.observed ++ [.refused t] }
  | .pop =>
    match r.queue.pop with
    | some (t, queue) => { queue, observed := r.observed ++ [.popped (some t)] }
    | none => { r with observed := r.observed ++ [.popped none] }

def inserted (observed : List (Heap.Observed Queued)) : List Queued :=
  observed.filterMap fun
    | .inserted t => some t
    | _ => none

def popped (observed : List (Heap.Observed Queued)) : List Queued :=
  observed.filterMap fun
    | .popped t => t
    | _ => none

theorem inserted_append (observed : List (Heap.Observed Queued)) (last : Heap.Observed Queued) :
    inserted (observed ++ [last]) = inserted observed ++ inserted [last] :=
  List.filterMap_append

theorem popped_append (observed : List (Heap.Observed Queued)) (last : Heap.Observed Queued) :
    popped (observed ++ [last]) = popped observed ++ popped [last] :=
  List.filterMap_append

/-- What a run keeps as long as the ids of the accepted tasks differ. -/
structure Refines (r : QueueRun) : Prop where
  /-- What was popped and what is queued is what was inserted. -/
  kept : (popped r.observed ++ r.queue.queue).Perm (inserted r.observed)
  represented : ((inserted r.observed).map Queued.id).Nodup →
    ∃ sorted, (Machine.ofPartial (Heap.sortedStep taskLess)).Run [] r.observed sorted ∧
      Heap.Represents taskLess r.queue.queue sorted

theorem Refines.distinct {r : QueueRun} (refines : Refines r)
    (distinct : ((inserted r.observed).map Queued.id).Nodup) :
    (r.queue.queue.map Queued.id).Nodup := by
  have all := ((refines.kept.map Queued.id).nodup_iff).mpr distinct
  rw [List.map_append] at all
  exact (List.nodup_append.mp all).2.1

theorem strict_of_nodup {queue : List Queued} (distinct : (queue.map Queued.id).Nodup) :
    ∀ a ∈ queue, ∀ b ∈ queue, taskLess a b = false → taskLess b a = false → a = b := by
  intro a first b second left right
  refine List.inj_on_of_nodup_map distinct first second ?_
  by_contra differ
  exact absurd (taskLess_iff.mpr (before_of_not_taskLess differ right)) (by simp [left])

theorem Refines.step {r : QueueRun} (refines : Refines r) (op : QueueOp) : Refines (r.step op) := by
  cases op with
  | insert t memory =>
    simp only [QueueRun.step]
    split
    next grown done =>
      have queued := ReadyQueue.insert_queue done
      have kept : (popped (r.observed ++ [.inserted t]) ++ grown.queue).Perm
          (inserted (r.observed ++ [.inserted t])) := by
        rw [popped_append, inserted_append, queued]
        have added := (Heap.insert_perm taskLess r.queue.queue t).append_left (popped r.observed)
        have moved := (List.perm_middle.trans (refines.kept.cons t)).trans
          (List.perm_append_singleton t (inserted r.observed)).symm
        simpa [popped, inserted, queueInsert] using added.trans moved
      refine ⟨kept, ?_⟩
      intro distinct
      rw [inserted_append, List.map_append] at distinct
      obtain ⟨sorted, run, represents⟩ := refines.represented (List.nodup_append.mp distinct).1
      refine ⟨_, run.step rfl, ?_⟩
      rw [queued]
      exact represents.insert taskLess_weak t
    next refused =>
      refine ⟨by simpa [popped_append, inserted_append, popped, inserted] using refines.kept, ?_⟩
      intro distinct
      rw [inserted_append] at distinct
      obtain ⟨sorted, run, represents⟩ := refines.represented (by simpa [inserted] using distinct)
      exact ⟨sorted, run.step rfl, represents⟩
  | pop =>
    simp only [QueueRun.step]
    split
    next t rest taken =>
      have queued := ReadyQueue.pop_queue taken
      have removed := Heap.pop_perm queued
      refine ⟨?_, ?_⟩
      · rw [popped_append, inserted_append]
        have moved := (removed.append_left (popped r.observed)).symm.trans refines.kept
        simpa [popped, inserted] using moved
      · intro distinct
        rw [inserted_append] at distinct
        have earlier : ((inserted r.observed).map Queued.id).Nodup := by simpa [inserted] using distinct
        obtain ⟨sorted, run, represents⟩ := refines.represented earlier
        obtain ⟨head, remaining⟩ := represents.pop taskLess_weak
          (strict_of_nodup (refines.distinct earlier)) queued
        refine ⟨sorted.tail, run.step ?_, remaining⟩
        simp [Machine.ofPartial, Heap.sortedStep, head]
    next empty =>
      refine ⟨by simpa [popped_append, inserted_append, popped, inserted] using refines.kept, ?_⟩
      intro distinct
      rw [inserted_append] at distinct
      obtain ⟨sorted, run, represents⟩ := refines.represented (by simpa [inserted] using distinct)
      have none := ReadyQueue.pop_eq_none.mp empty
      obtain rfl : sorted = [] := by
        have same := represents.perm
        rw [none] at same
        exact same.symm.eq_nil
      exact ⟨[], run.step rfl, represents⟩

theorem refines_of_run {ops : List QueueOp} {r : QueueRun}
    (run : (Machine.ofFun QueueRun.step).Run {} ops r) : Refines r := by
  refine run.invariant ?_ ⟨.refl _, fun _ => ⟨[], .start _, Heap.represents_nil taskLess⟩⟩
  rintro r op _ refines rfl
  exact refines.step op

def HeapOrder (queue : List Queued) : Prop :=
  ∀ index (inside : index < queue.length), 0 < index → Before queue[(index - 1) / 2] queue[index]

theorem heapOrder_of_ordered {queue : List Queued} (distinct : (queue.map Queued.id).Nodup)
    (ordered : Heap.Ordered taskLess queue) : HeapOrder queue := by
  intro index inside positive
  refine before_of_not_taskLess ?_ ?_
  · intro same
    have upper : (index - 1) / 2 < (queue.map Queued.id).length := by simp; omega
    have lower : index < (queue.map Queued.id).length := by simpa using inside
    have equal := (@List.Nodup.getElem_inj_iff _ _ distinct _ upper _ lower).mp (by simpa using same)
    omega
  · exact ordered index positive _ (List.getElem?_eq_getElem inside) _ (List.getElem?_eq_getElem (by omega))

/-- The ready queue is a sorted list: along every run whose accepted tasks have different
ids the array is a heap, the calls answer as a list sorted by priority and id does, a pop
takes the least task, and the queued tasks are those inserted and not popped. -/
theorem ready_queue_refines_sorted_list {ops : List QueueOp} {r : QueueRun}
    (run : (Machine.ofFun QueueRun.step).Run {} ops r)
    (distinct : ((inserted r.observed).map Queued.id).Nodup) :
    HeapOrder r.queue.queue ∧
      (∃ sorted : List Queued, sorted.Pairwise Before ∧ r.queue.queue.Perm sorted ∧
        (Machine.ofPartial (Heap.sortedStep taskLess)).Run [] r.observed sorted) ∧
      (∀ t rest, r.queue.pop = some (t, rest) →
        r.queue.queue.Perm (t :: rest.queue) ∧ ∀ other ∈ rest.queue, Before t other) ∧
      (r.queue.pop = none ↔ r.queue.queue = []) ∧
      (popped r.observed : Multiset Queued) ≤ inserted r.observed ∧
      (r.queue.queue : Multiset Queued) = (inserted r.observed : Multiset Queued) - popped r.observed := by
  have refines := refines_of_run run
  have different := refines.distinct distinct
  obtain ⟨sorted, accepted, represents⟩ := refines.represented distinct
  have total : (popped r.observed : Multiset Queued) + (r.queue.queue : Multiset Queued) =
      (inserted r.observed : Multiset Queued) := by
    rw [Multiset.coe_add]
    exact Multiset.coe_eq_coe.mpr refines.kept
  refine ⟨heapOrder_of_ordered different represents.ordered, ⟨sorted, ?_, represents.perm, accepted⟩, ?_,
    ReadyQueue.pop_eq_none, ?_, ?_⟩
  · have apart := List.pairwise_map.mp (((represents.perm.map Queued.id).nodup_iff).mp different)
    exact (represents.sorted.and apart).imp fun both => before_of_not_taskLess both.2 both.1
  · intro t rest taken
    have queued := ReadyQueue.pop_queue taken
    have removed := Heap.pop_perm queued
    refine ⟨removed, ?_⟩
    intro other member
    have least := Heap.pop_least taskLess_weak represents.ordered queued other member
    refine before_of_not_taskLess ?_ least
    have apart := ((removed.map Queued.id).nodup_iff).mp different
    intro same
    exact (List.nodup_cons.mp apart).1 (List.mem_map.mpr ⟨other, member, same.symm⟩)
  · rw [← total]
    exact Multiset.le_add_right _ _
  · rw [← total]
    ext t
    rw [Multiset.count_sub, Multiset.count_add, Nat.add_sub_cancel_left]

theorem ready_queue_refines_sorted_list_example :
    ∃ r : QueueRun,
      (Machine.ofFun QueueRun.step).Run {} [.insert ⟨2, 0⟩ true, .insert ⟨1, 1⟩ true, .pop] r ∧
      r.observed = [.inserted ⟨2, 0⟩, .inserted ⟨1, 1⟩, .popped (some ⟨1, 1⟩)] ∧ HeapOrder r.queue.queue := by
  have run := (@Machine.run_ofFun_iff QueueRun QueueOp QueueRun.step {} _
    [.insert ⟨2, 0⟩ true, .insert ⟨1, 1⟩ true, .pop]).mpr rfl
  exact ⟨_, run, by decide, (ready_queue_refines_sorted_list run (by decide)).1⟩

end CognitiveOs.Runtime
