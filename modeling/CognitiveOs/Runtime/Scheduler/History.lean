import CognitiveOs.Runtime.Scheduler.Model

/-!
# The list of retained tasks

`s->all`, `find_task` and `prune_history`: the ids in the list ascend along every run,
so the binary search finds what is retained, and pruning takes away the oldest
completed tasks nobody holds.
-/

namespace CognitiveOs.Runtime

open Foundation

/-- The loop of `find_task`: the first index in `[lo, hi]` whose id is not below `id`. -/
def findLoop (all : List Nat) (id lo hi : Nat) : Nat :=
  if _running : lo < hi then
    let mid := lo + (hi - lo) / 2
    if all.getD mid 0 < id then findLoop all id (mid + 1) hi else findLoop all id lo mid
  else lo
termination_by hi - lo

/-- `find_task`: the id of the task at the index found, if it is the one asked for. -/
def findTask (all : List Nat) (id : Nat) : Option Nat :=
  let lo := findLoop all id 0 all.length
  match all[lo]? with
  | some found => if found = id then some found else none
  | none => none

variable {all : List Nat}

theorem getD_inside {index : Nat} (bound : index < all.length) : all.getD index 0 = all[index] := by
  simp [List.getD_eq_getElem?_getD, List.getElem?_eq_getElem bound]

structure Encloses (all : List Nat) (id lo hi : Nat) : Prop where
  inside : hi ≤ all.length
  lower : ∀ index (bound : index < all.length), index < lo → all[index] < id
  upper : ∀ index (bound : index < all.length), hi ≤ index → id ≤ all[index]

variable {id : Nat}

theorem findLoop_splits (ascending : all.Pairwise (· < ·)) {lo hi : Nat} (order : lo ≤ hi)
    (encloses : Encloses all id lo hi) : Encloses all id (findLoop all id lo hi) (findLoop all id lo hi) := by
  induction lo, hi using findLoop.induct all id with
  | case1 lo hi running mid below ih =>
    rw [findLoop, dif_pos running, if_pos below]
    have bound : mid < all.length := by have := encloses.inside; omega
    refine ih (by omega) ⟨encloses.inside, ?_, encloses.upper⟩
    intro index inside before
    rw [getD_inside bound] at below
    rcases Nat.lt_or_ge index mid with earlier | later
    · exact Nat.lt_trans (List.pairwise_iff_getElem.mp ascending index mid inside bound earlier) below
    · obtain rfl : index = mid := by omega
      exact below
  | case2 lo hi running mid above ih =>
    rw [findLoop, dif_pos running, if_neg above]
    have bound : mid < all.length := by have := encloses.inside; omega
    refine ih (by omega) ⟨by omega, encloses.lower, ?_⟩
    intro index inside after
    rw [getD_inside bound] at above
    rcases Nat.lt_or_ge mid index with later | earlier
    · have order := List.pairwise_iff_getElem.mp ascending mid index bound inside later
      omega
    · obtain rfl : index = mid := by omega
      omega
  | case3 lo hi done =>
    rw [findLoop, dif_neg done]
    obtain rfl : lo = hi := by omega
    exact encloses

theorem findTask_eq (ascending : all.Pairwise (· < ·)) (id : Nat) :
    findTask all id = if id ∈ all then some id else none := by
  have splits := findLoop_splits ascending (Nat.zero_le _)
    (⟨Nat.le_refl _, fun _ _ before => absurd before (by omega), fun _ bound after => absurd after (by omega)⟩ :
      Encloses all id 0 all.length)
  unfold findTask
  simp only
  generalize findLoop all id 0 all.length = place at splits
  by_cases member : id ∈ all
  · rw [if_pos member]
    obtain ⟨index, bound, found⟩ := List.getElem_of_mem member
    have here : index = place := by
      rcases Nat.lt_trichotomy index place with before | same | after
      · have := splits.lower index bound before
        omega
      · exact same
      · have first := splits.upper place (by omega) (Nat.le_refl _)
        have order := List.pairwise_iff_getElem.mp ascending place index (by omega) bound after
        omega
    subst here
    simp [List.getElem?_eq_getElem bound, found]
  · rw [if_neg member]
    split
    · next found present =>
      rw [if_neg]
      rintro rfl
      exact member (List.mem_of_getElem? present)
    · rfl

def Task.pinned (t : Task) : Bool := decide (t.references ≠ 0) || t.borrowed

namespace Scheduler

/-- `prune_history` may free this task. -/
def reclaimable (s : Scheduler) (id : Nat) : Bool := (s.task id).completed && !(s.task id).pinned

def finishedCount (s : Scheduler) (ids : List Nat) : Nat :=
  (ids.filter fun id => (s.task id).completed).length

def finishedBytes (s : Scheduler) (ids : List Nat) : Nat :=
  ((ids.filter fun id => (s.task id).completed).map fun id => (s.task id).bytes).sum

def WithinLimits (s : Scheduler) : Prop :=
  (s.historyCount = 0 ∨ s.finishedCount s.all ≤ s.historyCount) ∧
    (s.historyBytes = 0 ∨ s.finishedBytes s.all ≤ s.historyBytes)

end Scheduler

variable {s t : Scheduler}

variable {count bytes : Nat}

theorem pruneWithin_iff : pruneWithin s count bytes = true ↔
    (s.historyCount = 0 ∨ count ≤ s.historyCount) ∧ (s.historyBytes = 0 ∨ bytes ≤ s.historyBytes) := by
  simp [pruneWithin]

theorem finishedCount_cons (id : Nat) (rest : List Nat) : s.finishedCount (id :: rest) =
    (if (s.task id).completed then 1 else 0) + s.finishedCount rest := by
  unfold Scheduler.finishedCount
  cases done : (s.task id).completed with
  | true => simp [done, Nat.add_comm]
  | false => simp [done]

theorem finishedBytes_cons (id : Nat) (rest : List Nat) : s.finishedBytes (id :: rest) =
    (if (s.task id).completed then (s.task id).bytes else 0) + s.finishedBytes rest := by
  unfold Scheduler.finishedBytes
  cases done : (s.task id).completed with
  | true => simp [done]
  | false => simp [done]

theorem pruneLoop_cons (s : Scheduler) (count bytes id : Nat) (rest : List Nat) :
    pruneLoop s count bytes (id :: rest) =
      if pruneWithin s count bytes then id :: rest
      else if s.reclaimable id then pruneLoop s (count - 1) (bytes - (s.task id).bytes) rest
      else id :: pruneLoop s count bytes rest := by
  have passed : s.reclaimable id =
      !(!(s.task id).completed || decide ((s.task id).references ≠ 0) || (s.task id).borrowed) := by
    simp [Scheduler.reclaimable, Task.pinned, Bool.not_or, Bool.and_assoc]
  simp only [pruneLoop]
  split
  · rfl
  · rw [passed]
    split
    next stays => rw [if_neg (by rw [stays]; simp)]
    next goes => rw [if_pos (by rw [Bool.not_eq_true _ |>.mp goes]; rfl)]

theorem pruneLoop_sublist (s : Scheduler) (count bytes : Nat) (ids : List Nat) :
    (pruneLoop s count bytes ids).Sublist ids := by
  induction ids generalizing count bytes with
  | nil => exact .slnil
  | cons id rest ih =>
    rw [pruneLoop_cons]
    split
    · exact .refl _
    · split
      · exact (ih _ _).cons id
      · exact (ih _ _).cons_cons id

theorem mem_of_pruneLoop {ids : List Nat} (member : id ∈ ids) (gone : id ∉ pruneLoop s count bytes ids) :
    s.reclaimable id = true := by
  induction ids generalizing count bytes with
  | nil => cases member
  | cons head rest ih =>
    rw [pruneLoop_cons] at gone
    split at gone
    · exact absurd member gone
    · split at gone
      next free =>
        rcases List.mem_cons.mp member with rfl | later
        · exact free
        · exact ih later gone
      next held =>
        rcases List.mem_cons.mp member with rfl | later
        · exact absurd (by simp) gone
        · exact ih later fun kept => gone (List.mem_cons_of_mem _ kept)

theorem pruneLoop_oldest {ids : List Nat} (ascending : ids.Pairwise (· < ·)) {gone stays : Nat} (member : gone ∈ ids)
    (removed : gone ∉ pruneLoop s count bytes ids) (kept : stays ∈ pruneLoop s count bytes ids)
    (free : s.reclaimable stays = true) : gone < stays := by
  induction ids generalizing count bytes with
  | nil => cases member
  | cons head rest ih =>
    have ⟨first, later⟩ := List.pairwise_cons.mp ascending
    rw [pruneLoop_cons] at removed kept
    split at removed
    · exact absurd member removed
    next exceeded =>
      rw [if_neg exceeded] at kept
      split at removed
      next oldest =>
        rw [if_pos oldest] at kept
        rcases List.mem_cons.mp member with rfl | inRest
        · exact first stays ((pruneLoop_sublist s _ _ rest).subset kept)
        · exact ih later inRest removed kept
      next held =>
        rw [if_neg held] at kept
        rcases List.mem_cons.mp kept with rfl | keptRest
        · exact absurd free held
        · rcases List.mem_cons.mp member with rfl | inRest
          · exact absurd (by simp) removed
          · exact ih later inRest (fun still => removed (List.mem_cons_of_mem _ still)) keptRest

/-- The running totals are those of the tasks left when the loop stops, so it stops
within the limits or with no task left that may go. -/
theorem pruneLoop_bounded (s : Scheduler) (more extra : Nat) (ids : List Nat) :
    let left := pruneLoop s (more + s.finishedCount ids) (extra + s.finishedBytes ids) ids
    pruneWithin s (more + s.finishedCount left) (extra + s.finishedBytes left) = true ∨
      ∀ id ∈ left, s.reclaimable id = false := by
  induction ids generalizing more extra with
  | nil => exact .inr fun _ member => absurd member (by simp [pruneLoop])
  | cons id rest ih =>
    simp only
    rw [pruneLoop_cons]
    split
    next within => exact .inl within
    next exceeded =>
      rw [finishedCount_cons, finishedBytes_cons]
      split
      next free =>
        have completed : (s.task id).completed = true := by
          rw [Scheduler.reclaimable, Bool.and_eq_true] at free
          exact free.1
        have rest' := ih more extra
        simp only [completed, if_true]
        rw [show more + (1 + s.finishedCount rest) - 1 = more + s.finishedCount rest by omega,
          show extra + ((s.task id).bytes + s.finishedBytes rest) - (s.task id).bytes =
            extra + s.finishedBytes rest by omega]
        exact rest'
      next held =>
        rw [← Nat.add_assoc, ← Nat.add_assoc]
        rcases ih (more + if (s.task id).completed then 1 else 0)
          (extra + if (s.task id).completed then (s.task id).bytes else 0) with within | none
        · left
          rw [finishedCount_cons, finishedBytes_cons, ← Nat.add_assoc, ← Nat.add_assoc]
          exact within
        · right
          intro other member
          rcases List.mem_cons.mp member with rfl | later
          · simpa using held
          · exact none other later

/-! ## What one call of `prune_history` does -/

/-- From `s` to `t` the oldest completed tasks nobody holds were taken out of the list,
until the limits were met or no such task was left. -/
structure Pruned (s t : Scheduler) : Prop where
  kept : t.all.Sublist s.all
  removed : ∀ id ∈ s.all, id ∉ t.all → s.reclaimable id = true
  oldest : s.all.Pairwise (· < ·) → ∀ gone ∈ s.all, gone ∉ t.all → ∀ stays ∈ t.all, s.reclaimable stays = true →
    gone < stays
  bounded : t.WithinLimits ∨ ∀ id ∈ t.all, (t.task id).completed = true → (t.task id).pinned = true
  idle : s.WithinLimits → t.all = s.all

theorem pruneHistory_pruned (s : Scheduler) : Pruned s (pruneHistory s) where
  kept := pruneLoop_sublist ..
  removed := fun _ => mem_of_pruneLoop
  oldest := fun ascending _ member removed _ kept free => pruneLoop_oldest ascending member removed kept free
  bounded := by
    have totals := pruneLoop_bounded s 0 0 s.all
    simp only [Nat.zero_add] at totals
    rcases totals with within | none
    · exact .inl (pruneWithin_iff.mp within)
    · refine .inr ?_
      intro id member completed
      have held := none id member
      unfold Scheduler.reclaimable at held
      have completed : (s.task id).completed = true := completed
      have pinned : (s.task id).pinned = true := by simpa [completed] using held
      exact pinned
  idle := by
    intro within
    have enough := pruneWithin_iff.mpr within
    change pruneLoop s (s.finishedCount s.all) (s.finishedBytes s.all) s.all = s.all
    cases ids : s.all with
    | nil => rfl
    | cons id rest =>
      rw [pruneLoop_cons, ← ids, if_pos enough]

/-! ## What a step does to the list -/

def Event.accepts : Event → Option Nat
  | .accepted id => some id
  | _ => none

def acceptedIds (history : List Event) : List Nat := history.filterMap Event.accepts

theorem acceptedIds_append (events history : List Event) :
    acceptedIds (events ++ history) = acceptedIds events ++ acceptedIds history :=
  List.filterMap_append

def Action.raises : Action → Nat
  | .ensureNextId nextId => nextId
  | _ => 0

def Action.submits : Action → Nat
  | .submit _ => 1
  | _ => 0

/-- The steps that end with `prune_history`. -/
def Action.prunes : Action → Bool
  | .settle _ | .release _ | .setHistoryLimits _ _ => true
  | _ => false

/-- A step appends the next id, raises it, prunes a list whose tasks it may have touched
before, or leaves the list alone. -/
inductive ListMove (s : Scheduler) (a : Action) (events : List Event) (t : Scheduler) : Prop where
  | quiet : a.prunes = false → t.all = s.all → t.nextId = s.nextId → acceptedIds events = [] →
      ListMove s a events t
  | accepted : a.prunes = false → a.submits = 1 → t.all = s.all ++ [s.nextId] → t.nextId = s.nextId + 1 →
      acceptedIds events = [s.nextId] → ListMove s a events t
  | raised : a.prunes = false → t.all = s.all → t.nextId = max s.nextId a.raises → acceptedIds events = [] →
      ListMove s a events t
  | pruned (u : Scheduler) : u.all = s.all → Pruned u t → t.task = u.task → t.nextId = s.nextId →
      acceptedIds events = [] → ListMove s a events t

theorem growWorkers_list (threads : Nat) (s : Scheduler) :
    (growWorkers threads s).all = s.all ∧ (growWorkers threads s).nextId = s.nextId := by
  induction threads generalizing s with
  | zero => exact ⟨rfl, rfl⟩
  | succ threads ih =>
    rw [growWorkers]
    split
    · exact ih _
    · exact ⟨rfl, rfl⟩

theorem submit_list (s : Scheduler) (a : Submission) : ListMove s (.submit a) (submit s a).2 (submit s a).1 := by
  have same : ∀ (t : Scheduler), t.all = s.all → t.nextId = s.nextId → ListMove s (.submit a) [] t :=
    fun _ all next => .quiet rfl all next rfl
  unfold submit
  split
  · exact same _ rfl rfl
  split
  · exact same _ rfl rfl
  split
  · exact same _ rfl rfl
  split
  · exact same _ rfl rfl
  · obtain ⟨all, next⟩ := growWorkers_list a.threads (enqueue s a)
    exact .accepted rfl rfl all next rfl

variable {a : Action} {events : List Event}

theorem workerBegin_list (other : a.prunes = false) (s : Scheduler) (w id : Nat) (yielded : List Nat)
    (coroutine : Bool) : ListMove s a (workerBegin s w id yielded coroutine).2
      (workerBegin s w id yielded coroutine).1 := by
  unfold workerBegin
  simp only
  split
  · exact .quiet other rfl rfl rfl
  · exact .quiet other rfl rfl rfl

variable {w : Nat}

theorem workerTake_list (other : a.prunes = false) {coroutine : Bool}
    (done : workerTake s w coroutine = some (t, events)) : ListMove s a events t := by
  unfold workerTake at done
  split at done
  · split at done
    · next id rest _ =>
      have moved := workerBegin_list other s w id rest coroutine
      rw [Option.some.inj done] at moved
      exact moved
    · split at done
      · next task queue _ =>
        have moved := workerBegin_list other { s with queue } w task.id [] coroutine
        rw [Option.some.inj done] at moved
        cases moved with
        | quiet _ all next none => exact .quiet other all next none
        | accepted _ submits all next one => exact .accepted other submits all next one
        | raised _ all next none => exact .raised other all next none
        | pruned u all pruned task next none => exact .pruned u all pruned task next none
      · split at done
        · cases done
          exact .quiet other rfl rfl rfl
        · cases done
  · cases done

theorem workerFinish_list (other : a.prunes = false) {u : Scheduler} (all : u.all = s.all)
    (next : u.nextId = s.nextId) (done : workerFinish u w id = (t, events)) : ListMove s a events t := by
  unfold workerFinish at done
  obtain ⟨rfl, rfl⟩ := Prod.mk.inj done
  exact .quiet other all next rfl

theorem workerReturn_list (other : a.prunes = false) {slice : Slice}
    (done : workerReturn s w slice = some (t, events)) : ListMove s a events t := by
  unfold workerReturn at done
  split at done
  · split at done
    · split at done
      · simp only at done
        split at done
        · refine workerFinish_list other ?_ ?_ (Option.some.inj done)
          · rfl
          · rfl
        · obtain ⟨rfl, rfl⟩ := Prod.mk.inj (Option.some.inj done)
          exact .quiet other rfl rfl rfl
      · exact workerFinish_list other rfl rfl (Option.some.inj done)
    · cases done
  · cases done

theorem workerDeliver_list (other : a.prunes = false) (done : workerDeliver s w = some (t, events)) :
    ListMove s a events t := by
  unfold workerDeliver at done
  split at done
  · split at done
    · cases done
      exact .quiet other rfl rfl rfl
    · cases done
  · cases done

theorem Pruned.congr {u u' t t' : Scheduler} (pruned : Pruned u t) (before : u'.all = u.all)
    (tasks : u'.task = u.task) (limits : u'.historyCount = u.historyCount ∧ u'.historyBytes = u.historyBytes)
    (after : t'.all = t.all) (tasks' : t'.task = t.task)
    (limits' : t'.historyCount = t.historyCount ∧ t'.historyBytes = t.historyBytes) : Pruned u' t' := by
  have within : ∀ {x y : Scheduler}, x.all = y.all → x.task = y.task →
      x.historyCount = y.historyCount ∧ x.historyBytes = y.historyBytes → (x.WithinLimits ↔ y.WithinLimits) := by
    intro x y all task limits
    simp [Scheduler.WithinLimits, Scheduler.finishedCount, Scheduler.finishedBytes, all, task, limits]
  have free : u'.reclaimable = u.reclaimable := by
    funext id
    rw [Scheduler.reclaimable, Scheduler.reclaimable, tasks]
  refine ⟨?_, ?_, ?_, ?_, ?_⟩
  · rw [before, after]
    exact pruned.kept
  · rw [before, after, free]
    exact pruned.removed
  · rw [before, after, free]
    exact pruned.oldest
  · rw [within after tasks' limits', after, tasks']
    exact pruned.bounded
  · rw [within before tasks limits, before, after]
    exact pruned.idle

theorem workerSettle_list (done : workerSettle s w = some (t, events)) : ListMove s a events t := by
  unfold workerSettle at done
  split at done
  · next id _ =>
    split at done
    · have pruned := pruneHistory_pruned (s.setTask id fun t => { t with completed := true })
      have task : (pruneHistory (s.setTask id fun t => { t with completed := true })).task =
        (s.setTask id fun t => { t with completed := true }).task := rfl
      have next : (pruneHistory (s.setTask id fun t => { t with completed := true })).nextId = s.nextId := rfl
      generalize pruneHistory (s.setTask id fun t => { t with completed := true }) = completed at done pruned task next
      obtain ⟨rfl, rfl⟩ := Prod.mk.inj (Option.some.inj done)
      exact .pruned (s.setTask id fun t => { t with completed := true }) rfl
        (pruned.congr rfl rfl ⟨rfl, rfl⟩ rfl rfl ⟨rfl, rfl⟩) task next rfl
    · cases done
  · cases done

theorem step_list (done : s.step a = some (t, events)) : ListMove s a events t := by
  cases a with
  | submit a =>
    have moved := submit_list s a
    rw [Option.some.inj done] at moved
    exact moved
  | take w coroutine => exact workerTake_list rfl done
  | «return» w slice => exact workerReturn_list rfl done
  | deliver w => exact workerDeliver_list rfl done
  | settle w => exact workerSettle_list done
  | shutdown =>
    cases done
    exact .quiet rfl rfl rfl rfl
  | cancel id =>
    cases done
    exact .quiet rfl rfl rfl rfl
  | get id =>
    cases done
    split
    · exact .quiet rfl rfl rfl rfl
    · exact .quiet rfl rfl rfl rfl
  | acquire id =>
    cases done
    split
    · exact .quiet rfl rfl rfl rfl
    · exact .quiet rfl rfl rfl rfl
  | release id =>
    cases done
    have pruned := pruneHistory_pruned (s.setTask id fun t => { t with references := t.references - 1 })
    exact .pruned (s.setTask id fun t => { t with references := t.references - 1 }) rfl pruned rfl rfl rfl
  | setCompletionCb cb =>
    cases done
    exact .quiet rfl rfl rfl rfl
  | setHistoryLimits count bytes =>
    cases done
    have pruned := pruneHistory_pruned { s with historyCount := count, historyBytes := bytes }
    exact .pruned { s with historyCount := count, historyBytes := bytes } rfl pruned rfl rfl rfl
  | ensureNextId nextId =>
    cases done
    split
    next below => exact .raised rfl rfl (Nat.max_eq_right (Nat.le_of_lt below)).symm rfl
    next => exact .quiet rfl rfl rfl rfl

/-! ## Every run -/

/-- The list ascends below the next id, and so do the ids given out. -/
structure Ascending (s : System) : Prop where
  all : s.scheduler.all.Pairwise (· < ·)
  below : ∀ id ∈ s.scheduler.all, id < s.scheduler.nextId
  retained : ∀ id ∈ s.scheduler.all, id ∈ acceptedIds s.history
  given : (acceptedIds s.history).Pairwise (· > ·)
  past : ∀ id ∈ acceptedIds s.history, id < s.scheduler.nextId

theorem Ascending.move {s t : System} (ascending : Ascending s)
    (history : t.history = events ++ s.history) (move : ListMove s.scheduler a events t.scheduler) : Ascending t := by
  have given : acceptedIds t.history = acceptedIds events ++ acceptedIds s.history := by
    rw [history, acceptedIds_append]
  cases move with
  | quiet _ all next none =>
    rw [none, List.nil_append] at given
    refine ⟨?_, ?_, ?_, ?_, ?_⟩
    · rw [all]; exact ascending.all
    · rw [all, next]; exact ascending.below
    · rw [all, given]; exact ascending.retained
    · rw [given]; exact ascending.given
    · rw [given, next]; exact ascending.past
  | accepted _ _ all next one =>
    rw [one, List.singleton_append] at given
    refine ⟨?_, ?_, ?_, ?_, ?_⟩
    · rw [all, List.pairwise_append]
      refine ⟨ascending.all, List.pairwise_singleton _ _, ?_⟩
      intro id member new isNew
      obtain rfl := List.mem_singleton.mp isNew
      exact ascending.below id member
    · rw [all, next]
      intro id member
      rcases List.mem_append.mp member with old | new
      · exact Nat.lt_succ_of_lt (ascending.below id old)
      · obtain rfl := List.mem_singleton.mp new
        exact Nat.lt_succ_self _
    · rw [all, given]
      intro id member
      rcases List.mem_append.mp member with old | new
      · exact List.mem_cons_of_mem _ (ascending.retained id old)
      · rw [List.mem_singleton.mp new]
        exact List.mem_cons_self
    · rw [given]
      exact List.pairwise_cons.mpr ⟨ascending.past, ascending.given⟩
    · rw [given, next]
      intro id member
      rcases List.mem_cons.mp member with rfl | old
      · exact Nat.lt_succ_self _
      · exact Nat.lt_succ_of_lt (ascending.past id old)
  | raised _ all next none =>
    rw [none, List.nil_append] at given
    have next : s.scheduler.nextId ≤ t.scheduler.nextId := by omega
    refine ⟨?_, ?_, ?_, ?_, ?_⟩
    · rw [all]; exact ascending.all
    · rw [all]; exact fun id member => Nat.lt_of_lt_of_le (ascending.below id member) next
    · rw [all, given]; exact ascending.retained
    · rw [given]; exact ascending.given
    · rw [given]; exact fun id member => Nat.lt_of_lt_of_le (ascending.past id member) next
  | pruned u all pruned task next none =>
    rw [none, List.nil_append] at given
    have kept : t.scheduler.all.Sublist s.scheduler.all := all ▸ pruned.kept
    refine ⟨ascending.all.sublist kept, ?_, ?_, ?_, ?_⟩
    · rw [next]; exact fun id member => ascending.below id (kept.subset member)
    · rw [given]; exact fun id member => ascending.retained id (kept.subset member)
    · rw [given]; exact ascending.given
    · rw [given, next]; exact ascending.past

theorem System.step_list {s t : System} (done : s.step a = some t) :
    ∃ events, t.history = events ++ s.history ∧ ListMove s.scheduler a events t.scheduler := by
  unfold System.step at done
  obtain ⟨⟨scheduler, events⟩, moved, rfl⟩ := Option.map_eq_some_iff.mp done
  exact ⟨events, rfl, Runtime.step_list moved⟩

theorem ascending_of_reachable {s : System} (reached : Reachable s) : Ascending s := by
  obtain ⟨_, _, _, _, _, created, run⟩ := reached
  refine run.invariant ?_ ?_
  · intro s a t ascending done
    obtain ⟨events, history, move⟩ := System.step_list done
    exact ascending.move history move
  · unfold schedulerNewLimited at created
    split at created
    · cases created
    · obtain rfl := Option.some.inj created
      exact ⟨.nil, by simp, by simp, .nil, by simp [acceptedIds]⟩

theorem nextId_le {s t : System} {actions : List Action} {top : Nat}
    (run : (Machine.ofPartial System.step).Run s actions t) (raises : ∀ a ∈ actions, a.raises ≤ top)
    (initial : s.scheduler.nextId ≤ top) : t.scheduler.nextId ≤ top + (actions.map Action.submits).sum := by
  induction run with
  | start => simpa using initial
  | step _ done ih =>
    rename_i _ _ labels label _
    have before := ih fun a member => raises a (by simp [member])
    have raise := raises label (by simp)
    obtain ⟨_, _, move⟩ := System.step_list done
    rw [List.map_append, List.sum_append, List.map_singleton, List.sum_singleton]
    cases move with
    | quiet _ _ next _ => omega
    | accepted _ submits _ next _ => omega
    | raised _ _ next _ => omega
    | pruned _ _ _ _ next _ => omega

/-- Along every run the list of tasks ascends, so that `find_task` finds exactly the retained
tasks; no id is given out twice, and none passes what the raises and submissions allow. A
step takes only completed tasks nobody holds, the oldest first and in order; one that prunes
ends within the limits or with every completed task held. -/
theorem task_history_searchable_and_bounded {workers maxWorkers maxActive : Nat} {initial : Scheduler}
    {actions : List Action} {s : System}
    (created : schedulerNewLimited workers maxWorkers maxActive = some initial)
    (run : (Machine.ofPartial System.step).Run { scheduler := initial } actions s) :
    s.scheduler.all.Pairwise (· < ·) ∧
      (∀ id, findTask s.scheduler.all id = if id ∈ s.scheduler.all then some id else none) ∧
      (acceptedIds s.history).Nodup ∧
      (∀ id ∈ acceptedIds s.history, id < s.scheduler.nextId) ∧
      (∀ top, (∀ a ∈ actions, a.raises ≤ top) →
        s.scheduler.nextId ≤ top + (actions.map Action.submits).sum) ∧
      ∀ a t, s.step a = some t →
        (t.scheduler.all = s.scheduler.all ++ [s.scheduler.nextId] ∨ t.scheduler.all.Sublist s.scheduler.all) ∧
        (∀ gone ∈ s.scheduler.all, gone ∉ t.scheduler.all → t.scheduler.reclaimable gone = true) ∧
        (∀ gone ∈ s.scheduler.all, gone ∉ t.scheduler.all →
          ∀ stays ∈ t.scheduler.all, t.scheduler.reclaimable stays = true → gone < stays) ∧
        (a.prunes = true → t.scheduler.WithinLimits ∨ ∀ id ∈ t.scheduler.all,
          (t.scheduler.task id).completed = true → (t.scheduler.task id).pinned = true) := by
  have ascending := ascending_of_reachable ⟨workers, maxWorkers, maxActive, initial, actions, created, run⟩
  have fresh : initial.nextId = 0 := by
    unfold schedulerNewLimited at created
    split at created
    · cases created
    · obtain rfl := Option.some.inj created
      rfl
  refine ⟨ascending.all, findTask_eq ascending.all, ascending.given.imp (fun later => Nat.ne_of_gt later),
    ascending.past, ?_, ?_⟩
  · intro top raises
    exact nextId_le run raises (by simp [fresh])
  · intro a t done
    obtain ⟨events, _, move⟩ := System.step_list done
    have unmoved : t.scheduler.all = s.scheduler.all → ∀ gone ∈ s.scheduler.all, gone ∉ t.scheduler.all → False := by
      intro all gone member absent
      rw [all] at absent
      exact absent member
    cases move with
    | quiet other all _ _ =>
      exact ⟨.inr (all ▸ .refl _), fun gone member absent => (unmoved all gone member absent).elim,
        fun gone member absent => (unmoved all gone member absent).elim, by simp [other]⟩
    | accepted other _ all _ _ =>
      refine ⟨.inl all, ?_, ?_, by simp [other]⟩
      · intro gone member absent
        exact absurd (by rw [all]; simp [member]) absent
      · intro gone member absent
        exact absurd (by rw [all]; simp [member]) absent
    | raised other all _ _ =>
      exact ⟨.inr (all ▸ .refl _), fun gone member absent => (unmoved all gone member absent).elim,
        fun gone member absent => (unmoved all gone member absent).elim, by simp [other]⟩
    | pruned u all pruned task _ _ =>
      have free : t.scheduler.reclaimable = u.reclaimable := by
        funext id
        rw [Scheduler.reclaimable, Scheduler.reclaimable, task]
      rw [← all, free]
      exact ⟨.inr pruned.kept, pruned.removed, pruned.oldest (all ▸ ascending.all), fun _ => pruned.bounded⟩

/-- Two tasks with recovered ids finish; the older one is held when the history shrinks. -/
def heldHistoryRun : List Action :=
  [.ensureNextId 5, .submit {}, .submit {}, .acquire 5, .take 0 true, .return 0 { done := true }, .deliver 0,
    .settle 0, .take 0 true, .return 0 { done := true }, .deliver 0, .settle 0, .setHistoryLimits 1 0]

theorem task_history_searchable_and_bounded_held :
    ∃ s, (Machine.ofPartial System.step).Run
        { scheduler := { workers := 1, maxWorkers := 1, maxActive := 0 } } heldHistoryRun s ∧
      s.scheduler.all = [5] ∧ findTask s.scheduler.all 5 = some 5 ∧ findTask s.scheduler.all 6 = none ∧
      s.scheduler.nextId ≤ 5 + 2 := by
  have finishes : (Machine.exec System.step
      { scheduler := { workers := 1, maxWorkers := 1, maxActive := 0 } } heldHistoryRun).any fun s =>
        s.scheduler.all = [5] := by
    decide
  obtain ⟨s, executed, finished⟩ := (Option.any_eq_true _ _).mp finishes
  have all := of_decide_eq_true finished
  have run := Machine.run_ofPartial_of_exec executed
  obtain ⟨-, searched, -, -, bounded, -⟩ := task_history_searchable_and_bounded
    (show schedulerNewLimited 1 1 0 = some _ from rfl) run
  refine ⟨s, run, all, ?_, ?_, bounded 5 (by decide)⟩
  · rw [searched, all]
    rfl
  · rw [searched, all]
    rfl

end CognitiveOs.Runtime
