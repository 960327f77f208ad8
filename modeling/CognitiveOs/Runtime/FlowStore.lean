import CognitiveOs.Foundation.Machine
import CognitiveOs.Infra.Text
import Mathlib.Data.List.Nodup

/-!
# The registry of flows

`runtime/flow_store.c` over process starts: the records of a process, the file behind them, and
which record a status mark reaches. The numbers of the file are integers that a `double` holds.
-/

namespace CognitiveOs.Runtime.FlowStore

open Foundation Infra

structure FlowRecord where
  id : Int
  taskId : Int
  name : Text
  input : Text
  dagJson : Text
  workspace : Text
  automatic : Bool
  status : Text
  createdMs : Int
  updatedMs : Int
  deriving DecidableEq

/-- A record of the file, `none` for a field that is missing or has another type. -/
structure Saved where
  id : Option Int
  taskId : Option Int
  name : Option Text
  input : Option Text
  dag : Option Text
  workspace : Option Text
  automatic : Bool
  status : Option Text
  createdMs : Option Int
  updatedMs : Option Int
  deriving DecidableEq

def FlowRecord.saved (r : FlowRecord) : Saved where
  id := some r.id
  taskId := some r.taskId
  name := some r.name
  input := some r.input
  dag := some r.dagJson
  workspace := some r.workspace
  automatic := r.automatic
  status := some r.status
  createdMs := some r.createdMs
  updatedMs := some r.updatedMs

/-- A record still `RUNNING` when its process died never finished. -/
def statusOnLoad : Option Text → Text
  | some status => if status = ascii "RUNNING" then ascii "INTERRUPTED" else status
  | none => ascii "?"

def Saved.record (it : Saved) (id : Int) : FlowRecord where
  id
  taskId := it.taskId.getD (-1)
  name := it.name.getD []
  input := it.input.getD []
  dagJson := it.dag.getD []
  workspace := it.workspace.getD []
  automatic := it.automatic
  status := statusOnLoad it.status
  createdMs := it.createdMs.getD 0
  updatedMs := it.updatedMs.getD 0

structure State where
  recs : List FlowRecord := []
  nextId : Int := 0
  /-- What `flow_store_init` returned: the records before it are those of earlier processes. -/
  restored : Nat := 0
  /-- There is a `path`. -/
  persistent : Bool := false
  /-- The records of the file, `none` when it has none that can be read. -/
  file : Option (List Saved) := none

def State.earlier (st : State) : List FlowRecord :=
  st.recs.take st.restored

def State.own (st : State) : List FlowRecord :=
  st.recs.drop st.restored

/-- How `fs_write_file` ends. -/
inductive Write where
  | written
  /-- The file is as before. -/
  | refused
  /-- What is left of the file cannot be parsed. -/
  | broken
  deriving DecidableEq

/-- `save_locked`. -/
def save (st : State) (write : Write) : State :=
  if st.persistent then
    match write with
    | .written => { st with file := some (st.recs.map FlowRecord.saved) }
    | .refused => st
    | .broken => { st with file := none }
  else st

/-- One round of the loop of `flow_store_init`: the record keeps its id, or is re-keyed. -/
def restoreOne (loaded : List FlowRecord × Int) (it : Saved) : List FlowRecord × Int :=
  let (recs, nextId) := loaded
  let id := it.id.getD 0
  if id < 0 ∨ recs.any (fun r => r.id = id) then (recs ++ [it.record nextId], nextId + 1)
  else if nextId ≤ id then (recs ++ [it.record id], id + 1)
  else (recs ++ [it.record id], nextId)

/-- A new process: `flow_store_new` and `flow_store_init`. -/
def start (st : State) (persistent : Bool) (write : Write) : State :=
  if persistent then
    match st.file with
    | none => { persistent, file := none }
    | some items =>
      let (recs, nextId) := items.foldl restoreOne ([], 0)
      save { recs, nextId, restored := recs.length, persistent, file := st.file } write
  else { file := st.file }

/-- The arguments of `flow_store_add_ex`. -/
structure Addition where
  taskId : Int
  name : Option Text
  input : Option Text
  dagJson : Option Text
  workspace : Option Text
  automatic : Bool
  deriving DecidableEq

/-- `flow_store_add_ex`. -/
def add (st : State) (a : Addition) (now : Int) (write : Write) : State :=
  match a.dagJson with
  | none | some [] => st
  | some dagJson =>
    if a.taskId < 0 then st
    else
      save
        { st with
          recs := st.recs ++
            [{ id := st.nextId, taskId := a.taskId, name := a.name.getD [], input := a.input.getD [], dagJson,
               workspace := a.workspace.getD [], automatic := a.automatic, status := ascii "RUNNING",
               createdMs := now, updatedMs := now }]
          nextId := st.nextId + 1 }
        write

def FlowRecord.marked (r : FlowRecord) (status : Text) (now : Int) : FlowRecord :=
  { r with status, updatedMs := now }

/-- The loop of `flow_store_mark` up to its `break`. -/
def markFirst (taskId : Int) (status : Text) (now : Int) : List FlowRecord → List FlowRecord
  | [] => []
  | r :: rest =>
    if r.taskId = taskId then r.marked status now :: rest else r :: markFirst taskId status now rest

/-- `flow_store_mark`. -/
def mark (st : State) (taskId : Int) (status : Text) (now : Int) (write : Write) : State :=
  if status = [] then st
  else if st.recs.any fun r => r.taskId = taskId then
    save { st with recs := markFirst taskId status now st.recs } write
  else st

inductive Label where
  | start (persistent : Bool) (write : Write)
  | add (a : Addition) (now : Int) (write : Write)
  | mark (taskId : Int) (status : Text) (now : Int) (write : Write)
  deriving DecidableEq

def step (st : State) : Label → State
  | .start persistent write => start st persistent write
  | .add a now write => add st a now write
  | .mark taskId status now write => mark st taskId status now write

def store : Machine State Label :=
  .ofFun step

def installed (file : Option (List Saved)) : State :=
  { file }

@[simp] theorem save_recs (st : State) (write : Write) : (save st write).recs = st.recs := by
  unfold save
  split
  · cases write <;> rfl
  · rfl

@[simp] theorem save_nextId (st : State) (write : Write) : (save st write).nextId = st.nextId := by
  unfold save
  split
  · cases write <;> rfl
  · rfl

@[simp] theorem save_restored (st : State) (write : Write) : (save st write).restored = st.restored := by
  unfold save
  split
  · cases write <;> rfl
  · rfl

/-! ### Ids -/

variable {recs : List FlowRecord} {nextId : Int} {r : FlowRecord}

structure Keyed (recs : List FlowRecord) (nextId : Int) : Prop where
  unique : (recs.map FlowRecord.id).Nodup
  below : ∀ r ∈ recs, r.id < nextId
  next : 0 ≤ nextId

theorem keyed_nil : Keyed [] 0 := by
  constructor <;> simp

theorem Keyed.snoc {after : Int} (keyed : Keyed recs nextId) (fresh : ∀ other ∈ recs, other.id ≠ r.id)
    (above : r.id < after) (grows : nextId ≤ after) :
    Keyed (recs ++ [r]) after where
  unique := by
    rw [List.map_append]
    refine keyed.unique.append (List.nodup_singleton _) fun id left right => ?_
    obtain ⟨other, member, rfl⟩ := List.mem_map.mp left
    exact fresh other member (List.mem_singleton.mp right)
  below := by
    intro other member
    rcases List.mem_append.mp member with before | new
    · have := keyed.below other before
      omega
    · rw [List.mem_singleton.mp new]
      exact above
  next := by
    have := keyed.next
    omega

theorem Keyed.push (keyed : Keyed recs nextId) (isNext : r.id = nextId) : Keyed (recs ++ [r]) (nextId + 1) := by
  refine keyed.snoc (fun other member => ?_) (by omega) (by omega)
  have := keyed.below other member
  omega

theorem Keyed.restoreOne (keyed : Keyed recs nextId) (it : Saved) :
    Keyed (restoreOne (recs, nextId) it).1 (restoreOne (recs, nextId) it).2 := by
  simp only [FlowStore.restoreOne]
  split
  · exact keyed.push rfl
  · rename_i known
    simp only [List.any_eq_true, decide_eq_true_eq, not_or, not_exists, not_and, Int.not_lt] at known
    split
    · exact keyed.snoc known.2 (Int.lt_succ _) (by dsimp only; omega)
    · rename_i lower
      exact keyed.snoc known.2 (Int.not_le.mp lower) (Int.le_refl _)

theorem keyed_restored (items : List Saved) (loaded : List FlowRecord × Int) (keyed : Keyed loaded.1 loaded.2) :
    Keyed (items.foldl restoreOne loaded).1 (items.foldl restoreOne loaded).2 := by
  induction items generalizing loaded with
  | nil => exact keyed
  | cons it items ih => exact ih _ (keyed.restoreOne it)

@[simp] theorem markFirst_ids (taskId : Int) (status : Text) (now : Int) (recs : List FlowRecord) :
    (markFirst taskId status now recs).map FlowRecord.id = recs.map FlowRecord.id := by
  induction recs with
  | nil => rfl
  | cons r rest ih =>
    simp only [markFirst]
    split
    · rfl
    · simp [ih]

theorem Keyed.of_ids {other : List FlowRecord} (keyed : Keyed recs nextId)
    (same : other.map FlowRecord.id = recs.map FlowRecord.id) : Keyed other nextId where
  unique := same ▸ keyed.unique
  below := by
    intro r member
    have kept : r.id ∈ recs.map FlowRecord.id := same ▸ List.mem_map_of_mem member
    obtain ⟨before, isBefore, id⟩ := List.mem_map.mp kept
    exact id ▸ keyed.below before isBefore
  next := keyed.next

theorem Keyed.step {st : State} (keyed : Keyed st.recs st.nextId) (label : Label) :
    Keyed (step st label).recs (step st label).nextId := by
  cases label with
  | start persistent write =>
    simp only [FlowStore.step, start]
    split
    · split
      · exact keyed_nil
      · simp only [save_recs, save_nextId]
        exact keyed_restored _ _ keyed_nil
    · exact keyed_nil
  | add a now write =>
    simp only [FlowStore.step, add]
    split
    · exact keyed
    · exact keyed
    · split
      · exact keyed
      · simp only [save_recs, save_nextId]
        exact keyed.push rfl
  | mark taskId status now write =>
    simp only [FlowStore.step, mark]
    split
    · exact keyed
    · split
      · simp only [save_recs, save_nextId]
        exact keyed.of_ids (markFirst_ids ..)
      · exact keyed

/-! ### Marks -/

variable {taskId : Int}

def Marks (taskId : Int) (status : Text) (now : Int) (recs after : List FlowRecord) : Prop :=
  (∃ before r rest, recs = before ++ r :: rest ∧ (∀ other ∈ before, other.taskId ≠ taskId) ∧ r.taskId = taskId ∧
      after = before ++ r.marked status now :: rest) ∨
    (∀ r ∈ recs, r.taskId ≠ taskId) ∧ after = recs

/-- The mark reaches the record that the current process added for the task, and no other one. -/
def MarksOwn (st : State) (taskId : Int) (status : Text) (now : Int) (after : State) : Prop :=
  after.earlier = st.earlier ∧ Marks taskId status now st.own after.own

theorem marks_markFirst (taskId : Int) (status : Text) (now : Int) (recs : List FlowRecord) :
    Marks taskId status now recs (markFirst taskId status now recs) := by
  induction recs with
  | nil => exact .inr ⟨by simp, rfl⟩
  | cons r rest ih =>
    by_cases here : r.taskId = taskId
    · exact .inl ⟨[], r, rest, rfl, by simp, here, by simp [markFirst, here]⟩
    · simp only [markFirst, here, if_false]
      rcases ih with ⟨before, found, later, rfl, others, isTask, same⟩ | ⟨others, same⟩
      · refine .inl ⟨r :: before, found, later, rfl, ?_, isTask, by simp [same]⟩
        exact List.forall_mem_cons.mpr ⟨here, others⟩
      · exact .inr ⟨List.forall_mem_cons.mpr ⟨here, others⟩, by rw [same]⟩

theorem markFirst_append (status : Text) (now : Int) (rest : List FlowRecord) (others : ∀ r ∈ recs, r.taskId ≠ taskId) :
    markFirst taskId status now (recs ++ rest) = recs ++ markFirst taskId status now rest := by
  induction recs with
  | nil => rfl
  | cons r recs ih =>
    obtain ⟨here, later⟩ := List.forall_mem_cons.mp others
    simp [markFirst, here, ih later]

theorem length_markFirst (taskId : Int) (status : Text) (now : Int) (recs : List FlowRecord) :
    (markFirst taskId status now recs).length = recs.length := by
  have same := congrArg List.length (markFirst_ids taskId status now recs)
  rwa [List.length_map, List.length_map] at same

theorem mark_recs (st : State) (taskId : Int) {status : Text} (given : status ≠ []) (now : Int) (write : Write) :
    (mark st taskId status now write).recs = markFirst taskId status now st.recs ∧
      (mark st taskId status now write).restored = st.restored := by
  simp only [mark, given, if_false]
  split
  · simp
  · rename_i nowhere
    refine ⟨?_, rfl⟩
    have others : ∀ r ∈ st.recs, r.taskId ≠ taskId := by simpa using nowhere
    simpa [markFirst] using (markFirst_append status now [] others).symm

theorem take_drop_of_append {α : Type*} (n : Nat) (xs ys : List α) (same : ys.length = (xs.drop n).length) :
    (xs.take n ++ ys).take n = xs.take n ∧ (xs.take n ++ ys).drop n = ys := by
  rw [List.length_drop] at same
  rcases Nat.le_total n xs.length with short | long
  · have length : (xs.take n).length = n := List.length_take_of_le short
    exact ⟨List.take_left' length, List.drop_left' length⟩
  · obtain rfl : ys = [] := List.length_eq_zero_iff.mp (by omega)
    simp [List.take_of_length_le long, List.drop_of_length_le long]

theorem marksOwn_of_apart {st : State} (apart : ∀ r ∈ st.earlier, r.taskId ≠ taskId) {status : Text}
    (given : status ≠ []) (now : Int) (write : Write) :
    MarksOwn st taskId status now (mark st taskId status now write) := by
  obtain ⟨recs, restored⟩ := mark_recs st taskId given now write
  have whole : markFirst taskId status now st.recs = st.earlier ++ markFirst taskId status now st.own := by
    rw [← markFirst_append status now _ apart, State.earlier, State.own, List.take_append_drop]
  obtain ⟨front, back⟩ := take_drop_of_append st.restored st.recs (markFirst taskId status now st.own)
    (length_markFirst ..)
  refine ⟨?_, ?_⟩
  · rw [State.earlier, recs, restored, whole]
    exact front
  · have own : (mark st taskId status now write).own = markFirst taskId status now st.own := by
      rw [State.own, recs, restored, whole]
      exact back
    rw [own]
    exact marks_markFirst ..

theorem exists_mark_ne (now : Int) {n : Nat} (member : r ∈ recs.take n) (isTask : r.taskId = taskId) :
    ∃ status, status ≠ [] ∧ (markFirst taskId status now recs).take n ≠ recs.take n := by
  induction recs generalizing n with
  | nil => simp at member
  | cons head rest ih =>
    cases n with
    | zero => simp at member
    | succ n =>
      by_cases here : head.taskId = taskId
      · refine ⟨120 :: head.status, by simp, fun same => ?_⟩
        simp only [markFirst, here, if_true, List.take_succ_cons, List.cons.injEq] at same
        have status := congrArg (fun r => r.status.length) same.1
        simp [FlowRecord.marked] at status
      · have later : r ∈ rest.take n := by
          rcases List.mem_cons.mp member with rfl | later
          · exact absurd isTask here
          · exact later
        obtain ⟨status, given, differs⟩ := ih later
        exact ⟨status, given, by simpa [markFirst, here] using differs⟩

/-- In every run from any file the ids are different and below the next one, and the marks of a
task reach its own record and leave those of earlier processes alone exactly when none of them has
its number. -/
theorem marks_of_run {file : Option (List Saved)} {labels : List Label} {st : State}
    (run : store.Run (installed file) labels st) :
    (st.recs.map FlowRecord.id).Nodup ∧ (∀ r ∈ st.recs, r.id < st.nextId) ∧
      ∀ taskId,
        (∀ status now write, status ≠ [] → MarksOwn st taskId status now (mark st taskId status now write)) ↔
          ∀ r ∈ st.earlier, r.taskId ≠ taskId := by
  have keyed : Keyed st.recs st.nextId :=
    @Machine.Run.invariant _ _ _ (fun st => Keyed st.recs st.nextId)
      (fun _ label _ before taken => taken ▸ before.step label) _ _ _ run keyed_nil
  refine ⟨keyed.unique, keyed.below, fun taskId => ⟨fun own r member isTask => ?_, fun apart status now write given =>
    marksOwn_of_apart apart given now write⟩⟩
  obtain ⟨status, given, differs⟩ := exists_mark_ne 0 member isTask
  obtain ⟨recs, restored⟩ := mark_recs st taskId given 0 .written
  have same := (own status 0 .written given).1
  rw [State.earlier, recs, restored] at same
  exact differs same

/-! ### A number used twice -/

def build : Addition where
  taskId := 0
  name := none
  input := some (ascii "build")
  dagJson := some (ascii "{}")
  workspace := none
  automatic := false

def twice : List Label :=
  [.start true .written, .add build 10 .written, .mark 0 (ascii "FAILED") 20 .written, .start true .written,
    .add build 30 .written]

/-- The second flow ends, and the first one is marked. -/
theorem marks_of_run_twice :
    ∃ labels st taskId status now write, store.Run (installed none) labels st ∧ status ≠ [] ∧
      (∃ r ∈ st.own, r.taskId = taskId) ∧
      (mark st taskId status now write).earlier ≠ st.earlier ∧ (mark st taskId status now write).own = st.own :=
  ⟨twice, _, 0, ascii "DONE", 40, .written, Machine.run_ofFun_iff.mpr rfl, by decide +kernel⟩

theorem marks_of_run_restart :
    ∃ st : State, store.Run (installed none) (twice ++ [.add { build with taskId := 1 } 40 .written]) st ∧
      (st.recs.map FlowRecord.id).Nodup :=
  have run := Machine.run_ofFun_iff.mpr rfl
  ⟨_, run, (marks_of_run run).1⟩

end CognitiveOs.Runtime.FlowStore
