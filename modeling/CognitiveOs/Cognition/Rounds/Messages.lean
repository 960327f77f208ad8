import CognitiveOs.Cognition.Rounds.Loop

/-!
# The messages of a running task

`runtime/task.c`: messages are added to a task, taken and closed by any threads, one lock around
each operation. A run of them is told with its history: what was accepted, under which revision,
and what each take returned.
-/

namespace CognitiveOs.Cognition.Rounds.Messages

open Foundation Infra

/-- A message and the revision that `task_add_message` answered. -/
structure Accepted where
  revision : Nat
  message : Text
  deriving DecidableEq, Repr

/-- What one take returned, and the messages that were waiting for it. -/
structure Taken where
  messages : List Accepted
  text : Text
  deriving DecidableEq, Repr

structure State where
  task : Task := {}
  /-- `status >= TS_DONE`. -/
  finished : Bool := false
  accepted : List Accepted := []
  taken : List Taken := []
  /-- The accepted messages since the last take that returned something. -/
  waiting : List Accepted := []

inductive Label where
  /-- `task_add_message`, and whether `realloc` has memory. -/
  | add (message : Text) (memory : Bool)
  /-- `task_take_messages`. -/
  | take
  /-- `task_close_messages`. -/
  | close
  /-- `task_cancel` sets the flag. -/
  | cancel
  /-- The scheduler gives the task its last status. -/
  | finish
  deriving DecidableEq, Repr

def add (st : State) (message : Text) (memory : Bool) : State :=
  if st.finished || !memory then st
  else
    match st.task.addMessage message with
    | none => st
    | some task =>
      let entry : Accepted := ⟨task.updateCount, message⟩
      { st with task, accepted := st.accepted ++ [entry], waiting := st.waiting ++ [entry] }

def take (st : State) : State :=
  match st.task.takeMessages with
  | (none, task) => { st with task }
  | (some text, task) => { st with task, taken := st.taken ++ [⟨st.waiting, text⟩], waiting := [] }

def step (st : State) : Label → State
  | .add message memory => add st message memory
  | .take => take st
  | .close => { st with task := st.task.closeMessages.2 }
  | .cancel => { st with task := { st.task with cancelFlag := true } }
  | .finish => { st with finished := true }

def messages : Machine State Label :=
  .ofFun step

def joined : List Accepted → Text
  | [] => []
  | [last] => last.message
  | first :: rest => first.message ++ 10 :: joined rest

/-- `pending_input` of the messages that wait. -/
def pendingOf (waiting : List Accepted) : Option Text :=
  if waiting = [] then none else some (joined waiting)

theorem joined_append (waiting : List Accepted) (entry : Accepted) (some_wait : waiting ≠ []) :
    joined (waiting ++ [entry]) = joined waiting ++ 10 :: entry.message := by
  induction waiting with
  | nil => exact absurd rfl some_wait
  | cons first rest ih =>
    cases rest with
    | nil => rfl
    | cons second rest => simpa [joined] using ih (by simp)

variable {waiting : List Accepted}

theorem joined_ne_nil (some_wait : waiting ≠ []) (spoken : ∀ entry ∈ waiting, entry.message ≠ []) :
    joined waiting ≠ [] := by
  match waiting with
  | [] => exact absurd rfl some_wait
  | [last] => exact spoken last (by simp)
  | first :: second :: rest => simp [joined]

structure Inv (st : State) : Prop where
  order : st.accepted = st.taken.flatMap Taken.messages ++ st.waiting
  pending : st.task.pendingInput = pendingOf st.waiting
  texts : ∀ taken ∈ st.taken, taken.messages ≠ [] ∧ taken.text = joined taken.messages
  spoken : ∀ entry ∈ st.waiting, entry.message ≠ []
  /-- The revisions count the accepted messages. -/
  revisions : st.accepted.map Accepted.revision = List.range' 1 st.task.updateCount
  count : st.task.updateCount ≤ 32
  size : (st.task.pendingInput.getD []).length ≤ 16385
  closed : st.task.updatesClosed = true → st.waiting = []

theorem inv_start : Inv {} := by
  constructor <;> simp [pendingOf]

theorem pendingOf_eq_none : pendingOf waiting = none ↔ waiting = [] := by
  by_cases empty : waiting = [] <;> simp [pendingOf, empty]

theorem addMessage_cases {task next : Task} {message : Text} (added : task.addMessage message = some next) :
    message ≠ [] ∧ task.updatesClosed = false ∧ task.updateCount < 32 ∧
      (task.pendingInput.getD []).length + message.length ≤ 16384 ∧
      next = { task with
        pendingInput := some (if task.pendingInput.getD [] = [] then message
          else task.pendingInput.getD [] ++ 10 :: message)
        updateCount := task.updateCount + 1 } := by
  simp only [Task.addMessage] at added
  split at added
  · cases added
  · rename_i spoken
    split at added
    · cases added
    · rename_i open_
      split at added
      · cases added
      · rename_i fits
        simp only [Bool.or_eq_true, not_or, Bool.not_eq_true] at open_
        simp only [Bool.or_eq_true, decide_eq_true_eq, not_or, Nat.not_lt, Nat.not_le] at fits
        exact ⟨spoken, open_.1, fits.2, fits.1, (Option.some.inj added).symm⟩

theorem pending_add {pending : Option Text} (entry : Accepted) (same : pending = pendingOf waiting)
    (spoken : ∀ entry ∈ waiting, entry.message ≠ []) :
    some (if pending.getD [] = [] then entry.message else pending.getD [] ++ 10 :: entry.message) =
      pendingOf (waiting ++ [entry]) := by
  by_cases empty : waiting = []
  · simp [same, empty, pendingOf, joined]
  · have text := joined_ne_nil empty spoken
    simp [same, pendingOf, empty, text, joined_append waiting entry empty]

variable {st : State}

theorem Inv.add (inv : Inv st) (message : Text) (memory : Bool) : Inv (add st message memory) := by
  unfold Messages.add
  split
  · exact inv
  · split
    · exact inv
    · rename_i task added
      obtain ⟨spoken, still, room, fits, rfl⟩ := addMessage_cases added
      refine ⟨?_, ?_, inv.texts, ?_, ?_, room, ?_, ?_⟩
      · simp [inv.order]
      · exact pending_add ⟨st.task.updateCount + 1, message⟩ inv.pending inv.spoken
      · intro entry member
        rcases List.mem_append.mp member with before | new
        · exact inv.spoken entry before
        · obtain rfl := List.mem_singleton.mp new
          exact spoken
      · simp only [List.map_append, inv.revisions, List.map_cons, List.map_nil]
        rw [List.range'_concat]
        simp [Nat.add_comm]
      · simp only [Option.getD_some]
        split
        · omega
        · simp only [List.length_append, List.length_cons]
          omega
      · intro closed
        simp [still] at closed

theorem Inv.take (inv : Inv st) : Inv (take st) := by
  unfold Messages.take Task.takeMessages
  cases pending : st.task.pendingInput with
  | none => exact { inv with pending := by simpa [pending] using inv.pending, size := by simp }
  | some text =>
    have same : pendingOf st.waiting = some text := by rw [← inv.pending, pending]
    have waits : st.waiting ≠ [] := by
      intro empty
      simp [empty, pendingOf] at same
    refine ⟨?_, rfl, ?_, by simp, inv.revisions, inv.count, by simp, fun _ => rfl⟩
    · simp [inv.order]
    · intro taken member
      rcases List.mem_append.mp member with before | new
      · exact inv.texts taken before
      · obtain rfl := List.mem_singleton.mp new
        simp only [pendingOf, waits, if_false, Option.some.injEq] at same
        exact ⟨waits, same.symm⟩

theorem closeMessages_cases (task : Task) :
    (task.pendingInput = none ∧ task.closeMessages = (true, { task with updatesClosed := true })) ∨
      (task.pendingInput ≠ none ∧ task.closeMessages = (false, task)) := by
  cases pending : task.pendingInput <;> simp [Task.closeMessages, Task.hasMessages, pending]

theorem Inv.close (inv : Inv st) : Inv { st with task := st.task.closeMessages.2 } := by
  rcases closeMessages_cases st.task with ⟨none_wait, same⟩ | ⟨-, same⟩ <;> rw [same]
  · exact { inv with closed := fun _ => pendingOf_eq_none.mp (inv.pending.symm.trans none_wait) }
  · exact inv

theorem Inv.step {st : State} (inv : Inv st) (label : Label) : Inv (step st label) := by
  cases label with
  | add message memory => exact inv.add message memory
  | take => exact inv.take
  | close => exact inv.close
  | cancel => exact { inv with }
  | finish => exact { inv with }

theorem Inv.run {first last : State} {labels : List Label} (inv : Inv first)
    (run : messages.Run first labels last) : Inv last :=
  run.invariant (fun _ label _ inv taken => taken ▸ inv.step label) inv

/-! ### After the close -/

theorem closed_step (closed : st.task.updatesClosed = true) (label : Label) :
    (step st label).task.updatesClosed = true ∧ (step st label).accepted = st.accepted := by
  cases label with
  | add message memory =>
    simp only [step, add]
    split
    · exact ⟨closed, rfl⟩
    · split
      · exact ⟨closed, rfl⟩
      · rename_i task added
        rw [(addMessage_cases added).2.1] at closed
        cases closed
  | take =>
    simp only [step, take, Task.takeMessages]
    cases st.task.pendingInput <;> exact ⟨closed, rfl⟩
  | close =>
    rcases closeMessages_cases st.task with ⟨-, same⟩ | ⟨-, same⟩
    · exact ⟨by simp [step, same], rfl⟩
    · exact ⟨by simpa [step, same] using closed, rfl⟩
  | cancel => exact ⟨closed, rfl⟩
  | finish => exact ⟨closed, rfl⟩

theorem closed_run {first last : State} {labels : List Label} (run : messages.Run first labels last)
    (closed : first.task.updatesClosed = true) : last.accepted = first.accepted :=
  (@Machine.Run.invariant _ _ _ (fun st => st.task.updatesClosed = true ∧ st.accepted = first.accepted)
    (fun _ label _ kept taken => by
      subst taken
      obtain ⟨still, same⟩ := closed_step kept.1 label
      exact ⟨still, same.trans kept.2⟩)
    _ _ _ run ⟨closed, rfl⟩).2

/-- The accepted messages have different revisions; a take returns the text of the ones that
waited, and they are in acceptance order, the taken before the waiting. A close that succeeds finds
none waiting, and none is accepted afterwards. -/
theorem messages_delivered {labels : List Label} {st : State} (run : messages.Run {} labels st) :
    (st.accepted.map Accepted.revision).Nodup ∧
      st.accepted = st.taken.flatMap Taken.messages ++ st.waiting ∧
      (∀ taken ∈ st.taken, taken.messages ≠ [] ∧ taken.text = joined taken.messages) ∧
      st.task.pendingInput = pendingOf st.waiting ∧
      (st.task.closeMessages.1 = true ∨ st.task.updatesClosed = true →
        st.accepted = st.taken.flatMap Taken.messages) ∧
      (st.task.updatesClosed = true →
        ∀ more later, messages.Run st more later → later.accepted = st.accepted) ∧
      st.waiting.length ≤ 32 ∧ (st.task.pendingInput.getD []).length ≤ 16385 := by
  have inv := inv_start.run run
  have emptied (none_wait : st.waiting = []) : st.accepted = st.taken.flatMap Taken.messages := by
    simpa [none_wait] using inv.order
  refine ⟨?_, inv.order, inv.texts, inv.pending, ?_, ?_, ?_, inv.size⟩
  · rw [inv.revisions]
    exact List.nodup_range'
  · rintro (ready | closed)
    · refine emptied (pendingOf_eq_none.mp ?_)
      rw [← inv.pending]
      rcases closeMessages_cases st.task with ⟨none_wait, -⟩ | ⟨-, same⟩
      · exact none_wait
      · simp [same] at ready
    · exact emptied (inv.closed closed)
  · intro closed more later rest
    exact closed_run rest closed
  · have counted := congrArg List.length inv.revisions
    have placed := congrArg List.length inv.order
    simp only [List.length_map, List.length_range'] at counted
    simp only [List.length_append] at placed
    have bound := inv.count
    omega

/-- Two messages in one take, one more that keeps the first close from succeeding. -/
theorem messages_delivered_run :
    ∃ st : State, messages.Run {}
        [.add (ascii "a") true, .add (ascii "b") true, .take, .add (ascii "c") true, .close, .take,
          .close, .add (ascii "d") true] st ∧
      st.taken.map Taken.text = [ascii "a\nb", ascii "c"] ∧ st.accepted.length = 3 ∧
      (st.accepted.map Accepted.revision).Nodup :=
  have run := Machine.run_ofFun_iff.mpr rfl
  ⟨_, run, by decide +kernel, by decide +kernel, (messages_delivered run).1⟩

end CognitiveOs.Cognition.Rounds.Messages
