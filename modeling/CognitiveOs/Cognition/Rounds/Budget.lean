import CognitiveOs.Cognition.Rounds.Loop

/-!
# The budget of rounds

Every message buys at most `maxRounds + 2` rounds, so a run plans a bounded number of times and
ends, and the round after the last one of the budget hands nothing to a tool.
-/

namespace CognitiveOs.Cognition.Rounds

open Foundation Infra

variable {s : Setup}

/-! ### What a step does -/

variable {task : Task} {text : Text}

theorem hasMessages_of_add {t : Task} (added : t.addMessage text = some task) : task.hasMessages = true := by
  simp only [Task.addMessage] at added
  split_ifs at added
  all_goals cases added; rfl

theorem stages_completionOnly (answer : Answer) : (stages true answer).2.ran = 0 := by
  unfold stages hAct
  cases answer.reply with
  | error d => rfl
  | ok plan => by_cases empty : plan.nActions = 0 <;> simp [empty]

namespace Loop

/-- The head of the loop: it is left with the messages as they are or with a message lost, or a
round begins, without messages or with the index put back to zero. -/
theorem enter_cases (l : Loop) (prepared : Bool) :
    (l.enter s prepared).past = l.past ∧
      (((l.enter s prepared).phase = .closing ∧ (l.enter s prepared).task = l.task ∧
          (l.enter s prepared).stopped = l.stopped ∧ (l.mayEnter s = false ∨ l.runAborted = true)) ∨
        ((l.enter s prepared).phase = .closing ∧ l.task.hasMessages = true ∧
          (l.enter s prepared).task.hasMessages = false) ∨
        ((l.enter s prepared).phase = .planning l.roundIdx ∧ l.mayEnter s = true ∧
          (l.enter s prepared).completionOnly = decide (s.maxRounds < l.roundIdx) ∧
          (l.enter s prepared).task.hasMessages = false ∧
          (l.enter s prepared).roundIdx = if l.task.hasMessages then 0 else l.roundIdx)) := by
  unfold enter
  cases admitted : l.mayEnter s with
  | false => simp
  | true =>
    cases aborted : l.runAborted with
    | true => simp
    | false =>
      cases pending : l.task.pendingInput with
      | none => simp [Task.takeMessages, Task.hasMessages, pending]
      | some text => cases prepared <;> simp [Task.takeMessages, Task.hasMessages, pending]

@[simp] theorem goOn_task (l : Loop) (next : Next) : (l.goOn next).task = l.task := by
  cases next <;> rfl

@[simp] theorem goOn_past (l : Loop) (next : Next) : (l.goOn next).past = l.past := by
  cases next <;> rfl

theorem goOn_cases (l : Loop) (next : Next) :
    (l.goOn next).phase = .closing ∨
      ((l.goOn next).phase = .head ∧ (l.goOn next).roundIdx = l.roundIdx + 1) := by
  cases next with
  | again => exact .inr ⟨rfl, rfl⟩
  | leave => exact .inl rfl

theorem perform_cases (l : Loop) (entered : Nat) (answer : Answer) :
    (l.perform s entered answer).task = l.task ∧
      (l.perform s entered answer).past = l.past ++ [⟨entered, (stages l.completionOnly answer).2.ran⟩] ∧
      ((l.perform s entered answer).phase = .closing ∨
        ((l.perform s entered answer).phase = .head ∧
          (l.perform s entered answer).roundIdx = l.roundIdx + 1)) := by
  unfold perform
  dsimp only
  split_ifs
  · exact ⟨goOn_task _ _, goOn_past _ _, goOn_cases _ _⟩
  · exact ⟨goOn_task _ _, goOn_past _ _, goOn_cases _ _⟩
  · exact ⟨goOn_task _ _, goOn_past _ _, goOn_cases _ _⟩
  · exact ⟨goOn_task _ _, goOn_past _ _, goOn_cases { l.performed entered answer with counters := _ } _⟩

theorem close_cases (l : Loop) :
    l.close.past = l.past ∧
      (l.close.phase = .ended ∨
        (l.close.phase = .head ∧ l.close.roundIdx = 1 ∧ l.close.task = l.task ∧
          l.task.hasMessages = true ∧ l.runAborted = false)) := by
  unfold close
  cases aborted : l.runAborted with
  | true => simp
  | false => cases pending : l.task.hasMessages <;> simp [Task.closeMessages, pending]

end Loop

variable {l : Loop}

theorem Loop.roundIdx_le_of_mayEnter (may : l.mayEnter s = true) : l.roundIdx ≤ s.maxRounds + 1 := by
  simp only [mayEnter, Bool.or_eq_true, decide_eq_true_eq, Bool.and_eq_true] at may
  omega

theorem Loop.mayEnter_of_roundIdx_le (within : l.roundIdx ≤ s.maxRounds) : l.mayEnter s = true := by
  simp [mayEnter, within]

variable {next : Loop} {label : Label}

theorem step_cases (taken : step s l label = some next) :
    (∃ text task, label = .message text ∧ l.task.addMessage text = some task ∧ next = { l with task }) ∨
      (label = .cancel ∧ next = { l with task := { l.task with cancelFlag := true } }) ∨
      (label = .stop ∧ next = { l with stopped := true }) ∨
      (∃ prepared, label = .enter prepared ∧ l.phase = .head ∧ next = l.enter s prepared) ∨
      (∃ entered answer, label = .perform answer ∧ l.phase = .planning entered ∧
        next = l.perform s entered answer) ∨
      (label = .close ∧ l.phase = .closing ∧ next = l.close) := by
  cases label with
  | message text =>
    obtain ⟨task, added, rfl⟩ := Option.map_eq_some_iff.mp taken
    exact .inl ⟨text, task, rfl, added, rfl⟩
  | cancel => exact .inr (.inl ⟨rfl, (Option.some.inj taken).symm⟩)
  | stop => exact .inr (.inr (.inl ⟨rfl, (Option.some.inj taken).symm⟩))
  | enter prepared =>
    simp only [step, Option.ite_none_right_eq_some, Option.some.injEq] at taken
    exact .inr (.inr (.inr (.inl ⟨prepared, rfl, taken.1, taken.2.symm⟩)))
  | perform answer =>
    simp only [step] at taken
    split at taken
    · next entered planning =>
      exact .inr (.inr (.inr (.inr (.inl ⟨entered, answer, rfl, planning, (Option.some.inj taken).symm⟩))))
    · cases taken
  | close =>
    simp only [step, Option.ite_none_right_eq_some, Option.some.injEq] at taken
    exact .inr (.inr (.inr (.inr (.inr ⟨rfl, taken.1, taken.2.symm⟩))))

/-! ### What holds in every state of a run -/

variable {entered : Nat}

structure Sound (s : Setup) (l : Loop) : Prop where
  inRange : ∀ entered, l.phase = .planning entered → l.roundIdx ≤ s.maxRounds + 1
  reserved : ∀ entered, l.phase = .planning entered → s.maxRounds < entered → l.completionOnly = true
  quiet : ∀ round ∈ l.past, s.maxRounds < round.index → round.ran = 0

theorem start_sound : Sound s {} :=
  ⟨nofun, nofun, nofun⟩

theorem Sound.of_phase (elsewhere : ∀ entered, l.phase ≠ .planning entered)
    (quiet : ∀ round ∈ l.past, s.maxRounds < round.index → round.ran = 0) : Sound s l :=
  ⟨fun _ planning => absurd planning (elsewhere _), fun _ planning => absurd planning (elsewhere _), quiet⟩

theorem Sound.enter (sound : Sound s l) (prepared : Bool) : Sound s (l.enter s prepared) := by
  obtain ⟨past, closing | closing | ⟨phase, may, only, -, idx⟩⟩ := l.enter_cases (s := s) prepared
  · exact .of_phase (by simp [closing.1]) (past ▸ sound.quiet)
  · exact .of_phase (by simp [closing.1]) (past ▸ sound.quiet)
  · have within := Loop.roundIdx_le_of_mayEnter may
    refine ⟨fun entered _ => ?_, fun entered planning beyond => ?_, past ▸ sound.quiet⟩
    · rw [idx]
      split_ifs
      · exact Nat.zero_le _
      · exact within
    · rw [phase] at planning
      cases planning
      simpa [only] using beyond

theorem Sound.perform (sound : Sound s l) (planning : l.phase = .planning entered) (answer : Answer) :
    Sound s (l.perform s entered answer) := by
  obtain ⟨-, past, after⟩ := l.perform_cases (s := s) entered answer
  refine .of_phase ?_ ?_
  · rcases after with closing | ⟨head, -⟩
    · simp [closing]
    · simp [head]
  · rw [past]
    intro round member beyond
    rcases List.mem_append.mp member with before | here
    · exact sound.quiet round before beyond
    · obtain rfl := List.mem_singleton.mp here
      rw [sound.reserved entered planning beyond]
      exact stages_completionOnly answer

theorem Sound.close (sound : Sound s l) : Sound s l.close := by
  obtain ⟨past, ended | ⟨head, -⟩⟩ := l.close_cases
  · exact .of_phase (by simp [ended]) (past ▸ sound.quiet)
  · exact .of_phase (by simp [head]) (past ▸ sound.quiet)

theorem Sound.step {l next : Loop} {label : Label} (sound : Sound s l)
    (taken : (machine s) l label next) : Sound s next := by
  rcases step_cases taken with ⟨text, task, rfl, added, rfl⟩ | ⟨rfl, rfl⟩ | ⟨rfl, rfl⟩ |
    ⟨prepared, rfl, -, rfl⟩ | ⟨entered, answer, rfl, planning, rfl⟩ | ⟨rfl, -, rfl⟩
  · exact ⟨sound.inRange, sound.reserved, sound.quiet⟩
  · exact ⟨sound.inRange, sound.reserved, sound.quiet⟩
  · exact ⟨sound.inRange, sound.reserved, sound.quiet⟩
  · exact sound.enter prepared
  · exact sound.perform planning answer
  · exact sound.close

theorem past_length {first last : Loop} {labels : List Label} (run : (machine s).Run first labels last) :
    last.past.length = first.past.length + labels.countP Label.isRound := by
  induction run with
  | start => simp
  | step before taken ih =>
    rw [List.countP_append, ← Nat.add_assoc, ← ih]
    rcases step_cases taken with ⟨text, task, rfl, added, rfl⟩ | ⟨rfl, rfl⟩ | ⟨rfl, rfl⟩ |
      ⟨prepared, rfl, -, rfl⟩ | ⟨entered, answer, rfl, planning, rfl⟩ | ⟨rfl, -, rfl⟩
    · rfl
    · rfl
    · rfl
    · rw [(Loop.enter_cases _ prepared).1]; rfl
    · rw [(Loop.perform_cases _ entered answer).2.1, List.length_append]; rfl
    · rw [(Loop.close_cases _).1]; rfl

/-! ### What is left of the budget -/

def remaining (s : Setup) (l : Loop) : Nat :=
  match l.phase, l.task.hasMessages with
  | .head, false | .planning _, false => s.maxRounds + 2 - l.roundIdx
  | .head, true | .closing, true => s.maxRounds + 2
  | .planning _, true => s.maxRounds + 3
  | .closing, false | .ended, _ => 0

def remainingSteps (s : Setup) (l : Loop) : Nat :=
  match l.phase, l.task.hasMessages with
  | .head, false => 2 * (s.maxRounds + 2 - l.roundIdx) + 2
  | .planning _, false => 2 * (s.maxRounds + 2 - l.roundIdx) + 1
  | .head, true => if l.roundIdx ≤ s.maxRounds then 2 * s.maxRounds + 6 else 2 * s.maxRounds + 8
  | .planning _, true => 2 * s.maxRounds + 9
  | .closing, true => if l.runAborted then 1 else 2 * s.maxRounds + 7
  | .closing, false => 1
  | .ended, _ => 0

theorem remaining_message (sound : Sound s l) (added : l.task.addMessage text = some task) :
    remaining s { l with task } ≤ remaining s l + (s.maxRounds + 2) := by
  have after := hasMessages_of_add added
  unfold remaining
  cases phase : l.phase with
  | head => cases before : l.task.hasMessages <;> simp [after]
  | planning entered =>
    have within := sound.inRange entered phase
    cases before : l.task.hasMessages
    · simp only [after]
      omega
    · simp [after]
  | closing => cases before : l.task.hasMessages <;> simp [after]
  | ended => simp

theorem remaining_enter (head : l.phase = .head) (prepared : Bool) :
    remaining s (l.enter s prepared) ≤ remaining s l := by
  obtain ⟨-, ⟨closing, task, -⟩ | ⟨closing, pending, none⟩ | ⟨phase, -, -, none, idx⟩⟩ :=
    l.enter_cases (s := s) prepared
  · simp only [remaining, closing, head, task]
    cases l.task.hasMessages <;> simp
  · simp [remaining, closing, none]
  · simp only [remaining, phase, head, none, idx]
    cases l.task.hasMessages <;> simp

theorem remaining_perform (sound : Sound s l) (planning : l.phase = .planning entered) (answer : Answer) :
    remaining s (l.perform s entered answer) + 1 ≤ remaining s l := by
  have within := sound.inRange entered planning
  obtain ⟨task, -, closing | ⟨head, idx⟩⟩ := l.perform_cases (s := s) entered answer
  · simp only [remaining, closing, planning, task]
    cases l.task.hasMessages
    · show 0 + 1 ≤ s.maxRounds + 2 - l.roundIdx
      omega
    · simp
  · simp only [remaining, head, planning, task, idx]
    cases l.task.hasMessages
    · show s.maxRounds + 2 - (l.roundIdx + 1) + 1 ≤ s.maxRounds + 2 - l.roundIdx
      omega
    · simp

theorem remaining_close (closing : l.phase = .closing) : remaining s l.close ≤ remaining s l := by
  obtain ⟨-, ended | ⟨head, idx, task, pending, -⟩⟩ := l.close_cases
  · simp [remaining, ended]
  · simp [remaining, head, task, pending, closing]

theorem remaining_step (sound : Sound s l) (taken : (machine s) l label next) :
    remaining s next + (if label.isRound then 1 else 0) ≤
      remaining s l + (if label.isMessage then s.maxRounds + 2 else 0) := by
  rcases step_cases taken with ⟨text, task, rfl, added, rfl⟩ | ⟨rfl, rfl⟩ | ⟨rfl, rfl⟩ |
    ⟨prepared, rfl, head, rfl⟩ | ⟨entered, answer, rfl, planning, rfl⟩ | ⟨rfl, closing, rfl⟩
  · exact remaining_message sound added
  · exact Nat.le_refl _
  · exact Nat.le_refl _
  · exact remaining_enter head prepared
  · exact remaining_perform sound planning answer
  · exact remaining_close closing

/-! ### The steps of the program -/

theorem runAborted_of_add (added : l.task.addMessage text = some task) :
    Loop.runAborted { l with task } = l.runAborted := by
  simp only [Task.addMessage] at added
  split_ifs at added
  all_goals cases added; rfl

theorem remainingSteps_message (sound : Sound s l) (added : l.task.addMessage text = some task) :
    remainingSteps s { l with task } ≤ remainingSteps s l + (2 * s.maxRounds + 6) := by
  have after := hasMessages_of_add added
  unfold remainingSteps
  rw [runAborted_of_add added]
  cases phase : l.phase with
  | head =>
    cases before : l.task.hasMessages
    · simp only [after]
      split_ifs <;> omega
    · simp only [after]
      omega
  | planning entered =>
    have within := sound.inRange entered phase
    cases before : l.task.hasMessages <;> simp only [after] <;> omega
  | closing =>
    cases before : l.task.hasMessages
    · simp only [after]
      split_ifs <;> omega
    · simp only [after]
      omega
  | ended => simp

theorem remainingSteps_aborted (phase : next.phase = l.phase) (idx : next.roundIdx = l.roundIdx)
    (pending : next.task.hasMessages = l.task.hasMessages) (aborted : next.runAborted = true) :
    remainingSteps s next ≤ remainingSteps s l := by
  simp only [remainingSteps, phase, idx, pending, aborted]
  cases l.phase <;> cases l.task.hasMessages
  case closing.true =>
    simp only [↓reduceIte]
    split_ifs <;> omega
  all_goals exact Nat.le_refl _

theorem remainingSteps_enter (head : l.phase = .head) (prepared : Bool) :
    remainingSteps s (l.enter s prepared) + 1 ≤ remainingSteps s l := by
  obtain ⟨-, ⟨closing, task, stopped, why⟩ | ⟨closing, pending, none⟩ | ⟨phase, -, -, none, idx⟩⟩ :=
    l.enter_cases (s := s) prepared
  · have aborted : (l.enter s prepared).runAborted = l.runAborted := by
      simp only [Loop.runAborted, task, stopped]
    simp only [remainingSteps, closing, head, task, aborted]
    cases l.task.hasMessages
    · simp
    · by_cases within : l.roundIdx ≤ s.maxRounds
      · have stop : l.runAborted = true :=
          why.resolve_left (by simp [Loop.mayEnter_of_roundIdx_le within])
        simp [stop, within]
      · simp only [within, ↓reduceIte]
        split_ifs <;> omega
  · simp only [remainingSteps, closing, none, head, pending]
    split_ifs <;> omega
  · simp only [remainingSteps, phase, none, idx, head]
    cases l.task.hasMessages
    · simp
    · simp only [↓reduceIte]
      split_ifs <;> omega

theorem remainingSteps_perform (sound : Sound s l) (planning : l.phase = .planning entered) (answer : Answer) :
    remainingSteps s (l.perform s entered answer) + 1 ≤ remainingSteps s l := by
  have within := sound.inRange entered planning
  obtain ⟨task, -, closing | ⟨head, idx⟩⟩ := l.perform_cases (s := s) entered answer
  · simp only [remainingSteps, closing, planning, task]
    cases l.task.hasMessages
    · simp only
      omega
    · simp only
      split_ifs <;> omega
  · simp only [remainingSteps, head, planning, task, idx]
    cases l.task.hasMessages
    · simp only
      omega
    · simp only
      split_ifs <;> omega

theorem remainingSteps_close (positive : 0 < s.maxRounds) (closing : l.phase = .closing) :
    remainingSteps s l.close + 1 ≤ remainingSteps s l := by
  obtain ⟨-, ended | ⟨head, idx, task, pending, going⟩⟩ := l.close_cases
  · simp only [remainingSteps, ended, closing]
    cases l.task.hasMessages
    · simp
    · simp only
      split_ifs <;> omega
  · have first : (1 : Nat) ≤ s.maxRounds := positive
    simp [remainingSteps, head, idx, task, pending, closing, going, first]

theorem remainingSteps_step (positive : 0 < s.maxRounds) (sound : Sound s l) (taken : (machine s) l label next) :
    remainingSteps s next + (if label.isOwn then 1 else 0) ≤
      remainingSteps s l + (if label.isMessage then 2 * s.maxRounds + 6 else 0) := by
  rcases step_cases taken with ⟨text, task, rfl, added, rfl⟩ | ⟨rfl, rfl⟩ | ⟨rfl, rfl⟩ |
    ⟨prepared, rfl, head, rfl⟩ | ⟨entered, answer, rfl, planning, rfl⟩ | ⟨rfl, closing, rfl⟩
  · exact remainingSteps_message sound added
  · exact remainingSteps_aborted rfl rfl rfl (by simp [Loop.runAborted])
  · exact remainingSteps_aborted rfl rfl rfl (by simp [Loop.runAborted])
  · exact remainingSteps_enter head prepared
  · exact remainingSteps_perform sound planning answer
  · exact remainingSteps_close positive closing

/-! ### The budget -/

theorem own_step (l : Loop) (going : l.phase ≠ .ended) (prepared : Bool) (answer : Answer) :
    ∃ label ∈ [.enter prepared, .perform answer, .close], ∃ next, (machine s) l label next := by
  cases phase : l.phase with
  | head => exact ⟨.enter prepared, by simp, l.enter s prepared, by simp [Machine.ofPartial, step, phase]⟩
  | planning entered =>
    exact ⟨.perform answer, by simp, l.perform s entered answer, by simp [Machine.ofPartial, step, phase]⟩
  | closing => exact ⟨.close, by simp, l.close, by simp [Machine.ofPartial, step, phase]⟩
  | ended => exact absurd phase going

/-- The loop of a run ends: it plans at most `maxRounds + 2` times for itself and for each message
that is accepted, its own steps are bounded likewise, and it is stuck nowhere before its end. The
rounds past the budget hand no action to a tool. -/
theorem rounds_within_budget (positive : 0 < s.maxRounds) {labels : List Label} {last : Loop}
    (run : (machine s).Run {} labels last) :
    last.past.length ≤ (labels.countP Label.isMessage + 1) * (s.maxRounds + 2) ∧
      (∀ round ∈ last.past, s.maxRounds < round.index → round.ran = 0) ∧
      labels.countP Label.isOwn ≤ (labels.countP Label.isMessage + 1) * (2 * s.maxRounds + 6) ∧
      (last.phase ≠ .ended → ∀ prepared answer,
        ∃ label ∈ [.enter prepared, .perform answer, .close], ∃ next, (machine s) last label next) := by
  have kept : ∀ l label next, Sound s l → (machine s) l label next → Sound s next :=
    fun _ _ _ sound taken => sound.step taken
  have rounds : remaining s last + labels.countP Label.isRound ≤
      remaining s {} + labels.countP Label.isMessage * (s.maxRounds + 2) :=
    run.potential (remaining s) kept (fun _ _ _ sound taken => remaining_step sound taken) start_sound
  have steps : remainingSteps s last + labels.countP Label.isOwn ≤
      remainingSteps s {} + labels.countP Label.isMessage * (2 * s.maxRounds + 6) :=
    run.potential (remainingSteps s) kept (fun _ _ _ sound taken => remainingSteps_step positive sound taken)
      start_sound
  have atStart : remaining s {} ≤ s.maxRounds + 2 := Nat.sub_le _ _
  have stepsAtStart : remainingSteps s {} ≤ 2 * s.maxRounds + 6 := by
    show 2 * (s.maxRounds + 2 - 1) + 2 ≤ _
    omega
  have logged := past_length run
  refine ⟨?_, (run.invariant kept start_sound).quiet, ?_, fun going => own_step last going⟩
  · have none : (({} : Loop).past).length = 0 := rfl
    rw [logged, none, Nat.add_mul, Nat.one_mul]
    omega
  · rw [Nat.add_mul, Nat.one_mul]
    omega

/-! ### A run into the reserved round -/

/-- A round whose planner proposes one action; the tool would run it and find something new. -/
def working (raw : String) (signature : UInt64) : Answer where
  reply := .ok { raw := ascii raw, nActions := 1, endTurn := .none, signature }
  truncated := false
  acting := { ran := 1, okActions := 1, newObservations := 1 }
  unresolvedFailures := false
  toolsSucceeded := true
  fileChecksFailed := false
  toolCalls := 1
  repetitive := false

def reservedRun : List Label :=
  [.enter true, .message (ascii "also the tests"), .perform (working "list" 1), .enter true, .close,
    .enter true, .perform (working "read" 2), .enter true, .perform (working "test" 3), .enter true,
    .perform (working "more" 4), .close]

theorem rounds_within_budget_reserved :
    ∃ last : Loop, last.phase = .ended ∧
      last.past.map (fun round => (round.index, round.ran)) = [(1, 1), (1, 1), (1, 1), (2, 0)] ∧
      last.past.length ≤ (1 + 1) * (1 + 2) := by
  have done : (Machine.exec (step ⟨1, true⟩) {} reservedRun).map
      (fun l => (l.phase, l.past.map fun round => (round.index, round.ran))) =
      some (.ended, [(1, 1), (1, 1), (1, 1), (2, 0)]) := by
    decide +kernel
  obtain ⟨last, executed, state⟩ := Option.map_eq_some_iff.mp done
  obtain ⟨ended, past⟩ : _ ∧ _ := by simpa only [Prod.mk.injEq] using state
  exact ⟨last, ended, past,
    (rounds_within_budget (by decide) (Machine.run_ofPartial_of_exec executed)).1⟩

end CognitiveOs.Cognition.Rounds
