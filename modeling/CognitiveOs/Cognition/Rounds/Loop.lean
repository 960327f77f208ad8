import CognitiveOs.Foundation.Machine
import CognitiveOs.Infra.Text

/-!
# The round loop

The loop of `reasoning_run_ex`: when it plans once more, when it stops, and what the messages
that a user adds during the run do to it. What the model and the tools answer in a round is data
of the step, and so is whether the text of a message can be prepared.
-/

namespace CognitiveOs.Cognition.Rounds

open Foundation Infra

structure Setup where
  maxRounds : Nat
  /-- `planner_uses_native_tools`. -/
  nativeTools : Bool

/-! ### The messages of a task -/

/-- `struct task`, as far as the messages are concerned. -/
structure Task where
  pendingInput : Option Text := none
  updateCount : Nat := 0
  updatesClosed : Bool := false
  cancelFlag : Bool := false

namespace Task

/-- `task_add_message`, with `none` for a message that is refused. -/
def addMessage (t : Task) (message : Text) : Option Task :=
  if message = [] then none
  else if t.updatesClosed || t.cancelFlag then none
  else
    let old := t.pendingInput.getD []
    if 16384 < old.length + message.length || 32 ≤ t.updateCount then none
    else
      some { t with
        pendingInput := some (if old = [] then message else old ++ 10 :: message)
        updateCount := t.updateCount + 1 }

/-- `task_take_messages`. -/
def takeMessages (t : Task) : Option Text × Task :=
  (t.pendingInput, { t with pendingInput := none })

/-- `task_has_messages`. -/
def hasMessages (t : Task) : Bool :=
  t.pendingInput.isSome

/-- `task_close_messages`. -/
def closeMessages (t : Task) : Bool × Task :=
  if t.hasMessages then (false, t) else (true, { t with updatesClosed := true })

end Task

/-! ### One pass of the stages -/

/-- `planner_native_end_turn`. -/
inductive EndTurn where
  | none | complete | blocked | contract | commentary
  deriving DecidableEq

inductive FailedStage where
  | transport | response | protocol | other
  deriving DecidableEq

/-- `planner_model_diagnostic` of a request without a decision. -/
structure Diagnostic where
  stage : FailedStage
  httpStatus : Nat
  noActionResponse : Bool
  /-- The planner returned `-2`. -/
  visualRequestFailed : Bool

structure Plan where
  raw : Text
  nActions : Nat
  endTurn : EndTurn
  /-- `last_plan_action_sig`. -/
  signature : UInt64

def Plan.hadPlan (p : Plan) : Bool :=
  0 < p.nActions || p.endTurn = .contract

/-- What the loop over the actions in `h_act` leaves. -/
structure Acting where
  /-- The actions that were handed to a tool. -/
  ran : Nat := 0
  okActions : Nat := 0
  deniedActions : Nat := 0
  allActionsOk : Bool := true
  newObservations : Nat := 0
  repeatReads : Nat := 0
  searchSkips : Nat := 0
  /-- It has set `tool_fail_aborted`. -/
  failedRepeatedly : Bool := false

/-- What the planner and the tools answer in a round, with what the loop reads of the rest. -/
structure Answer where
  reply : Except Diagnostic Plan
  /-- `planner_response_truncated`. -/
  truncated : Bool
  acting : Acting
  /-- There are failed tools that nothing has made good. -/
  unresolvedFailures : Bool
  /-- `run_successful_tools` is positive. -/
  toolsSucceeded : Bool
  fileChecksFailed : Bool
  toolCalls : Nat
  /-- `answer_has_repetition` of the answer. -/
  repetitive : Bool

/-- `h_act`, whose loop over the actions would leave `acting`. -/
def hAct (completionOnly : Bool) (nActions : Nat) (acting : Acting) : Bool × Acting :=
  if nActions = 0 then (true, {})
  else if completionOnly then (false, {})
  else (true, acting)

/-- `h_verify`, with `evaluator_verify`. -/
def hVerify (nActions : Nat) (acting : Acting) : Bool :=
  nActions - acting.deniedActions = 0 || 0 < acting.okActions

/-- `state_machine_run`: whether it reaches `ST_DONE`, and what the actions leave. -/
def stages (completionOnly : Bool) (answer : Answer) : Bool × Acting :=
  match answer.reply with
  | .error _ => (false, {})
  | .ok plan =>
    let (acted, acting) := hAct completionOnly plan.nActions answer.acting
    (acted && hVerify plan.nActions acting, acting)

/-! ### What the loop counts -/

structure Counters where
  consecFail : Nat := 0
  transportFailStreak : Nat := 0
  noActionRounds : Nat := 0
  failureRecoveryNudges : Nat := 0
  truncatedResponseNudges : Nat := 0
  completionReviewed : Bool := false
  completionGrace : Bool := false
  /-- There is a `truncated_prefix`. -/
  truncatedPrefix : Bool := false
  noProgressRounds : Nat := 0
  cycleReads : Nat := 0
  cycleNudged : Bool := false
  stallNudged : Bool := false
  fileCheckRejections : Nat := 0
  fileCheckAtTools : Nat := 0
  prevPlan : Option Text := none
  lastPlanRaw : Option Text := none
  prevPlanActionSig : UInt64 := 0
  lastPlanActionSig : UInt64 := 0

namespace Counters

/-- `h_reason` keeps the decision for the comparison with the next one. -/
def remember (k : Counters) (plan : Plan) : Counters :=
  { k with
    prevPlanActionSig := k.lastPlanActionSig
    lastPlanActionSig := plan.signature
    prevPlan := k.lastPlanRaw
    lastPlanRaw := some plan.raw }

def replanned (k : Counters) : Counters :=
  { k with
    fileCheckRejections := 0
    stallNudged := false
    noProgressRounds := 0
    cycleReads := 0
    cycleNudged := false
    noActionRounds := 0
    prevPlan := none }

/-- The way back from the end of a run to `restart_planning`. -/
def restarted (k : Counters) : Counters :=
  { k with noActionRounds := 0, consecFail := 0, completionGrace := false }

def progressed (k : Counters) (acting : Acting) : Counters :=
  if 0 < acting.newObservations then
    { k with noProgressRounds := 0, cycleReads := 0, cycleNudged := false }
  else
    let k := { k with
      noProgressRounds := k.noProgressRounds + 1
      cycleReads := k.cycleReads + acting.repeatReads }
    if 4 ≤ k.noProgressRounds && 2 ≤ k.cycleReads then { k with cycleNudged := true } else k

def cycling (k : Counters) (acting : Acting) : Bool :=
  acting.newObservations = 0 && 8 ≤ k.noProgressRounds && 2 ≤ k.cycleReads

def samePlan (k : Counters) : Bool :=
  (k.prevPlanActionSig ≠ 0 && k.prevPlanActionSig = k.lastPlanActionSig) ||
    (k.prevPlan.isSome && k.prevPlan = k.lastPlanRaw)

end Counters

/-- `REASONING_CONSEC_FAIL_ABORT`. -/
def consecFailAbort : Nat :=
  5

/-- Whether the loop goes on after a round, `continue` or `break`. -/
inductive Next where
  | again | leave
  deriving DecidableEq

variable (s : Setup) (idx : Nat)

/-! ### After the stages -/

def afterFailure (answer : Answer) (d : Diagnostic) (k : Counters) : Next × Counters :=
  let k := { k with
    consecFail := k.consecFail + 1
    transportFailStreak := if d.stage = .transport then k.transportFailStreak + 1 else 0 }
  if answer.truncated && (!d.visualRequestFailed || d.stage = .response) then
    if 2 ≤ k.truncatedResponseNudges || s.maxRounds ≤ idx then (.leave, k)
    else (.again, { k with truncatedResponseNudges := k.truncatedResponseNudges + 1 })
  else if d.visualRequestFailed then (.leave, k)
  else if d.httpStatus = 429 then (.leave, k)
  else if 2 ≤ k.transportFailStreak then (.leave, k)
  else
    let k := if d.noActionResponse then { k with noActionRounds := k.noActionRounds + 1 } else k
    if d.noActionResponse && 2 ≤ k.noActionRounds then (.leave, k)
    else if s.maxRounds ≤ idx then (.leave, k)
    else if consecFailAbort ≤ k.consecFail then (.leave, k)
    else (.again, k)

def afterFailedPlan (k : Counters) : Next × Counters :=
  let k := { k with consecFail := k.consecFail + 1, transportFailStreak := 0 }
  if s.maxRounds ≤ idx then (.leave, k)
  else if consecFailAbort ≤ k.consecFail then (.leave, k)
  else (.again, k)

def afterCompletion (answer : Answer) (endTurn : EndTurn) (k : Counters) : Next × Counters :=
  if endTurn = .complete && answer.toolsSucceeded && !k.completionReviewed then
    if s.maxRounds ≤ idx then
      if !k.completionGrace && idx = s.maxRounds then
        (.again, { k with completionGrace := true, completionReviewed := true })
      else (.leave, k)
    else (.again, { k with completionReviewed := true })
  else (.leave, k)

def afterAnswer (answer : Answer) (endTurn : EndTurn) (k : Counters) : Next × Counters :=
  if answer.repetitive then (.leave, k)
  else if endTurn = .blocked then (.leave, k)
  else if endTurn = .commentary then
    let k := { k with noActionRounds := k.noActionRounds + 1 }
    if 3 ≤ k.noActionRounds || s.maxRounds ≤ idx then (.leave, k) else (.again, k)
  else if answer.fileChecksFailed then
    let k := { k with
      fileCheckRejections := if k.fileCheckAtTools = answer.toolCalls then k.fileCheckRejections + 1 else 1
      fileCheckAtTools := answer.toolCalls }
    if 3 ≤ k.fileCheckRejections || s.maxRounds ≤ idx then (.leave, k) else (.again, k)
  else if answer.unresolvedFailures && k.failureRecoveryNudges < 1 && idx < s.maxRounds then
    (.again, { k with failureRecoveryNudges := k.failureRecoveryNudges + 1 })
  else if answer.truncated then
    let k := { k with truncatedPrefix := true }
    if 2 ≤ k.truncatedResponseNudges || s.maxRounds ≤ idx then (.leave, k)
    else (.again, { k with truncatedResponseNudges := k.truncatedResponseNudges + 1 })
  else if k.truncatedPrefix then (.leave, { k with truncatedPrefix := false })
  else afterCompletion s idx answer endTurn k

/-- New observations open the review again; the last round of native tools may open the
reserved one. -/
def observed (answer : Answer) (acting : Acting) (k : Counters) : Counters :=
  let k :=
    if 0 < acting.newObservations then { k with noActionRounds := 0, completionReviewed := false } else k
  if s.nativeTools && idx = s.maxRounds && 0 < acting.newObservations && acting.allActionsOk &&
      !answer.unresolvedFailures && !k.completionGrace then
    { k with completionGrace := true, completionReviewed := true }
  else k

def afterPlan (answer : Answer) (nActions : Nat) (acting : Acting) (k : Counters) : Next × Counters :=
  let k := observed s idx answer acting k
  if 0 < nActions && acting.searchSkips = nActions then (.again, { k with prevPlan := none })
  else if acting.newObservations = 0 && k.samePlan then
    if !k.stallNudged && idx < s.maxRounds then (.again, { k with stallNudged := true, prevPlan := none })
    else (.leave, k)
  else (.again, k)

def afterDecision (answer : Answer) (plan : Plan) (done : Bool) (acting : Acting) (k : Counters) :
    Next × Counters :=
  if !done then afterFailedPlan s idx k
  else
    let k := { k with consecFail := 0, transportFailStreak := 0 }
    if plan.hadPlan then afterPlan s idx answer plan.nActions acting k
    else afterAnswer s idx answer plan.endTurn k

def afterStages (answer : Answer) (done : Bool) (acting : Acting) (k : Counters) : Next × Counters :=
  match answer.reply with
  | .error d => afterFailure s idx answer d k
  | .ok plan =>
    if 0 < plan.nActions then
      let k := k.progressed acting
      if k.cycling acting then (.leave, k) else afterDecision s idx answer plan done acting k
    else afterDecision s idx answer plan done acting k

/-! ### The loop -/

inductive Phase where
  /-- At the head of the loop. -/
  | head
  /-- In the stages of a round that was entered with this `round_idx`. -/
  | planning (entered : Nat)
  /-- After the loop, before the messages are closed. -/
  | closing
  | ended
  deriving DecidableEq

/-- A round that has been performed: the `round_idx` it was entered with, and the actions that
were handed to a tool. -/
structure Round where
  index : Nat
  ran : Nat

structure Loop where
  task : Task := {}
  /-- The deadline has passed, or the task above is to stop. -/
  stopped : Bool := false
  phase : Phase := .head
  roundIdx : Nat := 1
  completionOnly : Bool := false
  toolFailAborted : Bool := false
  counters : Counters := {}
  /-- The rounds so far, which the program does not keep. -/
  past : List Round := []

namespace Loop

def runAborted (l : Loop) : Bool :=
  l.task.cancelFlag || l.stopped

/-- The condition of the `for`. -/
def mayEnter (l : Loop) : Bool :=
  l.roundIdx ≤ s.maxRounds || (l.counters.completionGrace && l.roundIdx = s.maxRounds + 1)

/-- From the condition of the loop to its stages; `prepared` tells whether the text of a message
can be added to the prompt. -/
def enter (l : Loop) (prepared : Bool) : Loop :=
  if !l.mayEnter s then { l with phase := .closing }
  else if l.runAborted then { l with phase := .closing }
  else
    let (messages, task) := l.task.takeMessages
    let l := { l with completionOnly := s.maxRounds < l.roundIdx, task }
    match messages with
    | none => { l with phase := .planning l.roundIdx }
    | some _ =>
      if !prepared then { l with phase := .closing }
      else { l with phase := .planning l.roundIdx, counters := l.counters.replanned, roundIdx := 0 }

/-- `continue` and `break`. -/
def goOn (l : Loop) : Next → Loop
  | .again => { l with phase := .head, roundIdx := l.roundIdx + 1 }
  | .leave => { l with phase := .closing }

/-- The round is in the log, and `h_reason` and `h_act` have left their marks. -/
def performed (l : Loop) (entered : Nat) (answer : Answer) : Loop :=
  let (_, acting) := stages l.completionOnly answer
  { l with
    past := l.past ++ [⟨entered, acting.ran⟩]
    toolFailAborted := l.toolFailAborted || acting.failedRepeatedly
    counters := match answer.reply with
      | .error _ => l.counters
      | .ok plan => l.counters.remember plan }

def perform (l : Loop) (entered : Nat) (answer : Answer) : Loop :=
  let (done, acting) := stages l.completionOnly answer
  let l := l.performed entered answer
  if l.runAborted then l.goOn .leave
  else if l.toolFailAborted then l.goOn .leave
  else if l.task.hasMessages then l.goOn .again
  else
    let (next, counters) := afterStages s l.roundIdx answer done acting l.counters
    { l with counters }.goOn next

def close (l : Loop) : Loop :=
  if l.runAborted then { l with phase := .ended }
  else
    match l.task.closeMessages with
    | (true, task) => { l with task, phase := .ended }
    | (false, _) => { l with counters := l.counters.restarted, roundIdx := 1, phase := .head }

end Loop

inductive Label where
  /-- The user adds a message, and it is accepted. -/
  | message (text : Text)
  | cancel
  /-- The deadline passes, or the task above is told to stop. -/
  | stop
  | enter (prepared : Bool)
  | perform (answer : Answer)
  | close

namespace Label

def isMessage : Label → Bool
  | message _ => true
  | _ => false

def isOwn : Label → Bool
  | enter _ | perform _ | close => true
  | message _ | cancel | stop => false

def isRound : Label → Bool
  | perform _ => true
  | _ => false

end Label

def step (l : Loop) : Label → Option Loop
  | .message text => (l.task.addMessage text).map fun task => { l with task }
  | .cancel => some { l with task := { l.task with cancelFlag := true } }
  | .stop => some { l with stopped := true }
  | .enter prepared => if l.phase = .head then some (l.enter s prepared) else none
  | .perform answer =>
    match l.phase with
    | .planning entered => some (l.perform s entered answer)
    | _ => none
  | .close => if l.phase = .closing then some l.close else none

/-- The loop of a run, with the messages and the end of the task coming at any time. -/
abbrev machine : Machine Loop Label :=
  .ofPartial (step s)

end CognitiveOs.Cognition.Rounds
