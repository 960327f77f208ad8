import CognitiveOs.Cognition.Acceptance
import CognitiveOs.Cognition.Failures
import CognitiveOs.Cognition.PageTable
import CognitiveOs.Tx.Model

/-!
# Acting

One round of planned actions, as `h_act` performs it: what becomes of each action, and what
the loop remembers of it.
-/

namespace CognitiveOs.Cognition

open Infra Os Transactions

structure Config where
  workspace : Text
  useTransaction : Bool
  /-- How `cJSON` prints a double. -/
  number : Rat → Text

/-- What an action meets: the files before and after it, and what the tool answers. -/
structure ActEnv where
  before : World
  after : World
  /-- Refused by the policy, the approval or a hook. -/
  denied : Bool := false
  /-- `tool_validate_args` fails. -/
  argsInvalid : Bool := false
  ok : Bool := true
  /-- The output of the tool, when there is a result at all. -/
  output : Option Text := none
  /-- What `cJSON_Parse` makes of the output from its first brace on. -/
  report : Option Json := none
  /-- The action only loads a prompt skill. -/
  promptSkill : Bool := false

structure InvalidArgs where
  sig : UInt64
  attempts : Nat
  tool : Text

/-- The obligations of `file_equalities`, and the verdict of the last verification. -/
structure FileChecks where
  equalities : Option (List (Text × Text)) := none
  invalid : Bool := false
  failed : Bool := false

/-- `struct reasoning`, as far as the claims of a run rest on it. -/
structure Reasoning where
  failures : Failures := {}
  registry : Registry := {}
  produced : List ArtifactSeen := []
  reads : Reads := {}
  searches : Searches := {}
  invalidArgs : List InvalidArgs := []
  lastFailedSig : UInt64 := 0
  sameActionFailures : Nat := 0
  toolFailAborted : Bool := false
  allActionsOk : Bool := true
  roundMutated : Bool := false
  txOutput : TxOutput := {}
  runMutated : Bool := false
  runSuccessfulTools : Nat := 0
  acceptance : Acceptance := {}
  fileChecks : FileChecks := {}

inductive Outcome where
  | denied
  | suppressed
  | reused
  | executed
  deriving DecidableEq

structure Done where
  action : PlannedAction
  env : ActEnv
  outcome : Outcome

namespace Done

def after (d : Done) : World :=
  match d.outcome with
  | .executed => d.env.after
  | _ => d.env.before

def changes (d : Done) : Prop :=
  d.env.before ≠ d.after

def succeeded (d : Done) : Bool :=
  match d.outcome with
  | .reused => true
  | .executed => d.env.ok
  | _ => false

def failed (d : Done) : Bool :=
  match d.outcome with
  | .suppressed => true
  | .executed => !d.env.ok
  | _ => false

end Done

/-! ### Invalid arguments -/

def attemptsOf (entries : List InvalidArgs) (sig : UInt64) : Nat :=
  ((entries.find? fun e => e.sig = sig).map InvalidArgs.attempts).getD 0

def noteInvalidArgs (entries : List InvalidArgs) (sig : UInt64) (tool : Text) : List InvalidArgs :=
  match entries.findIdx? fun e => e.sig = sig with
  | some k => entries.modify k fun e => { e with attempts := e.attempts + 1 }
  | none =>
    (if entries.length = 32 then entries.drop 1 else entries) ++
      [{ sig, attempts := 1, tool := snprintf 48 tool }]

def resetInvalidArgs (entries : List InvalidArgs) (tool : Text) : List InvalidArgs :=
  entries.map fun e => if e.tool = tool then { e with attempts := 0 } else e

/-! ### One action -/

variable (c : Config)

/-- The checks before an action is executed. The first call with invalid arguments is not
stopped here: the tool refuses it itself. -/
def outcomeOf (r : Reasoning) (a : PlannedAction) (env : ActEnv) : Outcome :=
  if env.denied then .denied
  else if env.argsInvalid &&
      1 < attemptsOf r.invalidArgs (semanticActionSignature c.number a) + 1 then .suppressed
  else if isSearch a.tool &&
      r.searches.repeated a.tool (searchSignature c.number c.workspace env.before a) then .reused
  else .executed

def countInvalid (r : Reasoning) (a : PlannedAction) (env : ActEnv) : Reasoning :=
  if env.argsInvalid then
    { r with invalidArgs :=
        noteInvalidArgs r.invalidArgs (semanticActionSignature c.number a) a.tool }
  else r

def refuse (r : Reasoning) (a : PlannedAction) (env : ActEnv) : Reasoning :=
  { r with registry := runStepAdd c.workspace env.before r.registry a.tool a.args (-1) }

def suppress (r : Reasoning) (a : PlannedAction) (env : ActEnv) : Reasoning :=
  let r := countInvalid c r a env
  { r with
    allActionsOk := false
    failures := noteFailedTool c.workspace env.before r.failures a.tool a.args
    registry := runStepAdd c.workspace env.before r.registry a.tool a.args 0
    toolFailAborted := r.toolFailAborted ||
      3 ≤ attemptsOf r.invalidArgs (semanticActionSignature c.number a) }

def reuse (r : Reasoning) (a : PlannedAction) (env : ActEnv) : Reasoning :=
  let r := countInvalid c r a env
  { r with
    failures := resolveFailedTool c.workspace env.before r.failures a.tool a.args
    invalidArgs := resetInvalidArgs r.invalidArgs a.tool
    registry := runStepAdd c.workspace env.before r.registry a.tool a.args 1 }

/-- The output of the call as the loop sees it: a line of the transaction, or the repaired
output of the executor. -/
def callOutput (r : Reasoning) (a : PlannedAction) (env : ActEnv) : TxOutput × Text :=
  match env.output with
  | none => (r.txOutput, [])
  | some out =>
    if c.useTransaction then
      let output := txAppendOutput r.txOutput a.tool out
      (output, output.text.drop r.txOutput.text.length)
    else (r.txOutput, strUtf8Sanitize out)

def runTool (r : Reasoning) (a : PlannedAction) (env : ActEnv) : Reasoning :=
  let registry :=
    runStepAdd c.workspace env.after r.registry a.tool a.args (if env.ok then 1 else 0)
  { r with
    searches :=
      if isSearch a.tool || probeOnly a then r.searches
      else { r.searches with searchSeen := [] }
    txOutput := (callOutput c r a env).1
    registry := rememberToolImage env.after registry env.report }

def onFailure (r : Reasoning) (a : PlannedAction) (env : ActEnv) : Reasoning :=
  let sig := semanticActionSignature c.number a
  let failures := if r.lastFailedSig = sig then r.sameActionFailures + 1 else 1
  { r with
    allActionsOk := false
    failures := noteFailedTool c.workspace env.after r.failures a.tool a.args
    lastFailedSig := sig
    sameActionFailures := failures
    toolFailAborted := r.toolFailAborted || 3 ≤ failures }

def onSuccess (r : Reasoning) (a : PlannedAction) (env : ActEnv) (observed : Text) : Reasoning :=
  let found :=
    recordDiscoveredReadPaths c.workspace env.after r.failures a.tool a.args
      (strHead observed 65536)
  { r with
    produced :=
      if isSearch a.tool || isFileMutation a.tool then r.produced
      else
        declaredArtifactProgress c.workspace env.after r.registry.sequence r.produced a.args
          (captureActionOutputVersions c.workspace env.before a.args)
    failures := resolveFailedTool c.workspace env.after found a.tool a.args
    invalidArgs := resetInvalidArgs r.invalidArgs a.tool
    lastFailedSig := 0
    sameActionFailures := 0
    reads :=
      if a.tool = ascii "file_read" then
        recordReadPage c.workspace env.after r.reads a.args (snprintf 240 observed)
      else r.reads
    runSuccessfulTools := r.runSuccessfulTools + 1
    roundMutated := r.roundMutated || (!isSearch a.tool && !env.promptSkill)
    searches :=
      if isSearch a.tool then
        r.searches.record a.tool (searchSignature c.number c.workspace env.after a)
      else r.searches }

def execute (r : Reasoning) (a : PlannedAction) (env : ActEnv) : Reasoning :=
  let r := countInvalid c r a env
  let ran := runTool c r a env
  if env.ok then onSuccess c ran a env (callOutput c r a env).2 else onFailure c ran a env

def perform (r : Reasoning) (d : Done) : Reasoning :=
  match d.outcome with
  | .denied => refuse c r d.action d.env
  | .suppressed => suppress c r d.action d.env
  | .reused => reuse c r d.action d.env
  | .executed => execute c r d.action d.env

@[simp] theorem perform_acceptance (r : Reasoning) (d : Done) :
    (perform c r d).acceptance = r.acceptance := by
  unfold perform
  split <;> simp only [refuse, suppress, reuse, execute, countInvalid, onSuccess, onFailure, runTool]
  all_goals split
  all_goals try rfl
  all_goals split <;> rfl

def searchesAfter (s : Searches) (a : PlannedAction) (env : ActEnv) : Searches :=
  let cleared := if isSearch a.tool || probeOnly a then s else { s with searchSeen := [] }
  if env.ok && isSearch a.tool then
    cleared.record a.tool (searchSignature c.number c.workspace env.after a)
  else cleared

theorem perform_searches (r : Reasoning) (d : Done) :
    (perform c r d).searches =
      if d.outcome = .executed then searchesAfter c r.searches d.action d.env else r.searches := by
  have counted (a : PlannedAction) (env : ActEnv) : (countInvalid c r a env).searches = r.searches := by
    unfold countInvalid
    split <;> rfl
  rcases d with ⟨a, env, outcome⟩
  cases outcome with
  | denied => rfl
  | suppressed => exact counted a env
  | reused => exact counted a env
  | executed =>
    cases ran : env.ok with
    | true => simp [perform, execute, ran, onSuccess, runTool, counted, searchesAfter]
    | false => simp [perform, execute, ran, onFailure, runTool, counted, searchesAfter]

/-- The `ok` of the step of an action. -/
def Done.stepOk (d : Done) : Int :=
  if d.succeeded then 1 else if d.outcome = .denied then -1 else 0

theorem perform_registry (r : Reasoning) (d : Done) :
    (perform c r d).registry =
      let g := runStepAdd c.workspace d.after r.registry d.action.tool d.action.args d.stepOk
      if d.outcome = .executed then rememberToolImage d.after g d.env.report else g := by
  have counted (a : PlannedAction) (env : ActEnv) : (countInvalid c r a env).registry = r.registry := by
    unfold countInvalid
    split <;> rfl
  rcases d with ⟨a, env, outcome⟩
  cases outcome with
  | denied => rfl
  | suppressed => simp [perform, suppress, counted, Done.stepOk, Done.succeeded, Done.after]
  | reused => simp [perform, reuse, counted, Done.stepOk, Done.succeeded, Done.after]
  | executed =>
    cases ran : env.ok with
    | true =>
      simp [perform, execute, ran, onSuccess, runTool, counted, Done.stepOk, Done.succeeded,
        Done.after]
    | false =>
      simp [perform, execute, ran, onFailure, runTool, counted, Done.stepOk, Done.succeeded,
        Done.after]

theorem perform_produced (r : Reasoning) (d : Done) :
    (perform c r d).produced =
      if d.outcome = .executed ∧ d.env.ok = true ∧ isSearch d.action.tool = false ∧
          isFileMutation d.action.tool = false then
        declaredArtifactProgress c.workspace d.after (r.registry.sequence + 1) r.produced
          d.action.args (captureActionOutputVersions c.workspace d.env.before d.action.args)
      else r.produced := by
  have counted (a : PlannedAction) (env : ActEnv) :
      (countInvalid c r a env).produced = r.produced ∧
        (countInvalid c r a env).registry = r.registry := by
    unfold countInvalid
    split <;> exact ⟨rfl, rfl⟩
  rcases d with ⟨a, env, outcome⟩
  cases outcome with
  | denied => rfl
  | suppressed => exact (counted a env).1
  | reused => exact (counted a env).1
  | executed =>
    cases ran : env.ok with
    | true =>
      simp only [perform, execute, ran, if_true, onSuccess, runTool, counted, Done.after,
        rememberToolImage, runStepAdd, true_and]
      cases isSearch a.tool <;> cases isFileMutation a.tool <;> simp
    | false => simp [perform, execute, ran, onFailure, runTool, counted]

def foundFailures (r : Reasoning) (d : Done) : Failures :=
  match d.outcome with
  | .executed =>
    recordDiscoveredReadPaths c.workspace d.env.after r.failures d.action.tool d.action.args
      (strHead (callOutput c r d.action d.env).2 65536)
  | _ => r.failures

theorem perform_failures (r : Reasoning) (d : Done) :
    (perform c r d).failures =
      if d.succeeded then
        resolveFailedTool c.workspace d.after (foundFailures c r d) d.action.tool d.action.args
      else if d.failed then
        noteFailedTool c.workspace d.after r.failures d.action.tool d.action.args
      else r.failures := by
  have counted (a : PlannedAction) (env : ActEnv) :
      (countInvalid c r a env).failures = r.failures ∧
        callOutput c (countInvalid c r a env) a env = callOutput c r a env := by
    unfold countInvalid
    split <;> exact ⟨rfl, rfl⟩
  rcases d with ⟨a, env, outcome⟩
  cases outcome with
  | denied => rfl
  | suppressed => simp [perform, suppress, Done.succeeded, Done.failed, Done.after, counted]
  | reused => simp [perform, reuse, Done.succeeded, Done.after, foundFailures, counted]
  | executed =>
    cases ran : env.ok with
    | true =>
      simp [perform, execute, ran, onSuccess, runTool, Done.succeeded, Done.after, foundFailures,
        counted]
    | false =>
      simp [perform, execute, ran, onFailure, runTool, Done.succeeded, Done.failed, Done.after,
        counted]

def doneOf (r : Reasoning) (x : PlannedAction × ActEnv) : Done :=
  { action := x.1, env := x.2, outcome := outcomeOf c r x.1 x.2 }

def donesOf (r : Reasoning) : List (PlannedAction × ActEnv) → List Done
  | [] => []
  | x :: xs => doneOf c r x :: donesOf (perform c r (doneOf c r x)) xs

theorem mem_donesOf {r : Reasoning} {xs : List (PlannedAction × ActEnv)} {d : Done}
    (member : d ∈ donesOf c r xs) : (d.action, d.env) ∈ xs := by
  induction xs generalizing r with
  | nil => cases member
  | cons x xs ih =>
    rcases List.mem_cons.mp member with rfl | later
    · exact List.mem_cons_self
    · exact List.mem_cons_of_mem x (ih later)

/-! ### One round -/

/-- The actions of a round up to where it was left, and the end of its transaction. -/
structure Round where
  actions : List (PlannedAction × ActEnv)
  /-- `tx_validate`. -/
  validates : Bool := true
  /-- The files around the commit or the rollback. -/
  before : World
  after : World

def beginRound (r : Reasoning) : Reasoning :=
  { r with allActionsOk := true, roundMutated := false, txOutput := {} }

def acted (r : Reasoning) (round : Round) : Reasoning :=
  (donesOf c (beginRound r) round.actions).foldl (perform c) (beginRound r)

def rollsBack (r : Reasoning) (round : Round) : Bool :=
  c.useTransaction && !((acted c r round).allActionsOk && round.validates)

def hAct (r : Reasoning) (round : Round) : Reasoning :=
  let done := acted c r round
  if rollsBack c r round then done
  else { done with runMutated := done.runMutated || done.roundMutated }

end CognitiveOs.Cognition
