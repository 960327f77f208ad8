import CognitiveOs.Cognition.Act
import CognitiveOs.Foundation.Machine
import Mathlib.Data.Rat.Defs

/-!
# Runs of the agent loop

The decisions of the planner, the verification of a completion, the updates of the user and
the final gate of `reasoning_run_ex`, as steps of one machine. Beside the state it keeps
what has happened, which the program does not.
-/

namespace CognitiveOs.Cognition

open Infra Os Foundation

variable (c : Config)

/-! ### Verifying a completion -/

/-- A declared equality; `none` when an entry is not well formed. -/
def equalityOf (entry : Json) : Option (Text × Text) :=
  match argString (some entry) "source", argString (some entry) "target" with
  | some source, some target =>
    if source = [] || target = [] || 1800 < source.length || 1800 < target.length then none
    else some (source, target)
  | _, _ => none

/-- One entry of `file_equalities`; the obligations stay for the run. -/
def addEquality (t : FileChecks) (entry : Json) : FileChecks :=
  let known := t.equalities.getD []
  match equalityOf entry with
  | none => { t with invalid := true }
  | some pair =>
    if known.contains pair then t
    else if 16 ≤ known.length then { t with invalid := true }
    else { t with equalities := some (known ++ [pair]) }

def declareEqualities (t : FileChecks) : Option Json → FileChecks
  | none => t
  | some (.array entries) =>
    if 16 < entries.length then { t with invalid := true }
    else entries.foldl addEquality { t with invalid := false, equalities := some (t.equalities.getD []) }
  | some _ => { t with invalid := true }

def artifactsVerified (w : World) (g : Registry) (seen : List ArtifactSeen) :
    List Text → Baseline → Bool × Baseline
  | [], baseline => (true, baseline)
  | path :: paths, baseline =>
    match runHasVerifiedArtifact w g seen baseline path with
    | (false, baseline) => (false, baseline)
    | (true, baseline) => artifactsVerified w g seen paths baseline

def contractChecked (w : World) (r : Reasoning) : Bool × Baseline :=
  match r.acceptance.contract with
  | none => (true, r.acceptance.baseline)
  | some contract =>
    if contract.requiresAction && !r.runMutated then (false, r.acceptance.baseline)
    else if contract.requiresObservation && r.runSuccessfulTools = 0 then
      (false, r.acceptance.baseline)
    else
      match artifactsVerified w r.registry r.produced contract.artifacts.list r.acceptance.baseline with
      | (false, baseline) => (false, baseline)
      | (true, baseline) =>
        (contract.fullReads.list.all fun path => !r.reads.overflow && fullReadVerified w r.reads path,
          baseline)

/-- The verdict on the declared equalities and on the contract; `equal` is the outcome of
the comparison of two files that may both be read. -/
def filesChecked (w : World) (equal : Text → Text → Bool) (r : Reasoning) : Bool × Baseline :=
  let pairs := r.fileChecks.equalities.getD []
  if r.fileChecks.invalid || !(pairs.all fun (source, target) => equal source target) ||
      r.acceptance.invalid then (false, r.acceptance.baseline)
  else contractChecked w r

def declared (w : World) (r : Reasoning) (decision : Option Json) : Reasoning :=
  let member (key : String) : Option Json := decision.bind fun o => o.get? (ascii key)
  { r with
    acceptance := mergeAcceptance c.workspace w r.acceptance (member "acceptance")
    fileChecks := declareEqualities r.fileChecks (member "file_equalities") }

@[simp] theorem declared_none (w : World) (r : Reasoning) : declared c w r none = r :=
  rfl

def verifyCompletionFiles (w : World) (equal : Text → Text → Bool) (r : Reasoning)
    (decision : Option Json) : Reasoning :=
  let r := declared c w r decision
  let (verified, baseline) := filesChecked w equal r
  { r with
    acceptance := { r.acceptance with baseline }
    fileChecks := { r.fileChecks with failed := !verified } }

/-! ### Optional reads -/

/-- The scan over the steps: the last failed read of the target, and whether the evidence is
a later listing of its parent. -/
def scanEvidence (w : World) (target parent : Text) (evidence : Nat) (found : Nat × Bool)
    (step : RunStep) : Nat × Bool :=
  let scope := failureScope c.workspace w step.tool step.args
  let found :=
    if step.tool = ascii "file_read" && step.ok = 0 && scope = target then (step.id, false) else found
  if step.id = evidence && found.1 ≠ 0 && found.1 < step.id && step.ok = 1 &&
      step.tool = ascii "list_dir" && scope = parent then (found.1, true)
  else found

def evidenceStep (entry : Json) : Option Nat :=
  (argNumber (some entry) "evidence_step_id").bind fun value =>
    if 0 < value && value < 2 ^ 31 && value.den = 1 then some value.num.toNat else none

/-- One entry of `unavailable_optional_reads`. -/
def resolveOptional (w : World) (steps : List RunStep) (t : Failures) (entry : Json) : Failures :=
  match argString (some entry) "path", argString (some entry) "reason", evidenceStep entry with
  | some path, some reason, some evidence =>
    let target := normalizedEvidencePath c.workspace w path 2048
    if reason = [] || target = [] || w.fsExists target then t
    else
      match lastIndex target slash with
      | none => t
      | some i =>
        let args : Json := .object [(ascii "path", .string target)]
        if (steps.foldl (scanEvidence c w target (target.take i) evidence) (0, false)).2 then
          resolveFailedTool c.workspace w t (ascii "file_read") (some args)
        else t
  | _, _, _ => t

def resolveOptionalMissingReads (w : World) (r : Reasoning) (decision : Json) : Reasoning :=
  let complete :=
    argString (some decision) "status" = some (ascii "complete") &&
      (match decision.get? (ascii "requires_tools") with
      | some (.bool false) => true
      | _ => false)
  match complete, decision.get? (ascii "unavailable_optional_reads") with
  | true, some (.array entries) =>
    { r with failures := entries.foldl (resolveOptional c w r.registry.steps) r.failures }
  | _, _ => r

/-! ### A decision of the planner -/

/-- What the planner returns: `completion` is what `cJSON_Parse` makes of the completion text,
a text that is no JSON being an object without members. -/
structure Decision where
  world : World
  /-- The planner returned 0. -/
  planned : Bool := true
  /-- `planner_native_end_turn`. -/
  endTurn : Nat := 0
  completion : Option Json := none
  /-- The target of a batch rejected before it ran. -/
  rejected : Option (Text × Text) := none
  equal : Text → Text → Bool := fun _ _ => true

def declareContract (r : Reasoning) (d : Decision) : Reasoning × Bool :=
  if d.planned && d.endTurn = 3 then
    let acceptance :=
      mergeAcceptance c.workspace d.world r.acceptance
        (d.completion.bind fun control => control.get? (ascii "acceptance"))
    ({ r with acceptance }, !acceptance.invalid)
  else (r, d.planned)

def noteRejected (r : Reasoning) (d : Decision) : Reasoning :=
  match d.rejected with
  | none => r
  | some (tool, path) =>
    let args : Json := .object [(ascii "path", .string path)]
    if tool = [] || path = [] then r
    else { r with failures := noteFailedTool c.workspace d.world r.failures tool (some args) }

def hReason (r : Reasoning) (d : Decision) : Reasoning :=
  let (r, planned) := declareContract c r d
  let r := if planned then r else noteRejected c r d
  match planned, d.completion with
  | true, some completion =>
    verifyCompletionFiles c d.world d.equal (resolveOptionalMissingReads c d.world r completion)
      (some completion)
  | _, _ => r

/-! ### Updates and folding -/

/-- `round_log_append` folds the log: its observations may be read again. -/
def foldLog (r : Reasoning) : Reasoning :=
  { r with searches := {} }

def steer (r : Reasoning) : Reasoning :=
  { r with
    fileChecks := {}
    invalidArgs := []
    searches := {}
    produced := []
    registry := { r.registry with receipts := [] } }

/-! ### The final gate -/

structure Closing where
  world : World
  cancelled : Bool := false
  timedOut : Bool := false
  /-- The last round ended in `ST_DONE`. -/
  roundDone : Bool := true
  /-- The run stalled, was summarized or given up, repeats itself or says it is unfinished. -/
  unfinished : Bool := false
  equal : Text → Text → Bool := fun _ _ => true

def requiredPendingReads (w : World) (r : Reasoning) : Nat :=
  match r.acceptance.contract with
  | none => 0
  | some contract => contract.fullReads.list.countP fun path => !fullReadVerified w r.reads path

def gateVerified (r : Reasoning) (g : Closing) : Reasoning :=
  if !g.cancelled && !g.timedOut &&
      (r.fileChecks.equalities.isSome || r.acceptance.contract.isSome || r.acceptance.invalid) then
    verifyCompletionFiles c g.world g.equal r none
  else r

def completes (r : Reasoning) (g : Closing) : Bool :=
  let r := gateVerified c r g
  !g.cancelled && !g.timedOut && g.roundDone &&
    !(g.unfinished || r.toolFailAborted || r.fileChecks.failed || r.acceptance.invalid ||
      0 < requiredPendingReads g.world r || !r.failures.entries.isEmpty || r.failures.overflow)

theorem completes_iff {r : Reasoning} {g : Closing} :
    completes c r g = true ↔
      g.cancelled = false ∧ g.timedOut = false ∧ g.roundDone = true ∧ g.unfinished = false ∧
        (gateVerified c r g).toolFailAborted = false ∧
        (gateVerified c r g).fileChecks.failed = false ∧
        (gateVerified c r g).acceptance.invalid = false ∧
        requiredPendingReads g.world (gateVerified c r g) = 0 ∧
        (gateVerified c r g).failures.entries = [] ∧
        (gateVerified c r g).failures.overflow = false := by
  simp only [completes, Bool.and_eq_true, Bool.not_eq_true', Bool.or_eq_false_iff,
    decide_eq_false_iff_not, Bool.not_eq_false', List.isEmpty_iff, and_assoc, Nat.not_lt,
    Nat.le_zero]

/-! ### The machine -/

inductive Label where
  /-- The contract of the configuration or of the task, at the start of the run. -/
  | contract (w : World) (input : Json)
  | reason (d : Decision)
  | act (round : Round)
  | fold
  | steer
  | close (g : Closing)

inductive Event where
  | done (d : Done)
  | finished
  | committed (before after : World)
  | rolledBack (before after : World)
  /-- The run is over, and whether it was reported as completed. -/
  | closed (completed : Bool)

structure Traced where
  now : Reasoning := {}
  past : List Event := []

def tracedStep (t : Traced) (d : Done) : Traced :=
  { now := perform c t.now d, past := t.past ++ [.done d] }

def ending (r : Reasoning) (round : Round) : Event :=
  if rollsBack c r round then .rolledBack round.before round.after
  else if c.useTransaction then .committed round.before round.after
  else .finished

def roundEvents (r : Reasoning) (round : Round) : List Event :=
  (donesOf c (beginRound r) round.actions).map Event.done ++ [ending c r round]

def step (t : Traced) : Label → Traced
  | .contract w input =>
    { t with now := { t.now with
        acceptance := mergeAcceptance c.workspace w t.now.acceptance (some input) } }
  | .reason d => { t with now := hReason c t.now d }
  | .act round => { now := hAct c t.now round, past := t.past ++ roundEvents c t.now round }
  | .fold => { t with now := foldLog t.now }
  | .steer => { t with now := CognitiveOs.Cognition.steer t.now }
  | .close g => { now := gateVerified c t.now g, past := t.past ++ [.closed (completes c t.now g)] }

/-- The agent loop, from the fresh state `reasoning_run_ex` starts with. -/
def loop : Machine Traced Label := Machine.ofFun (step c)

/-! ### What decisions and the gate leave alone -/

section Frame

variable {c : Config}

theorem verifyCompletionFiles_frame (w : World) (equal : Text → Text → Bool) (r : Reasoning)
    (decision : Option Json) :
    ∃ acceptance fileChecks, verifyCompletionFiles c w equal r decision =
      { r with acceptance, fileChecks } :=
  ⟨_, _, rfl⟩

theorem gateVerified_frame (r : Reasoning) (g : Closing) :
    ∃ acceptance fileChecks, gateVerified c r g = { r with acceptance, fileChecks } := by
  unfold gateVerified
  split
  · exact verifyCompletionFiles_frame g.world g.equal r none
  · exact ⟨r.acceptance, r.fileChecks, rfl⟩

theorem gateVerified_failures (r : Reasoning) (g : Closing) :
    (gateVerified c r g).failures = r.failures := by
  rcases gateVerified_frame (c := c) r g with ⟨acceptance, fileChecks, same⟩
  rw [same]

theorem hReason_frame (r : Reasoning) (d : Decision) :
    ∃ acceptance failures fileChecks, hReason c r d =
      { r with acceptance, failures, fileChecks } := by
  have first : ∃ acceptance, (declareContract c r d).1 = { r with acceptance } := by
    unfold declareContract
    split
    · exact ⟨_, rfl⟩
    · exact ⟨r.acceptance, rfl⟩
  have rejected (r : Reasoning) : ∃ failures, noteRejected c r d = { r with failures } := by
    unfold noteRejected
    split
    · exact ⟨r.failures, rfl⟩
    · simp only
      split
      · exact ⟨r.failures, rfl⟩
      · exact ⟨_, rfl⟩
  have optional (r : Reasoning) (completion : Json) :
      ∃ failures, resolveOptionalMissingReads c d.world r completion = { r with failures } := by
    unfold resolveOptionalMissingReads
    simp only
    split
    · exact ⟨_, rfl⟩
    · exact ⟨r.failures, rfl⟩
  rcases first with ⟨acceptance, first⟩
  unfold hReason
  generalize declareContract c r d = decided at first
  rcases decided with ⟨r', planned⟩
  obtain rfl : r' = { r with acceptance } := first
  cases planned with
  | false =>
    rcases rejected { r with acceptance } with ⟨failures, same⟩
    exact ⟨acceptance, failures, r.fileChecks, same⟩
  | true =>
    cases d.completion with
    | none => exact ⟨acceptance, r.failures, r.fileChecks, rfl⟩
    | some completion =>
      rcases optional { r with acceptance } completion with ⟨failures, same⟩
      rcases verifyCompletionFiles_frame (c := c) d.world d.equal
        (resolveOptionalMissingReads c d.world { r with acceptance } completion) (some completion)
        with ⟨acceptance', fileChecks, verified⟩
      refine ⟨acceptance', failures, fileChecks, ?_⟩
      rw [same] at verified
      simpa [same] using verified

end Frame

/-! ### The actions of a round, one by one -/

section Rounds

variable {c : Config}

theorem past_cases {past events before rest : List Event} {d : Done}
    (split : past ++ events = before ++ .done d :: rest) :
    (∃ rest', past = before ++ .done d :: rest' ∧ rest = rest' ++ events) ∨
      ∃ before', events = before' ++ .done d :: rest := by
  rcases List.append_eq_append_iff.mp split with ⟨middle, rfl, later⟩ | ⟨middle, rfl, later⟩
  · exact Or.inr ⟨middle, later⟩
  · cases middle with
    | nil => exact Or.inr ⟨[], later.symm⟩
    | cons event middle =>
      rw [List.cons_append, List.cons.injEq] at later
      exact Or.inl ⟨middle, by rw [later.1], later.2⟩

theorem foldl_tracedStep (ds : List Done) (t : Traced) :
    ds.foldl (tracedStep c) t =
      { now := ds.foldl (perform c) t.now, past := t.past ++ ds.map Event.done } := by
  induction ds generalizing t with
  | nil => simp
  | cons d ds ih =>
    rw [List.foldl_cons, ih]
    simp [tracedStep]

def Traced.opened (t : Traced) : Traced :=
  { t with now := beginRound t.now }

theorem ending_ne_done (r : Reasoning) (round : Round) (d : Done) : ending c r round ≠ .done d := by
  unfold ending
  split
  · intro same; cases same
  · split <;> (intro same; cases same)

theorem step_act (t : Traced) (round : Round) :
    ∃ ended, (step c t (.act round)).past =
        ((donesOf c t.opened.now round.actions).foldl (tracedStep c) t.opened).past ++
          [ending c t.now round] ∧
      (step c t (.act round)).now = { acted c t.now round with runMutated := ended } := by
  refine ⟨(hAct c t.now round).runMutated, ?_, ?_⟩
  · rw [foldl_tracedStep]
    simp [step, roundEvents, Traced.opened]
  · show hAct c t.now round = _
    unfold hAct
    split <;> rfl

theorem dones_invariant {holds : Traced → Prop} {allowed : Traced → Done → Prop}
    (preserved : ∀ t x, allowed t (doneOf c t.now x) → holds t →
      holds (tracedStep c t (doneOf c t.now x)))
    {t : Traced} (xs : List (PlannedAction × ActEnv))
    (all : ∀ before d after, donesOf c t.now xs = before ++ d :: after →
      allowed (before.foldl (tracedStep c) t) d) (initial : holds t) :
    holds ((donesOf c t.now xs).foldl (tracedStep c) t) := by
  induction xs generalizing t with
  | nil => exact initial
  | cons x xs ih =>
    apply ih (t := tracedStep c t (doneOf c t.now x))
    · intro before d after split
      exact all (doneOf c t.now x :: before) d after (by rw [List.cons_append, ← split]; rfl)
    · exact preserved t x (all [] _ _ rfl) initial

end Rounds

/-! ### A workspace with one file -/

def transactional : Config :=
  { workspace := ascii "/w", useTransaction := true, number := printInteger }

/-- The file `/w/a` as it is at some time. -/
def oneFile (size time : UInt64) : World :=
  { stat := fun path =>
      if path = ascii "/w" then
        some { ino := 1, size := 0, mtimeSec := 1, ctimeSec := 1, isDir := true }
      else if path = ascii "/w/a" then some { ino := 2, size, mtimeSec := time, ctimeSec := time }
      else none
    realpath := fun path =>
      if path = ascii "/w" || path = ascii "/w/a" then some path else none }

def quietly (ok : Bool) : ActEnv :=
  { before := oneFile 3 1, after := oneFile 3 1, ok }

def shellMake : PlannedAction :=
  { tool := ascii "shell", args := some (.object [(ascii "command", .string (ascii "make"))]) }

end CognitiveOs.Cognition
