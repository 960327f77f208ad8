import CognitiveOs.Cognition.Planner.Replies
import CognitiveOs.Infra.Print

/-!
# Planning from a reply

`plan_with` of `cognition/planner.c` behind the request: the native and the legacy protocol,
the local salvage and the repair of a plan, and the decisions to complete or to declare.
-/

namespace CognitiveOs.Cognition.Planner

open Infra Cjson

structure LlmReply where
  content : Option Text
  truncated : Bool
  /-- `tool_actions_json`, parsed. -/
  toolActions : Option (List PlannedAction)

structure PlanEnv where
  /-- Native tools are in use. -/
  native : Bool
  requireCompletion : Bool
  /-- The tool is known and `tool_validate_args` rejects the arguments. -/
  rejects : PlannedAction → Bool
  /-- The reply to a repair request. -/
  repair : Option LlmReply
  /-- How a number is printed. -/
  number : Rat → Text

inductive PlanError where
  | invalidIdentifier
  | schema (tool : Text)
  | separateDeclaration
  | markupInAnswer
  | markupInText
  | noDecision
  | emptyResponse
  | unfinishedThinking
  | invalidDsml
  | invalidTagged
  | invalidBatch
  | invalidAfterRepair
  | completionRequired
  deriving DecidableEq

/-- What `plan_with` leaves in its results. -/
structure Plan where
  error : Option PlanError := none
  actions : List PlannedAction := []
  /-- 1 complete, 2 blocked, 3 declaration, 4 text that needs a review. -/
  nativeEnd : Nat := 0
  completion : Option Json := none
  raw : Option Text := none

def Plan.fail (error : PlanError) : Plan :=
  { error := some error }

/-! ### Control decisions -/

def completeTask : Text :=
  ascii "complete_task"

def declareTask : Text :=
  ascii "declare_task"

def isControl (action : PlannedAction) : Bool :=
  action.tool = completeTask || action.tool = declareTask

def isDeclaration (action : PlannedAction) : Bool :=
  action.tool = declareTask

def stringItem (json : Json) (key : String) : Option Text :=
  (item (some json) key).bind Json.string?

def validCompletion (finish : Json) : Bool :=
  let status := stringItem finish "status"
  (status = some (ascii "complete") || status = some (ascii "blocked")) &&
    (match item (some finish) "requires_tools" with
      | some (.bool false) => true
      | _ => false) &&
    (stringItem finish "answer").any (· ≠ [])

def validDeclaration (finish : Json) : Bool :=
  match item (some finish) "acceptance" with
  | some (.object _) => true
  | _ => false

def validControl (action : PlannedAction) : Bool :=
  if isDeclaration action then validDeclaration action.args else validCompletion action.args

def answerOf (finish : Json) : Text :=
  (stringItem finish "answer").getD []

def answerMarked (action : PlannedAction) : Bool :=
  !isDeclaration action && (nextToolMarkup (answerOf action.args) true).isSome

def accept (number : Rat → Text) (action : PlannedAction) : Plan :=
  { nativeEnd :=
      if isDeclaration action then 3
      else if stringItem action.args "status" = some (ascii "blocked") then 2
      else 1
    completion := some action.args
    raw := some (if isDeclaration action then action.args.print number else answerOf action.args) }

def candidate (content : Text) : Json :=
  .object
    [(ascii "status", .string (ascii "complete")), (ascii "requires_tools", .bool false),
      (ascii "answer", .string content)]

/-! ### The native protocol -/

def nativeBranch (env : PlanEnv) (resp : LlmReply) : Plan ⊕ List PlannedAction :=
  let calls := resp.toolActions.getD []
  let finishes := calls.filter isControl
  let rest := calls.filter fun call => !isControl call
  if calls.any fun call => !validActionName call.tool then .inl (.fail .invalidIdentifier)
  else
    match rest.find? env.rejects with
    | some call => .inl (.fail (.schema call.tool))
    | none =>
      if finishes.any isDeclaration ∧ (finishes.length ≠ 1 ∨ rest ≠ []) then .inl (.fail .separateDeclaration)
      else if rest ≠ [] then .inr rest
      else
        let content := resp.content.getD []
        match finishes with
        | [action] =>
          if validControl action then
            .inl (if answerMarked action then .fail .markupInAnswer else accept env.number action)
          else .inl (.fail .noDecision)
        | [] =>
          if (nextToolMarkup content true).isSome then .inl (.fail .markupInText)
          else if content ≠ [] ∧ resp.truncated = false then
            .inl { nativeEnd := 1, completion := some (candidate content), raw := some content }
          else .inl (.fail .noDecision)
        | _ => .inl (.fail .noDecision)

/-! ### The text of a reply -/

/-- The text behind the thinking: behind the first end tag before a bracket, or the last one. -/
def afterThinking : Nat → Text → Option Text
  | 0, _ => none
  | fuel + 1, s =>
    (strstr (ascii "</think>") s).bind fun tag =>
      let close := tag.drop 8
      if startsJson (close.dropWhile fun c => c = 32 || c = 10 || c = 13) then some close
      else some ((afterThinking fuel close).getD close)

def visiblePlan (plan : Text) : Option Text :=
  let visible := plan.dropWhile fun c => c = 32 || c = 10 || c = 13
  if startsJson visible then some plan
  else
    match afterThinking (visible.length + 1) visible with
    | some close => some close
    | none => if (ascii "<think>").isPrefixOf visible then none else some plan

def looksLikePlan (plan : Text) : Bool :=
  let shape := plan.dropWhile isSpace
  startsJson shape || (ascii "```").isPrefixOf shape || (nextToolMarkup plan false).isSome

def someActions (plan : Option Text) : Option (List PlannedAction) :=
  match plan.map parsePlanActions with
  | some (.batch (action :: actions)) => some (action :: actions)
  | _ => none

/-- The salvage of a plan that cannot be parsed, and its repair: the new text and its actions. -/
def repairPlan (env : PlanEnv) (plan : Text) : Option (Text × List PlannedAction) :=
  let salvaged := salvageTruncatedArray plan
  match someActions salvaged with
  | some actions => some (salvaged.getD [], actions)
  | none =>
    match env.repair.bind LlmReply.content with
    | none => none
    | some fixed =>
      match parsePlanActions fixed with
      | .batch actions => some (fixed, actions)
      | _ =>
        let salvaged := salvageTruncatedArray fixed
        (someActions salvaged).map fun actions => (salvaged.getD [], actions)

def legacyEnd (env : PlanEnv) (truncated : Bool) (raw : Text) (actions : List PlannedAction) : Plan :=
  match actions with
  | [action] =>
    if isControl action then
      if truncated = false ∧ validControl action then
        if answerMarked action then .fail .markupInAnswer else accept env.number action
      else .fail .completionRequired
    else { actions := [action], raw := some raw }
  | [] =>
    if env.requireCompletion then
      if truncated then .fail .completionRequired else { nativeEnd := 4, raw := some raw }
    else { raw := some raw }
  | _ => if actions.any isControl then .fail .completionRequired else { actions, raw := some raw }

def checkBatch (env : PlanEnv) (truncated : Bool) (raw : Text) (actions : List PlannedAction) : Plan :=
  match actions.find? env.rejects with
  | some action => .fail (.schema action.tool)
  | none => if env.native then { actions, raw := some raw } else legacyEnd env truncated raw actions

def planJson (env : PlanEnv) (truncated : Bool) (plan : Text) : Plan :=
  match parsePlanActions plan with
  | .invalid => .fail .invalidBatch
  | .batch actions =>
    if looksLikePlan plan ∧ actions = [] then .fail .invalidAfterRepair
    else checkBatch env truncated plan actions
  | .none =>
    if looksLikePlan plan then
      match repairPlan env plan with
      | some (raw, action :: actions) => checkBatch env truncated raw (action :: actions)
      | _ => .fail .invalidAfterRepair
    else checkBatch env truncated plan []

def planText (env : PlanEnv) (truncated : Bool) (plan : Text) : Plan :=
  match parseDsmlToolCalls plan with
  | .invalid => .fail .invalidDsml
  | .batch actions => checkBatch env truncated plan actions
  | .none =>
    match parseTaggedToolCalls plan with
    | .invalid => .fail .invalidTagged
    | .batch actions => checkBatch env truncated plan actions
    | .none => planJson env truncated plan

/-- An element of `tool_actions_json`. -/
def actionJson (action : PlannedAction) : Json :=
  .object [(ascii "tool", .string action.tool), (ascii "args", action.args)]

def planCalls (env : PlanEnv) (truncated : Bool) (calls : List PlannedAction) : Plan :=
  match planBatch (.array (calls.map actionJson)) with
  | .batch actions =>
    if actions = [] then .fail .invalidAfterRepair
    else checkBatch env truncated ((Json.array (calls.map actionJson)).print env.number) actions
  | _ => .fail .invalidBatch

/-- `plan_with`, after a request that did not fail. -/
def planWith (env : PlanEnv) (resp : LlmReply) : Plan :=
  match if env.native then nativeBranch env resp else .inr (resp.toolActions.getD []) with
  | .inl plan => plan
  | .inr calls =>
    if env.native ∨ resp.toolActions.isSome then planCalls env resp.truncated calls
    else
      match resp.content with
      | none => .fail .emptyResponse
      | some content =>
        match visiblePlan (cstr content) with
        | none => .fail .unfinishedThinking
        | some plan => planText env resp.truncated plan

end CognitiveOs.Cognition.Planner
