import CognitiveOs.Cognition.Planner.PlanWith
import CognitiveOs.Foundation.Options

/-!
# Control decisions

What `plan_with` decides on a reply: a batch of work, a completion or a declaration that is
the only call, text without calls, or an error.
-/

namespace CognitiveOs.Cognition.Planner

open Foundation Infra Cjson

/-! ### The calls of a reply -/

variable {plan : Text} {action : PlannedAction}

def batchActions (root : Json) : List PlannedAction :=
  match planBatch root with
  | .batch actions => actions
  | _ => []

def callsIn : Nat → Text → List PlannedAction
  | 0, _ => []
  | _, [] => []
  | fuel + 1, c :: rest =>
    match codeEnd (c :: rest) with
    | some after => callsIn fuel after
    | none =>
      match if isBracket c then parseWithEnd (c :: rest) else none with
      | some (root, after) => batchActions root ++ callsIn fuel after
      | none => callsIn fuel rest

/-- The text behind the value that `parse_plan_actions` reads. -/
def behindPlan (plan : Text) : Text :=
  match parseWithEnd plan with
  | some (_, rest) => rest
  | none => ((cstr plan).dropWhile fun c => !isBracket c).drop ((extractJsonSpan plan).getD []).length

def callsBehind (plan : Text) : List PlannedAction :=
  callsIn ((behindPlan plan).length + 1) (behindPlan plan)

def readCalls (plan : Text) : Parsed :=
  match parseDsmlToolCalls plan with
  | .none =>
    match parseTaggedToolCalls plan with
    | .none => parsePlanActions plan
    | parsed => parsed
  | parsed => parsed

def Plain (plan : Text) : Prop :=
  parseDsmlToolCalls plan = .none ∧ parseTaggedToolCalls plan = .none

def VisibleText (env : PlanEnv) (resp : LlmReply) (plan : Text) : Prop :=
  env.native = false ∧ resp.toolActions = none ∧
    ∃ content, resp.content = some content ∧ visiblePlan (cstr content) = some plan

/-- The reply, or the repair of one that cannot be parsed, consists of one call. -/
inductive Consists (env : PlanEnv) (resp : LlmReply) (action : PlannedAction) : Prop where
  | native : env.native = true → resp.toolActions = some [action] → Consists env resp action
  | calls {calls : List PlannedAction} : env.native = false → resp.toolActions = some calls →
      planBatch (.array (calls.map actionJson)) = .batch [action] → Consists env resp action
  | text {plan : Text} : VisibleText env resp plan → readCalls plan = .batch [action] →
      (Plain plan → callsBehind plan = []) → Consists env resp action
  | repaired {plan fixed : Text} {reply : LlmReply} : VisibleText env resp plan → readCalls plan = .none →
      looksLikePlan plan → someActions (salvageTruncatedArray plan) = none → env.repair = some reply →
      reply.truncated = false → reply.content = some fixed → parsePlanActions fixed = .batch [action] →
      callsBehind fixed = [] → Consists env resp action

/-- A completion or a declaration with valid fields, without tool markup in its answer. -/
structure Sound (env : PlanEnv) (action : PlannedAction) : Prop where
  control : isControl action = true
  valid : validControl action = true
  unmarked : answerMarked action = false

/-- The one call of a reply decides; a truncated legacy reply does not. -/
structure Decision (env : PlanEnv) (resp : LlmReply) (action : PlannedAction) : Prop where
  sound : Sound env action
  consists : Consists env resp action
  whole : env.native = false → resp.truncated = false

inductive CallFree (env : PlanEnv) (resp : LlmReply) : Prop where
  | native : env.native = true → resp.toolActions.getD [] = [] →
      nextToolMarkup (resp.content.getD []) true = none → CallFree env resp
  | text {plan : Text} : VisibleText env resp plan → readCalls plan = .none ∨ readCalls plan = .batch [] →
      looksLikePlan plan = false → callsBehind plan = [] → CallFree env resp

/-- A reply leads to an error, to work, to the decision of its only call, or to its text. -/
structure Separate (env : PlanEnv) (resp : LlmReply) (plan : Plan) : Prop where
  error : plan.error ≠ none → plan.actions = [] ∧ plan.completion = none ∧ plan.nativeEnd = 0
  batch : plan.actions ≠ [] → plan.completion = none ∧ plan.nativeEnd = 0 ∧
    ∀ action ∈ plan.actions, isControl action = false
  ended : plan.error = none → plan.actions = [] →
    ((∃ action, Decision env resp action ∧ plan = accept env.number action) ∧ ¬ CallFree env resp) ∨
      (CallFree env resp ∧ ¬ (∃ action, Consists env resp action) ∧ plan.raw.isSome)

theorem VisibleText.unique {env : PlanEnv} {resp : LlmReply} {other : Text} (one : VisibleText env resp plan)
    (two : VisibleText env resp other) : plan = other := by
  rcases one with ⟨-, -, content, read, visible⟩
  rcases two with ⟨-, -, content', read', visible'⟩
  rw [read] at read'
  cases read'
  rw [visible] at visible'
  exact Option.some.inj visible'

theorem Consists.not_callFree {env : PlanEnv} {resp : LlmReply} (consists : Consists env resp action) :
    ¬ CallFree env resp := by
  intro free
  cases consists with
  | native native calls =>
    cases free with
    | native _ none_call _ =>
      rw [calls] at none_call
      cases none_call
    | text visible _ _ _ =>
      rw [visible.1] at native
      cases native
  | calls native calls _ =>
    cases free with
    | native native' _ _ =>
      rw [native] at native'
      cases native'
    | text visible _ _ _ =>
      rw [visible.2.1] at calls
      cases calls
  | text visible read _ =>
    cases free with
    | native native' _ _ =>
      rw [visible.1] at native'
      cases native'
    | text visible' read' _ _ =>
      cases visible.unique visible'
      rw [read] at read'
      rcases read' with nothing | empty
      · cases nothing
      · cases empty
  | repaired visible _ looks _ _ _ _ _ _ =>
    cases free with
    | native native' _ _ =>
      rw [visible.1] at native'
      cases native'
    | text visible' _ plain _ =>
      cases visible.unique visible'
      rw [looks] at plain
      cases plain

variable {env : PlanEnv} {resp : LlmReply}

theorem separate_fail (error : PlanError) : Separate env resp (.fail error) where
  error := fun _ => ⟨rfl, rfl, rfl⟩
  batch := fun work => absurd rfl work
  ended := fun fine => by cases fine

variable {actions : List PlannedAction} {raw : Text}

theorem separate_batch (work : actions ≠ []) (free : ∀ action ∈ actions, isControl action = false) :
    Separate env resp { actions, raw := some raw } where
  error := fun failed => absurd rfl failed
  batch := fun _ => ⟨rfl, rfl, free⟩
  ended := fun _ empty => absurd empty work

theorem separate_accept (decision : Decision env resp action) :
    Separate env resp (accept env.number action) where
  error := fun failed => absurd rfl failed
  batch := fun work => absurd rfl work
  ended := fun _ _ => .inl ⟨⟨action, decision, rfl⟩, decision.consists.not_callFree⟩

theorem separate_text {plan : Plan} (fine : plan.error = none) (empty : plan.actions = [])
    (text : plan.raw.isSome) (free : CallFree env resp) : Separate env resp plan where
  error := fun failed => absurd fine failed
  batch := fun work => absurd empty work
  ended := fun _ _ => .inr ⟨free, fun ⟨_, consists⟩ => consists.not_callFree free, text⟩

/-! ### The legacy decision -/

variable {truncated : Bool}

structure Acceptable (env : PlanEnv) (truncated : Bool) (action : PlannedAction) : Prop where
  sound : Sound env action
  fits : env.rejects action = false
  whole : truncated = false

inductive Ends (env : PlanEnv) (truncated : Bool) (raw : Text) (actions : List PlannedAction) : Plan → Prop where
  | error (error : PlanError) : Ends env truncated raw actions (.fail error)
  | batch : actions ≠ [] → (∀ action ∈ actions, isControl action = false) →
      Ends env truncated raw actions { actions, raw := some raw }
  | accepted {action : PlannedAction} : actions = [action] → Acceptable env truncated action →
      Ends env truncated raw actions (accept env.number action)
  | text (nativeEnd : Nat) : actions = [] → (env.requireCompletion = true → truncated = false) →
      Ends env truncated raw actions { nativeEnd, raw := some raw }

theorem legacyEnd_ends (fit : actions.find? env.rejects = none) :
    Ends env truncated raw actions (legacyEnd env truncated raw actions) := by
  unfold legacyEnd
  split
  · next action =>
    split
    · next control =>
      split
      · next right =>
        split
        · exact .error _
        · next unmarked =>
          have fits : env.rejects action = false := by
            simpa using List.find?_eq_none.mp fit action List.mem_cons_self
          exact .accepted rfl ⟨⟨control, right.2, Bool.eq_false_iff.mpr unmarked⟩, fits, right.1⟩
      · exact .error _
    · next work =>
      apply Ends.batch (List.cons_ne_nil _ _)
      intro other member
      rw [List.mem_singleton.mp member]
      exact Bool.eq_false_iff.mpr work
  · split
    · split
      · exact .error _
      · next whole => exact .text 4 rfl fun _ => Bool.eq_false_iff.mpr whole
    · next free => exact .text 0 rfl fun required => absurd required free
  · next some_ =>
    split
    · exact .error _
    · next work =>
      apply Ends.batch some_
      intro action member
      apply Bool.eq_false_iff.mpr
      intro control
      exact work (List.any_eq_true.mpr ⟨action, member, control⟩)

theorem checkBatch_ends (legacy : env.native = false) :
    Ends env truncated raw actions (checkBatch env truncated raw actions) := by
  unfold checkBatch
  cases fit : actions.find? env.rejects with
  | some action => exact .error _
  | none =>
    rw [legacy]
    exact legacyEnd_ends fit

theorem checkBatch_accept {truncated : Bool} {raw : Text} {action : PlannedAction} (legacy : env.native = false)
    (acceptable : Acceptable env truncated action) :
    checkBatch env truncated raw [action] = accept env.number action := by
  rcases acceptable with ⟨⟨control, valid, unmarked⟩, fits, rfl⟩
  simp [checkBatch, legacyEnd, fits, legacy, control, valid, unmarked]

theorem checkBatch_nil (legacy : env.native = false) (whole : env.requireCompletion = true → truncated = false) :
    checkBatch env truncated raw [] = { nativeEnd := if env.requireCompletion then 4 else 0, raw := some raw } := by
  cases required : env.requireCompletion with
  | false => simp [checkBatch, legacyEnd, legacy, required]
  | true => simp [checkBatch, legacyEnd, legacy, required, whole required]

/-! ### The native branch -/

variable {calls : List PlannedAction}

theorem planBatch_array (items : List Json) :
    planBatch (.array items) =
      match items.mapM actionOf with
      | none => .invalid
      | some actions => .batch actions :=
  rfl

theorem actionOf_actionJson {made : PlannedAction} (read : actionOf (actionJson action) = some made) :
    made.tool = action.tool := by
  have other : ascii "tool" ≠ ascii "args" := by decide +kernel
  have parts : callParts (actionJson action) = (some (.string action.tool), some action.args) := by
    simp [callParts, item, actionJson, Json.get?, other]
  unfold actionOf at read
  rw [parts] at read
  obtain ⟨-, read⟩ := Option.ite_none_right_eq_some.mp read
  obtain ⟨args, -, rfl⟩ := Option.map_eq_some_iff.mp read
  rfl

theorem planCalls_separate (native : env.native = true) (free : ∀ call ∈ calls, isControl call = false) :
    Separate env resp (planCalls env truncated calls) := by
  unfold planCalls
  rw [planBatch_array]
  cases made : (calls.map actionJson).mapM actionOf with
  | none => exact separate_fail _
  | some actions =>
    simp only
    split
    · exact separate_fail _
    · next work =>
      unfold checkBatch
      split
      · exact separate_fail _
      · rw [if_pos native]
        apply separate_batch work
        intro action member
        obtain ⟨json, inside, read⟩ := mem_mapM made member
        obtain ⟨call, there, rfl⟩ := List.mem_map.mp inside
        have same := actionOf_actionJson read
        have kept := free call there
        unfold isControl at kept ⊢
        rw [same]
        exact kept

def NativeResult (env : PlanEnv) (resp : LlmReply) : Plan ⊕ List PlannedAction → Prop
  | .inl plan => Separate env resp plan
  | .inr calls => ∀ call ∈ calls, isControl call = false

theorem filter_control (alone : (calls.filter fun call => !isControl call) = []) : calls.filter isControl = calls := by
  apply List.filter_eq_self.mpr
  intro call member
  have kept := List.filter_eq_nil_iff.mp alone call member
  simpa using kept

theorem nativeBranch_result (native : env.native = true) : NativeResult env resp (nativeBranch env resp) := by
  unfold nativeBranch
  simp only
  split
  · exact separate_fail _
  · split
    · exact separate_fail _
    · split
      · exact separate_fail _
      · split
        · intro call member
          have kept := (List.mem_filter.mp member).2
          simpa using kept
        · next alone =>
          have all := filter_control (not_not.mp alone)
          rw [all]
          split
          · next action one =>
            have single : resp.toolActions = some [action] := by
              cases calls : resp.toolActions with
              | none => rw [calls] at one; cases one
              | some list => rw [calls] at one; exact congrArg some one
            split
            · next valid =>
              split
              · exact separate_fail _
              · next unmarked =>
                have control : isControl action = true := by
                  have member : action ∈ (resp.toolActions.getD []).filter isControl := by
                    rw [all, one]
                    exact List.mem_cons_self
                  exact (List.mem_filter.mp member).2
                apply separate_accept
                exact
                  { sound := ⟨control, valid, Bool.eq_false_iff.mpr unmarked⟩
                    consists := .native native single
                    whole := fun legacy => by rw [native] at legacy; cases legacy }
            · exact separate_fail _
          · next none_call =>
            split
            · exact separate_fail _
            · next unmarked =>
              split
              · exact separate_text rfl rfl rfl (.native native none_call (by simpa using unmarked))
              · exact separate_fail _
          · exact separate_fail _

/-! ### The legacy reply -/

/-- What is needed of a legacy reply: no calls are behind the JSON value of a plan that is
accepted or of text that is returned, and no salvaged plan is accepted, nor one of a truncated
repair. -/
structure Settled (env : PlanEnv) (truncated : Bool) (plan : Text) : Prop where
  alone : ∀ action, parsePlanActions plan = .batch [action] → Acceptable env truncated action →
    callsBehind plan = []
  free : parsePlanActions plan = .none ∨ parsePlanActions plan = .batch [] → looksLikePlan plan = false →
    (env.requireCompletion = true → truncated = false) → callsBehind plan = []
  salvaged : parsePlanActions plan = .none → looksLikePlan plan → ∀ action,
    someActions (salvageTruncatedArray plan) = some [action] → ¬ Acceptable env truncated action
  repaired : parsePlanActions plan = .none → looksLikePlan plan → someActions (salvageTruncatedArray plan) = none →
    ∀ reply fixed, env.repair = some reply → reply.content = some fixed →
      (∀ action, parsePlanActions fixed = .batch [action] → Acceptable env truncated action →
        reply.truncated = false ∧ callsBehind fixed = []) ∧
      ((∀ actions, parsePlanActions fixed ≠ .batch actions) → ∀ action,
        someActions (salvageTruncatedArray fixed) = some [action] → ¬ Acceptable env truncated action)

theorem separate_ends {plan : Plan} (ends : Ends env truncated raw actions plan)
    (decides : ∀ action, actions = [action] → Acceptable env truncated action → Decision env resp action)
    (free : actions = [] → (env.requireCompletion = true → truncated = false) → CallFree env resp) :
    Separate env resp plan := by
  cases ends with
  | error => exact separate_fail _
  | batch work free => exact separate_batch work free
  | accepted one acceptable => exact separate_accept (decides _ one acceptable)
  | text nativeEnd empty whole => exact separate_text rfl rfl rfl (free empty whole)

theorem dsml_some (plan : Text) : parseDsmlToolCalls plan ≠ .batch [] := by
  unfold parseDsmlToolCalls
  intro empty
  simp only at empty
  split at empty
  · cases empty
  · split at empty
    · cases empty
    · split at empty
      · cases empty
      · split at empty
        · cases empty
        · split at empty
          · cases empty
          · cases empty
          · next some_ _ =>
            split at empty
            · cases empty
              exact some_ rfl
            · cases empty

theorem tagged_some (plan : Text) : parseTaggedToolCalls plan ≠ .batch [] := by
  unfold parseTaggedToolCalls
  intro empty
  simp only at empty
  split at empty
  · cases empty
  · split at empty
    · cases empty
    · split at empty
      · cases empty
      · cases empty
      · next some_ _ =>
        cases empty
        exact some_ rfl

theorem repair_consists (visible : VisibleText env resp plan) (settled : Settled env resp.truncated plan)
    (read : readCalls plan = .none) (parsed : parsePlanActions plan = .none) (looks : looksLikePlan plan)
    (repair : repairPlan env plan = some (raw, [action])) (acceptable : Acceptable env resp.truncated action) :
    Consists env resp action := by
  unfold repairPlan at repair
  simp only at repair
  cases salvaged : someActions (salvageTruncatedArray plan) with
  | some actions =>
    rw [salvaged] at repair
    cases repair
    exact absurd acceptable (settled.salvaged parsed looks action salvaged)
  | none =>
    rw [salvaged] at repair
    simp only at repair
    cases replied : env.repair.bind LlmReply.content with
    | none => rw [replied] at repair; cases repair
    | some fixed =>
      rw [replied] at repair
      simp only at repair
      obtain ⟨reply, asked, content⟩ := Option.bind_eq_some_iff.mp replied
      rcases settled.repaired parsed looks salvaged reply fixed asked content with ⟨whole, cut⟩
      split at repair
      · next actions again =>
        cases repair
        rcases whole action again acceptable with ⟨complete, alone⟩
        exact .repaired visible read looks salvaged asked complete content again alone
      · next other =>
        obtain ⟨actions, again, same⟩ := Option.map_eq_some_iff.mp repair
        cases same
        exact absurd acceptable (cut other action again)

theorem decision_text (visible : VisibleText env resp plan) (read : readCalls plan = .batch [action])
    (alone : Plain plan → callsBehind plan = []) (acceptable : Acceptable env resp.truncated action) :
    Decision env resp action where
  sound := acceptable.sound
  consists := .text visible read alone
  whole := fun _ => acceptable.whole

theorem readCalls_plain (plain : Plain plan) : readCalls plan = parsePlanActions plan := by
  unfold readCalls
  simp only [plain.1, plain.2]

theorem planJson_separate (visible : VisibleText env resp plan) (plain : Plain plan)
    (settled : Settled env resp.truncated plan) : Separate env resp (planJson env resp.truncated plan) := by
  have legacy := visible.1
  have read := readCalls_plain plain
  unfold planJson
  cases parsed : parsePlanActions plan with
  | invalid => exact separate_fail _
  | batch actions =>
    simp only
    split
    · exact separate_fail _
    · next some_ =>
      apply separate_ends (checkBatch_ends legacy)
      · rintro action rfl acceptable
        apply decision_text visible (read.trans parsed) _ acceptable
        exact fun _ => settled.alone action parsed acceptable
      · rintro rfl whole
        have prose : looksLikePlan plan = false := Bool.eq_false_iff.mpr fun looks => some_ ⟨looks, rfl⟩
        exact .text visible (.inr (read.trans parsed)) prose (settled.free (.inr parsed) prose whole)
  | none =>
    simp only
    split
    · next looks =>
      split
      · next raw action actions repair =>
        apply separate_ends (checkBatch_ends legacy)
        · intro only one acceptable
          rw [one] at repair
          exact
            { sound := acceptable.sound
              consists := repair_consists visible settled (read.trans parsed) parsed looks repair acceptable
              whole := fun _ => acceptable.whole }
        · intro empty
          cases empty
      · exact separate_fail _
    · next looks =>
      have prose : looksLikePlan plan = false := Bool.eq_false_iff.mpr looks
      apply separate_ends (checkBatch_ends legacy)
      · intro action one
        cases one
      · intro _ whole
        exact .text visible (.inl (read.trans parsed)) prose (settled.free (.inl parsed) prose whole)

theorem planText_separate (visible : VisibleText env resp plan)
    (settled : Plain plan → Settled env resp.truncated plan) :
    Separate env resp (planText env resp.truncated plan) := by
  have legacy := visible.1
  unfold planText
  cases dsml : parseDsmlToolCalls plan with
  | invalid => exact separate_fail _
  | batch actions =>
    have read : readCalls plan = .batch actions := by
      unfold readCalls
      simp only [dsml]
    have marked (plain : Plain plan) : callsBehind plan = [] := by
      rw [plain.1] at dsml
      cases dsml
    apply separate_ends (checkBatch_ends legacy)
    · rintro action rfl acceptable
      exact decision_text visible read marked acceptable
    · rintro rfl -
      exact absurd dsml (dsml_some plan)
  | none =>
    simp only
    cases tagged : parseTaggedToolCalls plan with
    | invalid => exact separate_fail _
    | batch actions =>
      have read : readCalls plan = .batch actions := by
        unfold readCalls
        simp only [dsml, tagged]
      have marked (plain : Plain plan) : callsBehind plan = [] := by
        rw [plain.2] at tagged
        cases tagged
      apply separate_ends (checkBatch_ends legacy)
      · rintro action rfl acceptable
        exact decision_text visible read marked acceptable
      · rintro rfl -
        exact absurd tagged (tagged_some plan)
    | none => exact planJson_separate visible ⟨dsml, tagged⟩ (settled ⟨dsml, tagged⟩)

theorem planCalls_legacy (legacy : env.native = false) (given : resp.toolActions = some calls) :
    Separate env resp (planCalls env resp.truncated calls) := by
  unfold planCalls
  split
  · next actions made =>
    split
    · exact separate_fail _
    · next some_ =>
      apply separate_ends (checkBatch_ends legacy)
      · rintro action rfl acceptable
        exact
          { sound := acceptable.sound
            consists := .calls legacy given made
            whole := fun _ => acceptable.whole }
      · intro empty
        exact absurd empty some_
  · exact separate_fail _

theorem planWith_separate (settled : ∀ plan, VisibleText env resp plan → Plain plan →
    Settled env resp.truncated plan) : Separate env resp (planWith env resp) := by
  unfold planWith
  cases native : env.native with
  | true =>
    have result := @nativeBranch_result env resp native
    simp only [if_true]
    cases branch : nativeBranch env resp with
    | inl plan =>
      rw [branch] at result
      exact result
    | inr calls =>
      rw [branch] at result
      simp only [true_or, if_true]
      exact planCalls_separate native result
  | false =>
    simp only [Bool.false_eq_true, if_false, false_or]
    split
    · next given =>
      obtain ⟨calls, given⟩ := Option.isSome_iff_exists.mp given
      rw [given]
      exact planCalls_legacy native given
    · next nothing =>
      cases content : resp.content with
      | none => exact separate_fail _
      | some text =>
        simp only
        cases visible : visiblePlan (cstr text) with
        | none => exact separate_fail _
        | some plan =>
          have shown : VisibleText env resp plan :=
            ⟨native, Option.not_isSome_iff_eq_none.mp nothing, text, content, visible⟩
          exact planText_separate shown (settled plan shown)

/-! ### What a decided reply shows -/

theorem planWith_plain (visible : VisibleText env resp plan) (plain : Plain plan) :
    planWith env resp = planJson env resp.truncated plan := by
  rcases visible with ⟨native, nothing, content, read, shown⟩
  simp [planWith, native, nothing, read, shown, planText, plain.1, plain.2]

theorem Separate.consists (visible : VisibleText env resp plan)
    (called : (∃ actions, actions ≠ [] ∧ readCalls plan = .batch actions) ∨ looksLikePlan plan = true)
    (separate : Separate env resp (accept env.number action)) : ∃ other, Consists env resp other := by
  rcases separate.ended rfl rfl with ⟨⟨other, decision, -⟩, -⟩ | ⟨free, -⟩
  · exact ⟨other, decision.consists⟩
  · cases free with
    | native native _ _ =>
      rw [visible.1] at native
      cases native
    | text visible' read prose _ =>
      cases visible.unique visible'
      rcases called with ⟨actions, some_, found⟩ | looks
      · rw [found] at read
        rcases read with nothing | empty
        · cases nothing
        · cases empty
          exact absurd rfl some_
      · rw [looks] at prose
        cases prose

theorem Consists.of_plain (visible : VisibleText env resp plan) (plain : Plain plan)
    (consists : Consists env resp action) :
    (parsePlanActions plan = .batch [action] ∧ callsBehind plan = []) ∨
      ∃ reply fixed, parsePlanActions plan = .none ∧ someActions (salvageTruncatedArray plan) = none ∧
        env.repair = some reply ∧ reply.content = some fixed ∧ reply.truncated = false ∧
        parsePlanActions fixed = .batch [action] ∧ callsBehind fixed = [] := by
  cases consists with
  | native native _ =>
    rw [visible.1] at native
    cases native
  | calls _ calls _ =>
    rw [visible.2.1] at calls
    cases calls
  | text visible' read alone =>
    cases visible.unique visible'
    rw [readCalls_plain plain] at read
    exact .inl ⟨read, alone plain⟩
  | repaired visible' read _ salvaged asked whole content again alone =>
    cases visible.unique visible'
    rw [readCalls_plain plain] at read
    exact .inr ⟨_, _, read, salvaged, asked, content, whole, again, alone⟩

theorem settled_of_separate (visible : VisibleText env resp plan) (plain : Plain plan)
    (separate : Separate env resp (planWith env resp)) : Settled env resp.truncated plan := by
  have legacy := visible.1
  have read := readCalls_plain plain
  rw [planWith_plain visible plain] at separate
  constructor
  · intro action parsed acceptable
    have ends : planJson env resp.truncated plan = accept env.number action := by
      rw [← @checkBatch_accept env resp.truncated plan action legacy acceptable]
      simp [planJson, parsed]
    rw [ends] at separate
    obtain ⟨other, consists⟩ := separate.consists visible (.inl ⟨[action], by simp, read.trans parsed⟩)
    rcases consists.of_plain visible plain with ⟨-, alone⟩ | ⟨_, _, nothing, -⟩
    · exact alone
    · rw [parsed] at nothing
      cases nothing
  · intro nothing prose whole
    have ends : planJson env resp.truncated plan =
        { nativeEnd := if env.requireCompletion then 4 else 0, raw := some plan } := by
      rw [← checkBatch_nil legacy whole]
      unfold planJson
      rcases nothing with nothing | nothing <;> simp [nothing, prose]
    rw [ends] at separate
    rcases separate.ended rfl rfl with ⟨⟨other, -, same⟩, -⟩ | ⟨free, -⟩
    · cases congrArg Plan.completion same
    · cases free with
      | native native _ _ =>
        rw [legacy] at native
        cases native
      | text visible' _ _ alone =>
        cases visible.unique visible'
        exact alone
  · intro nothing looks action salvaged acceptable
    have ends : planJson env resp.truncated plan = accept env.number action := by
      rw [← @checkBatch_accept env resp.truncated ((salvageTruncatedArray plan).getD []) action legacy acceptable]
      simp [planJson, nothing, looks, repairPlan, salvaged]
    rw [ends] at separate
    obtain ⟨other, consists⟩ := separate.consists visible (.inr looks)
    rcases consists.of_plain visible plain with ⟨parsed, -⟩ | ⟨_, _, -, none_, -⟩
    · rw [nothing] at parsed
      cases parsed
    · rw [salvaged] at none_
      cases none_
  · intro nothing looks salvaged reply fixed asked content
    have repair : env.repair.bind LlmReply.content = some fixed := by
      rw [asked]
      exact content
    constructor
    · intro action again acceptable
      have ends : planJson env resp.truncated plan = accept env.number action := by
        rw [← @checkBatch_accept env resp.truncated fixed action legacy acceptable]
        simp [planJson, nothing, looks, repairPlan, salvaged, repair, again]
      rw [ends] at separate
      obtain ⟨other, consists⟩ := separate.consists visible (.inr looks)
      rcases consists.of_plain visible plain with ⟨parsed, -⟩ | ⟨_, _, -, -, asked', content', whole, -, alone⟩
      · rw [nothing] at parsed
        cases parsed
      · rw [asked] at asked'
        cases asked'
        rw [content] at content'
        cases content'
        exact ⟨whole, alone⟩
    · intro other action again acceptable
      have ends : planJson env resp.truncated plan = accept env.number action := by
        rw [← @checkBatch_accept env resp.truncated ((salvageTruncatedArray fixed).getD []) action legacy acceptable]
        cases parsed : parsePlanActions fixed with
        | batch actions => exact absurd parsed (other actions)
        | none => simp [planJson, nothing, looks, repairPlan, salvaged, repair, parsed, again]
        | invalid => simp [planJson, nothing, looks, repairPlan, salvaged, repair, parsed, again]
      rw [ends] at separate
      obtain ⟨found, consists⟩ := separate.consists visible (.inr looks)
      rcases consists.of_plain visible plain with ⟨parsed, -⟩ | ⟨_, _, -, -, asked', content', -, whole, -⟩
      · rw [nothing] at parsed
        cases parsed
      · rw [asked] at asked'
        cases asked'
        rw [content] at content'
        cases content'
        exact other _ whole

/-- Control decisions never mix with work exactly when the plans of text are settled. -/
theorem control_separate (env : PlanEnv) (resp : LlmReply) :
    Separate env resp (planWith env resp) ↔
      ∀ plan, VisibleText env resp plan → Plain plan → Settled env resp.truncated plan :=
  ⟨fun separate _ visible plain => settled_of_separate visible plain separate, planWith_separate⟩

def bareEnv : PlanEnv where
  native := false
  requireCompletion := false
  rejects := fun _ => false
  repair := none
  number := fun _ => []

def twoPlans : Text :=
  ascii "[\x7b\"tool\":\"complete_task\",\"args\":\x7b\"status\":\"complete\",\"requires_tools\":false,\"answer\":\"x\"\x7d\x7d][\x7b\"tool\":\"shell\"\x7d]"

def twoPlansReply : LlmReply where
  content := some twoPlans
  truncated := false
  toolActions := none

def Parsed.isNone : Parsed → Bool
  | .none => true
  | _ => false

theorem Parsed.eq_none {parsed : Parsed} (nothing : parsed.isNone = true) : parsed = .none := by
  cases parsed with
  | none => rfl
  | _ => cases nothing

theorem twoPlans_read :
    visiblePlan (cstr twoPlans) = some twoPlans ∧ (parseDsmlToolCalls twoPlans).isNone = true ∧
      (parseTaggedToolCalls twoPlans).isNone = true ∧ (callsBehind twoPlans).isEmpty = false ∧
      looksLikePlan twoPlans = true ∧ (planWith bareEnv twoPlansReply).error = none ∧
      (planWith bareEnv twoPlansReply).actions.isEmpty = true := by
  decide +kernel

theorem control_separate_fails : ¬ Separate bareEnv twoPlansReply (planWith bareEnv twoPlansReply) := by
  intro separate
  obtain ⟨seen, dsml, tagged, behind, looks, fine, empty⟩ := twoPlans_read
  have visible : VisibleText bareEnv twoPlansReply twoPlans := ⟨rfl, rfl, twoPlans, rfl, seen⟩
  have plain : Plain twoPlans := ⟨Parsed.eq_none dsml, Parsed.eq_none tagged⟩
  rcases separate.ended fine (List.isEmpty_iff.mp empty) with ⟨⟨other, decision, -⟩, -⟩ | ⟨free, -⟩
  · rcases decision.consists.of_plain visible plain with ⟨-, alone⟩ | ⟨_, _, -, -, asked, -⟩
    · rw [alone] at behind
      cases behind
    · cases asked
  · cases free with
    | native native _ _ => cases native
    | text visible' _ prose _ =>
      cases visible.unique visible'
      rw [looks] at prose
      cases prose

end CognitiveOs.Cognition.Planner
