import CognitiveOs.Infra.Rereads

/-!
# Decomposing a task

`runtime/orchestrator.c`: a task with its roster as one text, the plan a model replies with, and the
flow that is made of it.
-/

namespace CognitiveOs.Runtime.Orchestrator

open Infra

def orchMaxSteps : Nat := 4

def orchMaxTasklen : Nat := 8192

structure AgentEntry where
  name : Text
  role : Text

abbrev AgentPool := List AgentEntry

/-- `agent_pool_find` finds it. -/
def AgentPool.has (agents : AgentPool) (name : Text) : Bool :=
  agents.any fun entry => entry.name = name

/-! ### The scope of a task -/

/-- `scope_has`; without a list every agent is allowed. -/
def scopeHas (allowed : Option (List Json)) (name : Text) : Bool :=
  match allowed with
  | none => true
  | some items => items.any fun item => item.string? = some name

def rosterValid (agents : AgentPool) (items : List Json) : Bool :=
  items ≠ [] ∧ items.all fun item => item.string?.any agents.has

def scopeJson (task : Text) (items : List Json) : Json :=
  .object [(ascii "coa_flow_scope", .number 1), (ascii "task", .string (cstr task)), (ascii "agents", .array items)]

def flowScopeTask (number : Rat → Text) (agents : AgentPool) (task : Text) (agentsJson : Option Text) : Option Text :=
  match agentsJson with
  | none => some task
  | some text =>
    match Cjson.parse text with
    | some (.array items) => if rosterValid agents items then some ((scopeJson task items).print number) else none
    | _ => none

/-- `roster_text`, a line for each agent of the pool that is allowed. -/
def rosterText (agents : AgentPool) (allowed : Option (List Json)) : Text :=
  (agents.filter fun entry => scopeHas allowed entry.name).flatMap fun entry =>
    ascii "- " ++ entry.name ++ ascii " (" ++ entry.role ++ ascii ")\n"

/-! ### The plan -/

structure PlanStep where
  agent : Text
  task : Text
  /-- Earlier steps, counted from 0. -/
  after : List Nat
  deriving DecidableEq

/-- One number of `after` for the step behind `n` others. -/
def addAfter (n : Nat) (after : List Nat) (item : Json) : Option (List Nat) :=
  match item with
  | .number value =>
    if value < 1 ∨ n < value ∨ value ≠ Cjson.castInt value then none
    else
      let idx := (Cjson.castInt value).toNat - 1
      if idx ∈ after ∨ orchMaxSteps ≤ after.length then some after else some (after ++ [idx])
  | _ => none

/-- The steps on which the step behind `n` others depends. -/
def planAfter (n : Nat) (item : Json) : Option (List Nat) :=
  match item.get? (ascii "after") with
  | none => some (if 0 < n then [n - 1] else [])
  | some (.array numbers) => numbers.foldlM (addAfter n) []
  | some _ => none

/-- One item of the plan, behind `n` others. -/
def planStep (agents : AgentPool) (n : Nat) (item : Json) : Option PlanStep :=
  match (item.get? (ascii "agent")).bind Json.string?, (item.get? (ascii "task")).bind Json.string? with
  | some agent, some task =>
    if agent = [] ∨ task = [] ∨ ¬agents.has agent ∨ 64 ≤ agent.length ∨ orchMaxTasklen ≤ task.length then none
    else (planAfter n item).map fun after => { agent, task, after }
  | _, _ => none

/-- The items from the one behind `n` others on. -/
def planSteps (agents : AgentPool) : Nat → List Json → Option (List PlanStep)
  | _, [] => some []
  | n, item :: items =>
    (planStep agents n item).bind fun step => (planSteps agents (n + 1) items).map fun steps => step :: steps

def replyArray (raw : Text) : Option (List Json) :=
  let front := (cstr raw).dropWhile (· ≠ 91)
  let slice := (front.reverse.dropWhile (· ≠ 93)).reverse
  if slice = [] then none
  else
    match Cjson.parse slice with
    | some (.array items) => some items
    | _ => none

/-- `parse_plan`; `none` for its answer -1. -/
def parsePlan (agents : AgentPool) (raw : Text) : Option (List PlanStep) :=
  match replyArray raw with
  | none => some []
  | some items => if orchMaxSteps < items.length then none else planSteps agents 0 items

/-! ### Decomposition -/

/-- The scope in a task's text, if it has one: the allowed agents and the task itself, or `none`
when it is not valid. -/
def readScope (agents : AgentPool) (task : Text) : Option (Option (List Json) × Text) :=
  let scope := Cjson.parse task
  match scope.bind (·.get? (ascii "coa_flow_scope")) with
  | some (.number _) =>
    match scope.bind (·.get? (ascii "agents")), (scope.bind (·.get? (ascii "task"))).bind Json.string? with
    | some (.array items), some original => if rosterValid agents items then some (some items, original) else none
    | _, _ => none
  | _ => some (none, task)

def userPrompt (roster task : Text) : Text :=
  "可用 agent:\n".toUTF8.toList ++ roster ++ "\n任务: ".toUTF8.toList ++ task

def planned (agents : AgentPool) (llm : Option (Text → Option Text)) (allowed : Option (List Json)) (task : Text) :
    Option (List PlanStep) :=
  let roster := rosterText agents allowed
  if roster = [] then some []
  else
    match llm.bind fun chat => chat (userPrompt roster task) with
    | none => some []
    | some raw => (parsePlan agents raw).filter fun steps => steps.all fun step => scopeHas allowed step.agent

/-- `decompose_task`; `none` for its answer -1. -/
def decomposeTask (agents : AgentPool) (llm : Option (Text → Option Text)) (task : Text) : Option (List PlanStep) :=
  (readScope agents task).bind fun (allowed, original) =>
    (planned agents llm allowed original).filter fun steps => ¬(allowed.isSome ∧ steps = [])

/-! ### The flow -/

/-- `step1` and so on; `step` is counted from 0. -/
def stepId (step : Nat) : Text :=
  snprintf 16 (ascii "step" ++ decimal (step + 1))

def nodeJson (i : Nat) (step : PlanStep) : Json :=
  .object [(ascii "id", .string (stepId i)), (ascii "agent", .string step.agent), (ascii "task", .string step.task)]

def edgeJson (i prerequisite : Nat) : Json :=
  .object [(ascii "from", .string (stepId prerequisite)), (ascii "to", .string (stepId i))]

/-- The document of `build_dag_json`. -/
def dagJson (steps : List PlanStep) : Json :=
  .object
    [(ascii "nodes", .array (steps.mapIdx nodeJson)),
      (ascii "edges", .array (steps.mapIdx fun i step => step.after.map (edgeJson i)).flatten)]

def buildDagJson (number : Rat → Text) (steps : List PlanStep) : Text :=
  (dagJson steps).print number

def flowDecompose (number : Rat → Text) (agents : AgentPool) (llm : Option (Text → Option Text)) (task : Text) :
    Option Text :=
  match decomposeTask agents llm task with
  | none | some [] => none
  | some steps => some (buildDagJson number steps)

/-- What `orchestrate_task` does with the plan. -/
inductive Execution where
  /-- No step is executed. -/
  | refused
  /-- One agent, with every tool. -/
  | single (task : Text)
  /-- `flow_run` of this document. -/
  | flow (dag : Text)
  deriving DecidableEq

/-- `orchestrate_task` up to the execution. -/
def orchestrateTask (number : Rat → Text) (agents : AgentPool) (llm : Option (Text → Option Text)) (task : Text) :
    Execution :=
  match decomposeTask agents llm task with
  | none => .refused
  | some [] => .single task
  | some steps => .flow (buildDagJson number steps)

end CognitiveOs.Runtime.Orchestrator

/-!
## Plans within a roster

The text of a scoped task is read back as the scope it was made of, and the plan of a scoped task
assigns its steps to the agents of the scope only.
-/

namespace CognitiveOs.Runtime.Orchestrator

open Infra Json Cjson

variable {number : Rat → Text} {agents : AgentPool}

/-! ### The scope -/

variable {items : List Json} {allowed names : List Text} {height : Nat} {item : Json} {s task : Text}

theorem rosterValid_iff : rosterValid agents items = true ↔
    ∃ allowed : List Text, items = allowed.map .string ∧ allowed ≠ [] ∧ ∀ name ∈ allowed, agents.has name = true := by
  have each : (items.all fun item => item.string?.any agents.has) = true ↔
      ∃ allowed : List Text, items = allowed.map .string ∧ ∀ name ∈ allowed, agents.has name = true := by
    induction items with
    | nil => exact ⟨fun _ => ⟨[], rfl, by simp⟩, fun _ => rfl⟩
    | cons item items ih =>
      rw [List.all_cons, Bool.and_eq_true, ih]
      constructor
      · rintro ⟨own, allowed, rfl, rest⟩
        cases item with
        | string name => exact ⟨name :: allowed, rfl, List.forall_mem_cons.mpr ⟨own, rest⟩⟩
        | _ => cases own
      · rintro ⟨allowed, same, has⟩
        cases allowed with
        | nil => cases same
        | cons name allowed =>
          obtain ⟨rfl, rfl⟩ := List.cons.inj same
          obtain ⟨own, rest⟩ := List.forall_mem_cons.mp has
          exact ⟨own, allowed, rfl, rest⟩
  rw [rosterValid, decide_eq_true_iff, each]
  constructor
  · rintro ⟨some_item, allowed, rfl, has⟩
    exact ⟨allowed, rfl, fun empty => some_item (by rw [empty, List.map_nil]), has⟩
  · rintro ⟨allowed, rfl, some_name, has⟩
    exact ⟨fun empty => some_name (List.map_eq_nil_iff.mp empty), allowed, rfl, has⟩

theorem scopeHas_names {name : Text} : scopeHas (some (allowed.map .string)) name = true ↔ name ∈ allowed := by
  simp [scopeHas, Json.string?]

theorem withinItems_mem (within : WithinItems height items) (member : item ∈ items) : Within height item := by
  induction items with
  | nil => cases member
  | cons head items ih =>
    cases within with
    | cons one rest =>
      rcases List.mem_cons.mp member with rfl | later
      · exact one
      · exact ih rest later

theorem parse_items (read : parse s = some (.array items)) (member : item ∈ items) : ∃ height, Within height item := by
  cases parse_within read with
  | array within => exact ⟨_, withinItems_mem within member⟩

theorem rereads_strings (clean : ∀ name ∈ names, 0 ∉ name) :
    RereadsItems number height (names.map .string) (names.map .string) := by
  induction names with
  | nil => exact .nil
  | cons name names ih =>
    obtain ⟨own, rest⟩ := List.forall_mem_cons.mp clean
    exact .cons (.string own) (ih rest)

theorem parse_scope (prints : PrintsIntegers number) (task : Text) (clean : ∀ name ∈ names, 0 ∉ name) :
    parse ((scopeJson task (names.map .string)).print number) = some (scopeJson task (names.map .string)) := by
  have one : NumberReads number 1 (.number 1) := by
    have reads := prints.reads_self (k := 1) (by decide)
    rwa [Int.cast_one] at reads
  have shown : Rereads number 2 (scopeJson task (names.map .string)) (scopeJson task (names.map .string)) :=
    .object (.cons (by decide) (.number one) (.cons (by decide) (.string (not_mem_cstr task))
      (.cons (by decide) (.array (rereads_strings clean)) .nil)))
  rw [parse, parseWithEnd_print number shown (by decide)]
  rfl

theorem readScope_scope (prints : PrintsIntegers number) (task : Text) (clean : ∀ name ∈ names, 0 ∉ name) :
    readScope agents ((scopeJson task (names.map .string)).print number) =
      if rosterValid agents (names.map .string) then some (some (names.map .string), cstr task) else none := by
  have mark : (scopeJson task (names.map .string)).get? (ascii "coa_flow_scope") = some (.number 1) := rfl
  have list : (scopeJson task (names.map .string)).get? (ascii "agents") = some (.array (names.map .string)) := rfl
  have own : (scopeJson task (names.map .string)).get? (ascii "task") = some (.string (cstr task)) := rfl
  simp only [readScope, parse_scope prints task clean, Option.bind_some, mark, list, own, Json.string?]

theorem scoped_names {list text : Text} (scope : flowScopeTask number agents task (some list) = some text) :
    ∃ allowed : List Text, parse list = some (.array (allowed.map .string)) ∧ allowed ≠ [] ∧
      (∀ name ∈ allowed, agents.has name = true) ∧ (∀ name ∈ allowed, 0 ∉ name) ∧
        text = (scopeJson task (allowed.map .string)).print number := by
  simp only [flowScopeTask] at scope
  split at scope
  · rename_i items read
    split at scope
    · rename_i valid
      obtain ⟨allowed, rfl, some_name, has⟩ := rosterValid_iff.mp valid
      refine ⟨allowed, read, some_name, has, fun name member => ?_, (Option.some.inj scope).symm⟩
      obtain ⟨height, within⟩ := parse_items read (List.mem_map_of_mem member)
      cases within with
      | string text => exact text
    · cases scope
  · cases scope

/-! ### The steps -/

variable {n : Nat} {after : List Nat} {steps : List PlanStep}

theorem addAfter_lt {later : List Nat} (added : addAfter n after item = some later) (earlier : ∀ p ∈ after, p < n) :
    ∀ p ∈ later, p < n := by
  unfold addAfter at added
  split at added
  · rename_i value
    split at added
    · cases added
    · rename_i good
      rw [not_or, not_or, not_lt, not_lt, not_not] at good
      obtain ⟨low, high, whole⟩ := good
      have least : 1 ≤ castInt value := by exact_mod_cast (whole ▸ low : (1 : Rat) ≤ (castInt value : Int))
      have most : castInt value ≤ n := by exact_mod_cast (whole ▸ high : ((castInt value : Int) : Rat) ≤ n)
      dsimp only at added
      split at added
      · cases added
        exact earlier
      · cases added
        intro p member
        rcases List.mem_append.mp member with old | new
        · exact earlier p old
        · rw [List.mem_singleton.mp new]
          omega
  · cases added

theorem foldlM_addAfter_lt {numbers : List Json} {later : List Nat}
    (folded : numbers.foldlM (addAfter n) after = some later) (earlier : ∀ p ∈ after, p < n) : ∀ p ∈ later, p < n := by
  induction numbers generalizing after with
  | nil =>
    cases folded
    exact earlier
  | cons item numbers ih =>
    rw [List.foldlM_cons] at folded
    obtain ⟨next, added, rest⟩ := Option.bind_eq_some_iff.mp folded
    exact ih rest (addAfter_lt added earlier)

theorem planAfter_lt (read : planAfter n item = some after) : ∀ p ∈ after, p < n := by
  unfold planAfter at read
  split at read
  · cases read
    intro p member
    split at member
    · rw [List.mem_singleton.mp member]
      omega
    · cases member
  · exact foldlM_addAfter_lt read nofun
  · cases read

structure Assigns (agents : AgentPool) (item : Json) (step : PlanStep) : Prop where
  agent : item.get? (ascii "agent") = some (.string step.agent)
  task : item.get? (ascii "task") = some (.string step.task)
  registered : agents.has step.agent = true

theorem string?_bind {found : Option Json} (text : found.bind Json.string? = some s) : found = some (.string s) := by
  obtain ⟨json, rfl, string⟩ := Option.bind_eq_some_iff.mp text
  cases json with
  | string value =>
    cases string
    rfl
  | _ => cases string

theorem planStep_assigns {step : PlanStep} (read : planStep agents n item = some step) :
    Assigns agents item step ∧ ∀ p ∈ step.after, p < n := by
  unfold planStep at read
  split at read
  · rename_i agent task isAgent isTask
    split at read
    · cases read
    · rename_i good
      obtain ⟨after, earlier, rfl⟩ := Option.map_eq_some_iff.mp read
      simp only [not_or, not_not] at good
      exact ⟨⟨string?_bind isAgent, string?_bind isTask, good.2.2.1⟩, planAfter_lt earlier⟩
  · cases read

def Forward (steps : List PlanStep) : Prop :=
  ∀ (i : Nat) (step : PlanStep), steps[i]? = some step → ∀ p ∈ step.after, p < i

theorem planSteps_assigns (read : planSteps agents n items = some steps) :
    List.Forall₂ (Assigns agents) items steps ∧
      ∀ (i : Nat) (step : PlanStep), steps[i]? = some step → ∀ p ∈ step.after, p < n + i := by
  induction items generalizing n steps with
  | nil =>
    cases read
    exact ⟨.nil, by simp⟩
  | cons item items ih =>
    obtain ⟨step, one, rest⟩ := Option.bind_eq_some_iff.mp read
    obtain ⟨later, others, rfl⟩ := Option.map_eq_some_iff.mp rest
    obtain ⟨own, before⟩ := planStep_assigns one
    obtain ⟨assigned, earlier⟩ := ih others
    refine ⟨.cons own assigned, fun i found is p member => ?_⟩
    cases i with
    | zero =>
      cases is
      exact before p member
    | succ i =>
      have := earlier i found is p member
      omega

theorem replyArray_within {raw : Text} (read : replyArray raw = some items) (member : item ∈ items) :
    ∃ height, Within height item := by
  unfold replyArray at read
  dsimp only at read
  split at read
  · cases read
  · split at read
    · rename_i parsed
      cases read
      exact parse_items parsed member
    · cases read

theorem parsePlan_assigns {raw : Text} (read : parsePlan agents raw = some steps) (some_step : steps ≠ []) :
    ∃ items, replyArray raw = some items ∧ List.Forall₂ (Assigns agents) items steps ∧ Forward steps := by
  unfold parsePlan at read
  split at read
  · cases read
    exact absurd rfl some_step
  · rename_i items found
    split at read
    · cases read
    · obtain ⟨assigned, earlier⟩ := planSteps_assigns read
      exact ⟨items, found, assigned, by simpa [Forward] using earlier⟩

/-! ### The flow -/

theorem get?_within {json value : Json} (within : Within height json) {key : Text}
    (found : json.get? key = some value) : ∃ height, Within height value := by
  cases within with
  | @object height members rest =>
    induction members with
    | nil => cases found
    | cons member members ih =>
      cases rest with
      | @cons _ name value' _ clean one others =>
        by_cases same : name = key
        · subst same
          rw [get?_cons_self] at found
          cases found
          exact ⟨_, one⟩
        · rw [get?_cons_of_ne same] at found
          exact ih others found
  | _ => cases found

theorem get?_string {json : Json} (within : Within height json) {key : Text}
    (found : json.get? key = some (.string s)) : 0 ∉ s := by
  obtain ⟨_, string⟩ := get?_within within found
  cases string with
  | string clean => exact clean

theorem stepId_clean (i : Nat) : 0 ∉ stepId i := by
  intro member
  have inside := List.mem_of_mem_take member
  rcases List.mem_append.mp inside with name | number
  · exact absurd name (by decide)
  · exact not_mem_decimal (by decide) number

theorem plain_items (each : ∀ item ∈ items, Plain height item) : PlainItems height items := by
  induction items with
  | nil => exact .nil
  | cons item items ih =>
    obtain ⟨own, rest⟩ := List.forall_mem_cons.mp each
    exact .cons own (ih rest)

theorem parse_dag (clean : ∀ step ∈ steps, 0 ∉ step.agent ∧ 0 ∉ step.task) :
    parse (buildDagJson number steps) = some (dagJson steps) := by
  have nodes : PlainItems 1 (steps.mapIdx nodeJson) := by
    refine plain_items fun node member => ?_
    obtain ⟨i, bound, rfl⟩ := List.mem_mapIdx.mp member
    obtain ⟨agent, task⟩ := clean _ (List.getElem_mem bound)
    exact .object (.cons (by decide) (.string (stepId_clean i)) (.cons (by decide) (.string agent)
      (.cons (by decide) (.string task) .nil)))
  have edges : PlainItems 1 (steps.mapIdx fun i step => step.after.map (edgeJson i)).flatten := by
    refine plain_items fun edge member => ?_
    obtain ⟨list, isList, inside⟩ := List.mem_flatten.mp member
    obtain ⟨i, bound, rfl⟩ := List.mem_mapIdx.mp isList
    obtain ⟨p, -, rfl⟩ := List.mem_map.mp inside
    exact .object (.cons (by decide) (.string (stepId_clean p)) (.cons (by decide) (.string (stepId_clean i)) .nil))
  exact parse_print number (.object (.cons (by decide) (.array nodes) (.cons (by decide) (.array edges) .nil)))
    (by decide)

/-- A flow document with a node for each of the items, in their order, that stays within the roster. -/
structure WithinRoster (allowed : List Text) (items : List Json) (dag : Json) : Prop where
  nodes : ∃ nodes, dag.get? (ascii "nodes") = some (.array nodes) ∧ nodes.length = items.length ∧
    ∀ (i : Nat) (node item : Json), nodes[i]? = some node → items[i]? = some item →
      node.get? (ascii "id") = some (.string (stepId i)) ∧
        (∃ name ∈ allowed, node.get? (ascii "agent") = some (.string name) ∧
          item.get? (ascii "agent") = some (.string name)) ∧
        ∃ task, node.get? (ascii "task") = some (.string task) ∧ item.get? (ascii "task") = some (.string task)
  edges : ∃ edges, dag.get? (ascii "edges") = some (.array edges) ∧
    ∀ edge ∈ edges, ∃ i j, i < j ∧ j < items.length ∧ edge.get? (ascii "from") = some (.string (stepId i)) ∧
      edge.get? (ascii "to") = some (.string (stepId j))

theorem withinRoster_dag (assigned : List.Forall₂ (Assigns agents) items steps)
    (inside : ∀ step ∈ steps, step.agent ∈ allowed) (earlier : Forward steps) :
    WithinRoster allowed items (dagJson steps) where
  nodes := by
    refine ⟨steps.mapIdx nodeJson, rfl, by rw [List.length_mapIdx, assigned.length_eq],
      fun i node item isNode isItem => ?_⟩
    rw [List.getElem?_mapIdx] at isNode
    obtain ⟨step, isStep, rfl⟩ := Option.map_eq_some_iff.mp isNode
    have own : Assigns agents item step := by
      obtain ⟨bound, rfl⟩ := List.getElem?_eq_some_iff.mp isItem
      obtain ⟨bound', rfl⟩ := List.getElem?_eq_some_iff.mp isStep
      exact assigned.get bound bound'
    exact ⟨rfl, ⟨step.agent, inside step (List.mem_of_getElem? isStep), rfl, own.agent⟩, step.task, rfl, own.task⟩
  edges := by
    refine ⟨_, rfl, fun edge member => ?_⟩
    obtain ⟨list, isList, inList⟩ := List.mem_flatten.mp member
    obtain ⟨j, bound, rfl⟩ := List.mem_mapIdx.mp isList
    obtain ⟨i, isPrerequisite, rfl⟩ := List.mem_map.mp inList
    have before := earlier j steps[j] (List.getElem?_eq_getElem bound) i isPrerequisite
    exact ⟨i, j, before, assigned.length_eq ▸ bound, rfl, rfl⟩

/-! ### A restricted task -/

theorem planned_assigns {llm : Option (Text → Option Text)}
    (plan : planned agents llm (some (allowed.map .string)) task = some steps) (some_step : steps ≠ []) :
    ∃ chat ∈ llm, ∃ raw items, chat (userPrompt (rosterText agents (some (allowed.map .string))) task) = some raw ∧
      replyArray raw = some items ∧ List.Forall₂ (Assigns agents) items steps ∧ (∀ step ∈ steps, step.agent ∈ allowed) ∧
        Forward steps := by
  unfold planned at plan
  dsimp only at plan
  split at plan
  · cases plan
    exact absurd rfl some_step
  · split at plan
    · cases plan
      exact absurd rfl some_step
    · rename_i raw replied
      obtain ⟨chat, isChat, answer⟩ := Option.bind_eq_some_iff.mp replied
      obtain ⟨parsed, inside⟩ := Option.filter_eq_some_iff.mp plan
      obtain ⟨items, found, assigned, earlier⟩ := parsePlan_assigns parsed some_step
      refine ⟨chat, isChat, raw, items, answer, found, assigned, fun step member => ?_, earlier⟩
      exact scopeHas_names.mp (List.all_eq_true.mp inside step member)

theorem decomposeTask_scoped (prints : PrintsIntegers number) {llm : Option (Text → Option Text)}
    (clean : ∀ name ∈ allowed, 0 ∉ name)
    (plan : decomposeTask agents llm ((scopeJson task (allowed.map .string)).print number) = some steps) :
    steps ≠ [] ∧ planned agents llm (some (allowed.map .string)) (cstr task) = some steps := by
  rw [decomposeTask, readScope_scope prints task clean] at plan
  split at plan
  · obtain ⟨planned', kept⟩ := Option.filter_eq_some_iff.mp plan
    exact ⟨by simpa using kept, planned'⟩
  · cases plan

/-- A task restricted to a list of agents: whatever agents there are and whatever the model replies, no
agent is run, or the steps are those of the reply's array and their agents are of the list. -/
theorem restricted_plan (prints : PrintsIntegers number) {task list text : Text}
    (scope : flowScopeTask number agents task (some list) = some text) :
    ∃ allowed : List Text, parse list = some (.array (allowed.map .string)) ∧ allowed ≠ [] ∧
      (∀ name ∈ allowed, agents.has name = true) ∧
      ∀ (pool : AgentPool) (llm : Option (Text → Option Text)),
        orchestrateTask number pool llm text = .refused ∧ flowDecompose number pool llm text = none ∨
        ∃ chat ∈ llm, ∃ raw items flow dag,
          chat (userPrompt (rosterText pool (some (allowed.map .string))) (cstr task)) = some raw ∧
            replyArray raw = some items ∧ orchestrateTask number pool llm text = .flow flow ∧
            flowDecompose number pool llm text = some flow ∧ parse flow = some dag ∧
            WithinRoster allowed items dag := by
  obtain ⟨allowed, read, some_name, has, clean, rfl⟩ := scoped_names scope
  refine ⟨allowed, read, some_name, has, fun pool llm => ?_⟩
  cases plan : decomposeTask pool llm ((scopeJson task (allowed.map .string)).print number) with
  | none => exact .inl ⟨by rw [orchestrateTask, plan], by rw [flowDecompose, plan]⟩
  | some steps =>
    obtain ⟨some_step, planned'⟩ := decomposeTask_scoped prints clean plan
    obtain ⟨chat, isChat, raw, items, answer, found, assigned, inside, earlier⟩ := planned_assigns planned' some_step
    have texts : ∀ step ∈ steps, 0 ∉ step.agent ∧ 0 ∉ step.task := by
      intro step member
      obtain ⟨i, bound, rfl⟩ := List.getElem_of_mem member
      have bound' : i < items.length := assigned.length_eq ▸ bound
      have own := assigned.get bound' bound
      obtain ⟨height, within⟩ := replyArray_within found (List.getElem_mem bound')
      exact ⟨get?_string within own.agent, get?_string within own.task⟩
    refine .inr ⟨chat, isChat, raw, items, buildDagJson number steps, dagJson steps, answer, found, ?_, ?_,
      parse_dag texts, withinRoster_dag assigned inside earlier⟩
    · cases steps with
      | nil => exact absurd rfl some_step
      | cons step steps => rw [orchestrateTask, plan]
    · cases steps with
      | nil => exact absurd rfl some_step
      | cons step steps => rw [flowDecompose, plan]

/-- A list of one of two agents, and a task for it. -/
theorem restricted_plan_coder :
    ∃ allowed : List Text, parse (ascii "[\"coder\"]") = some (.array (allowed.map .string)) ∧
      ∀ (pool : AgentPool) (llm : Option (Text → Option Text)) (name : Text),
        orchestrateTask integerText pool llm
          ((scopeJson (ascii "build") [.string (ascii "coder")]).print integerText) ≠ .single name := by
  have scope : flowScopeTask integerText [⟨ascii "coder", []⟩, ⟨ascii "tester", []⟩] (ascii "build")
      (some (ascii "[\"coder\"]")) =
        some ((scopeJson (ascii "build") [.string (ascii "coder")]).print integerText) := by
    decide +kernel
  obtain ⟨allowed, read, -, -, runs⟩ := restricted_plan printsIntegers_integerText scope
  refine ⟨allowed, read, fun pool llm name single => ?_⟩
  rcases runs pool llm with ⟨refused, -⟩ | ⟨_, _, _, _, _, _, _, _, flow, -⟩
  · rw [refused] at single
    cases single
  · rw [flow] at single
    cases single

end CognitiveOs.Runtime.Orchestrator
