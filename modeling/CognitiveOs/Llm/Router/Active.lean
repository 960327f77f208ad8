import CognitiveOs.Llm.Router.Model

/-!
# Switching the active model

`set_llm` of `cognitive_os_agent.c`: the live instance, and the route table that is to contain it.
-/

namespace CognitiveOs.Llm.Routing

open Infra

/-! ### The code -/

/-- `llm`, as far as it is set here. -/
structure LiveLlm where
  provider : Text
  baseUrl : Option Text
  apiKey : Option Text
  model : Text
  contextWindowTokens : Int := 0
  maxOutputTokens : Int := 0

def orDefault (s : Option Text) (default : String) : Text :=
  if s.getD [] = [] then ascii default else s.getD []

def llmCreate (provider : Text) (baseUrl apiKey model : Option Text) : Option LiveLlm :=
  if provider = ascii "openai" then
    some { provider, baseUrl := some (orDefault baseUrl "http://localhost:11434"), apiKey,
           model := model.getD (ascii "gpt-4o-mini") }
  else if provider = ascii "anthropic" then
    some { provider, baseUrl := some (orDefault baseUrl "http://localhost:8000"), apiKey,
           model := model.getD (ascii "claude-sonnet-4-6") }
  else if provider = ascii "mock" then
    some { provider, baseUrl := none, apiKey := none, model := model.getD (ascii "mock") }
  else none

structure ChatLane where
  llm : LiveLlm
  routed : Bool

/-- What `set_llm` reads and writes of `runtime_ctx`. -/
structure ActiveCtx where
  router : Option Router
  provider : Option Text
  llm : Option LiveLlm
  chatLanes : List (Option ChatLane)

/-- The arguments of `set_llm`. -/
structure NewLlm where
  provider : Text
  baseUrl : Option Text
  model : Option Text
  apiKey : Option Text

def NewLlm.sized (a : NewLlm) (e : Route) : Bool :=
  e.provider = a.provider && sameString e.model a.model && sameString e.baseUrl a.baseUrl &&
    decide (0 < e.contextWindowTokens)

/-- `have_same`. -/
def NewLlm.listed (a : NewLlm) (e : Route) : Bool :=
  match e.model with
  | none => false
  | some model =>
    e.provider = a.provider && (if a.model.getD [] = [] then model = [] else model = a.model.getD []) &&
      sameString e.baseUrl a.baseUrl

/-- The route `set_llm` adds. -/
def NewLlm.added (a : NewLlm) : Added :=
  { name := a.provider, provider := a.provider, baseUrl := a.baseUrl, apiKey := a.apiKey, model := a.model,
    weight := 1 }

/-- The table after `set_llm`; `previous` is the provider that was active. -/
def switchRoutes (previous : Option Text) (a : NewLlm) (r : Router) : Router :=
  let haveSame := r.routes.any a.listed
  let r :=
    match previous with
    | some provider => r.remove provider
    | none => r
  if haveSame then r else r.addEx a.added

/-- `set_llm`; `none` where the source returns -1. -/
def setLlm (ctx : ActiveCtx) (a : NewLlm) : Option ActiveCtx :=
  if a.provider = [] then none
  else
    (llmCreate a.provider a.baseUrl a.apiKey a.model).map fun nl =>
      let sized := ctx.router.bind fun r => r.routes.reverse.find? a.sized
      let nl :=
        match sized with
        | some e => { nl with contextWindowTokens := e.contextWindowTokens, maxOutputTokens := e.maxOutputTokens }
        | none => nl
      { router := ctx.router.map (switchRoutes ctx.provider a)
        provider := some a.provider
        llm := some nl
        chatLanes := ctx.chatLanes.map fun lane => lane.map fun _ => { llm := nl, routed := false } }

/-! ### Keeping the table in step -/

def NewLlm.Denoted (a : NewLlm) (e : Route) : Prop :=
  e.provider = a.provider ∧ e.model.getD [] = a.model.getD [] ∧ e.baseUrl.getD [] = a.baseUrl.getD []

def others (previous : Option Text) (routes : List Route) : List Route :=
  match previous with
  | some provider => routes.eraseP fun e => e.name = provider
  | none => routes

/-- The new configuration is a route, and the other routes are as they were. -/
structure InStep (previous : Option Text) (a : NewLlm) (before after : List Route) : Prop where
  present : ∃ e ∈ after, a.Denoted e
  kept : others previous before <+: after

/-- A route that is found is found again without the automatic one; where none is, no other route
stands under the name of the new provider, or it is the one that would be written. -/
def Separate (previous : Option Text) (a : NewLlm) (before : List Route) : Prop :=
  if before.any a.listed then ∃ e ∈ others previous before, a.Denoted e
  else ∀ e, (others previous before).find? (fun e => e.name = a.provider) = some e → e.replace a.added = e

variable {previous : Option Text} {a : NewLlm} {routes : List Route}

theorem switchRoutes_routes (r : Router) :
    (switchRoutes previous a r).routes =
      if r.routes.any a.listed then others previous r.routes else addRoute a.added (others previous r.routes) := by
  unfold switchRoutes others
  cases previous <;> simp only [Router.remove, Router.addEx] <;> split <;> rfl

theorem denoted_default (e : Route) : a.Denoted e.defaultCapabilities ↔ a.Denoted e := by
  unfold Route.defaultCapabilities NewLlm.Denoted
  split <;> rfl

theorem denoted_added : a.Denoted a.added.route :=
  ⟨rfl, rfl, rfl⟩

theorem denoted_replace (e : Route) : a.Denoted (e.replace a.added) := by
  unfold Route.replace
  simp only
  split
  · exact ⟨rfl, rfl, rfl⟩
  · exact (denoted_default _).mpr ⟨rfl, rfl, rfl⟩

theorem addRoute_denoted (routes : List Route) : ∃ e ∈ addRoute a.added routes, a.Denoted e := by
  induction routes with
  | nil => exact ⟨_, List.mem_cons_self, (denoted_default _).mpr denoted_added⟩
  | cons e routes ih =>
    unfold addRoute
    split
    · exact ⟨_, List.mem_cons_self, denoted_replace e⟩
    · obtain ⟨found, member, denoted⟩ := ih
      exact ⟨found, List.mem_cons_of_mem e member, denoted⟩

theorem prefix_addRoute (added : Added) (routes : List Route) :
    routes <+: addRoute added routes ↔
      ∀ e, routes.find? (fun e => e.name = added.name) = some e → e.replace added = e := by
  induction routes with
  | nil => simp
  | cons e routes ih =>
    unfold addRoute
    split
    · next here =>
      rw [List.find?_cons_of_pos (by simpa using here), List.cons_prefix_cons]
      simp [eq_comm]
    · next other =>
      rw [List.find?_cons_of_neg (by simpa using other), List.cons_prefix_cons, ih]
      simp

theorem switchRoutes_in_step (r : Router) :
    InStep previous a r.routes (switchRoutes previous a r).routes ↔ Separate previous a r.routes := by
  rw [switchRoutes_routes]
  unfold Separate
  split
  · exact ⟨InStep.present, fun present => ⟨present, List.prefix_refl _⟩⟩
  · have written := prefix_addRoute a.added (others previous r.routes)
    exact ⟨fun step => written.mp step.kept, fun free => ⟨addRoute_denoted _, written.mpr free⟩⟩

theorem setLlm_router {ctx ctx' : ActiveCtx} {r : Router} (table : ctx.router = some r)
    (switched : setLlm ctx a = some ctx') : ctx'.router = some (switchRoutes ctx.provider a r) := by
  unfold setLlm at switched
  split at switched
  · cases switched
  · obtain ⟨nl, -, rfl⟩ := Option.map_eq_some_iff.mp switched
    simp [table]

/-- A successful switch leaves the table in step exactly when the route it relies on is not the one
it removes, and the one it writes is nobody else's. -/
theorem set_llm_in_step_iff {ctx ctx' : ActiveCtx} {r : Router} (table : ctx.router = some r)
    (switched : setLlm ctx a = some ctx') :
    (∃ r', ctx'.router = some r' ∧ InStep ctx.provider a r.routes r'.routes) ↔ Separate ctx.provider a r.routes := by
  rw [setLlm_router table switched, ← switchRoutes_in_step]
  constructor
  · rintro ⟨_, ⟨⟩, step⟩
    exact step
  · exact fun step => ⟨_, rfl, step⟩

def autoRoute : Route :=
  Route.defaultCapabilities (Added.route
    { name := ascii "openai", provider := ascii "openai", model := some (ascii "m"), weight := 1 })

def activeCtx : ActiveCtx where
  router := some { routes := [autoRoute] }
  provider := some (ascii "openai")
  llm := none
  chatLanes := []

def otherModel : NewLlm where
  provider := ascii "anthropic"
  baseUrl := none
  model := some (ascii "n")
  apiKey := none

def sameModel : NewLlm where
  provider := ascii "openai"
  baseUrl := none
  model := some (ascii "m")
  apiKey := none

/-- To another provider. -/
theorem set_llm_other :
    ∃ ctx', setLlm activeCtx otherModel = some ctx' ∧
      ((∃ r', ctx'.router = some r' ∧ InStep (some (ascii "openai")) otherModel [autoRoute] r'.routes) ↔
        Separate (some (ascii "openai")) otherModel [autoRoute]) :=
  ⟨_, rfl, @set_llm_in_step_iff otherModel activeCtx _ _ rfl rfl⟩

/-- The active model is activated again: its route is found, removed, and not added. -/
theorem set_llm_drops_active :
    ∃ ctx', setLlm activeCtx sameModel = some ctx' ∧ ctx'.router = some { routes := [] } ∧
      ¬InStep (some (ascii "openai")) sameModel [autoRoute] [] := by
  refine ⟨_, rfl, by rfl, ?_⟩
  rintro ⟨⟨e, member, -⟩, -⟩
  cases member

end CognitiveOs.Llm.Routing
