import CognitiveOs.Infra.Text
import Mathlib.Data.Rat.Floor

/-!
# The model router

The route table of `llm/router.c`, how routes are added, replaced, removed and given metadata, and
how the next route is picked. A weight is the value of a finite double.
-/

namespace CognitiveOs.Llm.Routing

open Infra

/-! ### Metadata -/

/-- `catalog_model_capability`. -/
structure ModelCapability where
  contextWindow : Int
  maxOutputTokens : Int := 0
  deriving DecidableEq

def catalogModelCapabilities (provider : Text) (baseUrl model : Option Text) : Option ModelCapability :=
  match baseUrl, model with
  | some baseUrl, some model =>
    if provider ≠ ascii "openai" then none
    else if (baseUrl = ascii "https://integrate.api.nvidia.com/v1" ∨
        baseUrl = ascii "https://integrate.api.nvidia.com/v1/") ∧ model = ascii "z-ai/glm-5.3-flash" then
      some { contextWindow := 1048576 }
    else
      let bases := [ascii "https://ark.cn-beijing.volces.com/api/plan/v3",
        ascii "https://ark.cn-beijing.volces.com/api/v3"]
      let endpoint := bases.any fun base => baseUrl = base || baseUrl = base ++ [slash]
      let ids := [ascii "deepseek-v4.1-flash", ascii "deepseek-v4-1-flash-261017", ascii "deepseek-v4-1-flash-260910"]
      if endpoint && ids.contains model then some { contextWindow := 1048576, maxOutputTokens := 393216 } else none
  | _, _ => none

/-- The values of `context_source`. -/
inductive Source where
  | fallback | catalog | configured | providerMetadata
  deriving DecidableEq, Repr

def Source.text : Source → Text
  | .fallback => ascii "fallback"
  | .catalog => ascii "catalog"
  | .configured => ascii "configured"
  | .providerMetadata => ascii "provider_metadata"

/-- The source a text names; any other text is taken for `configured`. -/
def Source.ofText (text : Text) : Source :=
  if text = ascii "provider_metadata" then .providerMetadata
  else if text = ascii "catalog" then .catalog
  else if text = ascii "fallback" then .fallback
  else .configured

@[simp] theorem Source.ofText_text (source : Source) : Source.ofText source.text = source := by
  cases source <;> decide

/-- `weaker` of `router_set_model_metadata`: the new source may not replace the one there is. -/
def Source.weaker (source there : Source) : Bool :=
  source = .fallback && there ≠ .fallback || source ≠ .configured && there = .configured ||
    source = .catalog && there = .providerMetadata

/-! ### Routes -/

structure Route where
  name : Text
  provider : Text
  baseUrl : Option Text
  apiKey : Option Text
  model : Option Text
  weight : Rat
  calls : Int := 0
  costRank : Int
  latencyMs : Int
  caps : Option Text
  contextWindowTokens : Int := 0
  maxOutputTokens : Int := 0
  contextSource : Source := .fallback
  deriving DecidableEq

/-- `route_default_capabilities`. -/
def Route.defaultCapabilities (e : Route) : Route :=
  match catalogModelCapabilities e.provider e.baseUrl e.model with
  | some known =>
    { e with
      contextWindowTokens := known.contextWindow
      maxOutputTokens := known.maxOutputTokens
      contextSource := .catalog }
  | none => { e with contextWindowTokens := 262144, maxOutputTokens := 0, contextSource := .fallback }

def sameString (a b : Option Text) : Bool :=
  a.getD [] = b.getD []

/-- `struct router`; the cursors are `size_t`. -/
structure Router where
  routes : List Route := []
  cursor : Nat := 0
  tieCursor : Nat := 0
  policy : Text := ascii "round_robin"

/-- The arguments of `router_add_ex`. -/
structure Added where
  name : Text
  provider : Text
  baseUrl : Option Text := none
  apiKey : Option Text := none
  model : Option Text := none
  weight : Rat
  costRank : Int := 0
  latencyMs : Int := 0
  caps : Option Text := none
  deriving DecidableEq

def Added.route (a : Added) : Route where
  name := a.name
  provider := a.provider
  baseUrl := a.baseUrl
  apiKey := a.apiKey
  model := a.model
  weight := if a.weight ≤ 0 then 1 else a.weight
  costRank := a.costRank
  latencyMs := a.latencyMs
  caps := a.caps

/-- An existing route takes the new fields, and keeps its metadata if it denotes the same model. -/
def Route.replace (e : Route) (a : Added) : Route :=
  let same := sameString e.provider a.provider && sameString e.baseUrl a.baseUrl && sameString e.model a.model
  let updated :=
    { a.route with
      calls := e.calls
      contextWindowTokens := e.contextWindowTokens
      maxOutputTokens := e.maxOutputTokens
      contextSource := e.contextSource }
  if same then updated else updated.defaultCapabilities

/-- `router_add_ex`: the first route of the name is replaced, else one is appended. -/
def addRoute (a : Added) : List Route → List Route
  | [] => [a.route.defaultCapabilities]
  | e :: routes => if e.name = a.name then e.replace a :: routes else e :: addRoute a routes

def Router.addEx (r : Router) (a : Added) : Router :=
  { r with routes := addRoute a r.routes }

/-- What `router_set_model_metadata` does to the route it finds. -/
def Route.setMetadata (e : Route) (tokens output : Int) (source : Source) : Route :=
  if source.weaker e.contextSource then e
  else
    { e with
      contextWindowTokens := tokens
      maxOutputTokens := if 0 < output ∨ e.maxOutputTokens = 0 then output else e.maxOutputTokens
      contextSource := source }

def updateRoute (name : Text) (f : Route → Route) : List Route → List Route
  | [] => []
  | e :: routes => if e.name = name then f e :: routes else e :: updateRoute name f routes

/-- `router_set_model_metadata`. -/
def Router.setModelMetadata (r : Router) (name : Text) (tokens output : Int) (source : Option Text) : Router :=
  if tokens < 1024 ∨ 4000000 < tokens ∨ output < 0 ∨ 4000000 < output then r
  else
    let source := Source.ofText (source.getD (ascii "configured"))
    { r with routes := updateRoute name (·.setMetadata tokens output source) r.routes }

/-- `router_remove`. -/
def Router.remove (r : Router) (name : Text) : Router :=
  { r with routes := r.routes.eraseP fun e => e.name = name }

/-- `router_set_policy`: `false` where the source returns -1. -/
def Router.setPolicy (r : Router) (policy : Option Text) : Bool × Router :=
  let p := if policy.getD [] = [] then ascii "round_robin" else policy.getD []
  if p = ascii "round_robin" ∨ p = ascii "cost" ∨ p = ascii "latency" ∨ (ascii "capability:").isPrefixOf p then
    (true, { r with policy := p })
  else (false, r)

/-! ### Picking -/

def tags (caps : Text) : List Text :=
  let parts := caps.splitOn 44
  if parts.getLast? = some [] then parts.dropLast else parts

/-- `route_has_cap`. -/
def Route.hasCap (e : Route) (tag : Text) : Bool :=
  match e.caps with
  | some caps => (tags caps).contains tag
  | none => false

/-- `(size_t)e->weight` of a weight from 1 on, else 1. -/
def Route.step (e : Route) : Nat :=
  if 1 ≤ e.weight then e.weight.floor.toNat % 2 ^ 64 else 1

def Route.metric (latency : Bool) (e : Route) : Int :=
  if latency then e.latencyMs else e.costRank

def best (metric : Nat → Int) (candidates : List Nat) (first : Nat) : Nat :=
  candidates.foldl
    (fun best i => if 0 < metric i ∧ (metric best ≤ 0 ∨ metric i < metric best) then i else best) first

/-- `pick_locked`: the index of the route, and the router after it. -/
def pickLocked (r : Router) : Option (Nat × Router) :=
  let count := r.routes.length
  if count = 0 then none
  else
    let isLatency := decide (r.policy = ascii "latency")
    let isCapability := (ascii "capability:").isPrefixOf r.policy
    if r.policy ≠ ascii "cost" ∧ isLatency = false ∧ isCapability = false then
      let at' := r.cursor % count
      let step := (r.routes[at']?.map Route.step).getD 1
      some (at', { r with cursor := (r.cursor + step) % 2 ^ 64 % count })
    else
      let everyone := (List.range count).take 64
      let tag := r.policy.drop 11
      let carriers := ((List.range count).filter fun i => r.routes[i]?.any (·.hasCap tag)).take 64
      if isCapability ∧ carriers = [] then
        -- nobody carries the tag
        some (r.cursor % everyone.length, { r with cursor := (r.cursor + 1) % 2 ^ 64 })
      else
        let candidates := if isCapability then carriers else everyone
        let metric := fun i => (r.routes[i]?.map (Route.metric isLatency)).getD 0
        let found := best metric candidates.tail (candidates.headD 0)
        let ties := candidates.filter fun i => metric i = metric found
        if 0 < metric found ∧ 1 < ties.length then
          let next := (r.tieCursor + 1) % 2 ^ 64 % ties.length
          some ((ties[next]?).getD found, { r with tieCursor := next })
        else some (found, r)

/-- `router_pick`: the pick is counted. -/
def Router.pick (r : Router) : Option (Nat × Router) :=
  (pickLocked r).map fun (i, r) =>
    (i, { r with routes := r.routes.modify i fun e => { e with calls := e.calls + 1 } })

end CognitiveOs.Llm.Routing
