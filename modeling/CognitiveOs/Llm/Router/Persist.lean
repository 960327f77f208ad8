import CognitiveOs.Foundation.Machine
import CognitiveOs.Infra.Rereads
import CognitiveOs.Llm.Router.Model
import Mathlib.Data.List.Nodup

/-!
# Saved routes

`router_json` and `router_load_file` of `llm/router.c`: the route table as it is saved, and the table
that a new router has after it was loaded.
-/

namespace CognitiveOs.Llm.Routing

open Foundation Infra
open Infra.Cjson

/-! ### Saving -/

def optional (key : Text) (s : Option Text) : List (Text × Json) :=
  match s with
  | some s => [(key, .string s)]
  | none => []

def routeMembers (e : Route) : List (Text × Json) :=
  [(ascii "name", .string e.name), (ascii "provider", .string e.provider)] ++
    (optional (ascii "base_url") e.baseUrl ++ (optional (ascii "model") e.model ++
      (optional (ascii "api_key") e.apiKey ++
        ([(ascii "weight", .number e.weight), (ascii "calls", .number (toDouble e.calls)),
            (ascii "cost_rank", .number e.costRank), (ascii "latency_ms", .number e.latencyMs),
            (ascii "context_window", .number e.contextWindowTokens),
            (ascii "context_source", .string e.contextSource.text),
            (ascii "max_output_tokens", .number e.maxOutputTokens),
            (ascii "context_window_tokens", .number e.contextWindowTokens)] ++
          optional (ascii "caps") e.caps))))

def routerJson (number : Rat → Text) (r : Router) : Text :=
  Json.print number (.array (r.routes.map fun e => .object (routeMembers e)))

/-! ### Loading -/

def numberOf (json : Option Json) : Option Rat :=
  match json with
  | some (.number value) => some value
  | _ => none

def textOf (json : Option Json) : Option Text :=
  match json with
  | some (.string s) => some s
  | _ => none

/-- One object of the file; `nearest` is the double nearest to a numeral. -/
def loadItem (nearest : Rat → Rat) (r : Router) (it : Json) : Router :=
  match it with
  | .object members =>
    let it := Json.object members
    match textOf (it.get? (ascii "name")), textOf (it.get? (ascii "provider")) with
    | some name, some provider =>
      let window :=
        match numberOf (it.get? (ascii "context_window")) with
        | some window => some window
        | none => numberOf (it.get? (ascii "context_window_tokens"))
      let r := r.addEx
        { name, provider
          baseUrl := textOf (it.get? (ascii "base_url"))
          apiKey := textOf (it.get? (ascii "api_key"))
          model := textOf (it.get? (ascii "model"))
          weight := ((numberOf (it.get? (ascii "weight"))).map nearest).getD 1
          costRank := ((numberOf (it.get? (ascii "cost_rank"))).map castInt).getD 0
          latencyMs := ((numberOf (it.get? (ascii "latency_ms"))).map castInt).getD 0
          caps := textOf (it.get? (ascii "caps")) }
      match window with
      | none => r
      | some window =>
        let origin :=
          match textOf (it.get? (ascii "context_source")) with
          | some source => source
          | none => if window ≠ 262144 then ascii "configured" else ascii "fallback"
        r.setModelMetadata name (castInt window)
          (((numberOf (it.get? (ascii "max_output_tokens"))).map castInt).getD 0) (some origin)
    | _, _ => r
  | _ => r

/-- `router_load_file` into a new router; `none` for -1. -/
def routerLoad (nearest : Rat → Rat) (text : Text) : Option Router :=
  match parse text with
  | some (.array items) => some (items.foldl (loadItem nearest) {})
  | _ => none

/-! ### Route tables -/

def Added.copied (a : Added) : Added where
  name := cstr a.name
  provider := cstr a.provider
  baseUrl := a.baseUrl.map cstr
  apiKey := a.apiKey.map cstr
  model := a.model.map cstr
  weight := a.weight
  costRank := (Int32.ofInt a.costRank).toInt
  latencyMs := (Int32.ofInt a.latencyMs).toInt
  caps := a.caps.map cstr

inductive Change where
  | add (a : Added)
  | remove (name : Text)
  | setMetadata (name : Text) (tokens output : Int) (source : Option Text)

def change (r : Router) : Change → Router
  | .add a => r.addEx a.copied
  | .remove name => r.remove name
  | .setMetadata name tokens output source => r.setModelMetadata name tokens output source

def table : Machine Router Change :=
  Machine.ofFun change

/-! ### Round trips -/

def Route.Alike (e e' : Route) : Prop :=
  e' = { e with calls := e'.calls }

def RoundTrips (number : Rat → Text) (nearest : Rat → Rat) (r : Router) : Prop :=
  ∃ r', routerLoad nearest (routerJson number r) = some r' ∧ List.Forall₂ Route.Alike r.routes r'.routes

def Recovered (number : Rat → Text) (nearest : Rat → Rat) (weight : Rat) : Prop :=
  ∃ value, Json.NumberReads number weight (.number value) ∧ nearest value = weight

def Nearest (nearest : Rat → Rat) : Prop :=
  ∀ n : Nat, n < 2 ^ 53 → nearest n = n

def Source.rank : Source → Nat
  | .fallback => 0
  | .catalog => 1
  | .providerMetadata => 2
  | .configured => 3

/-! ### The invariant of a route -/

variable {e : Route}

def Route.known (e : Route) : Option ModelCapability :=
  catalogModelCapabilities e.provider e.baseUrl e.model

structure Route.Own (e : Route) : Prop where
  name : 0 ∉ e.name
  provider : 0 ∉ e.provider
  baseUrl : ∀ s ∈ e.baseUrl, 0 ∉ s
  apiKey : ∀ s ∈ e.apiKey, 0 ∉ s
  model : ∀ s ∈ e.model, 0 ∉ s
  caps : ∀ s ∈ e.caps, 0 ∉ s
  costRank : e.costRank.natAbs < 10 ^ 15
  latencyMs : e.latencyMs.natAbs < 10 ^ 15
  weight : 0 < e.weight

/-- The metadata are in range, `fallback` is for models the catalogue does not know, and an output
limit that the catalogue knows stays known. -/
structure Route.Fine (e : Route) : Prop extends e.Own where
  window : 1024 ≤ e.contextWindowTokens ∧ e.contextWindowTokens ≤ 4000000
  output : 0 ≤ e.maxOutputTokens ∧ e.maxOutputTokens ≤ 4000000
  fallback : e.contextSource = .fallback → e.known = none
  limit : ∀ known ∈ e.known, known.maxOutputTokens ≠ 0 → e.maxOutputTokens ≠ 0

theorem catalog_range {provider : Text} {baseUrl model : Option Text} {known : ModelCapability}
    (found : catalogModelCapabilities provider baseUrl model = some known) :
    known.contextWindow = 1048576 ∧ (known.maxOutputTokens = 0 ∨ known.maxOutputTokens = 393216) := by
  unfold catalogModelCapabilities at found
  split at found
  · split at found
    · cases found
    · split at found
      · cases found
        exact ⟨rfl, .inl rfl⟩
      · dsimp only at found
        split at found
        · cases found
          exact ⟨rfl, .inr rfl⟩
        · cases found
  · cases found

theorem catalog_getD (provider : Text) (baseUrl model : Option Text) :
    catalogModelCapabilities provider baseUrl model =
      catalogModelCapabilities provider (some (baseUrl.getD [])) (some (model.getD [])) := by
  have bare (model : Text) : catalogModelCapabilities provider (some []) (some model) = none := by
    simp [catalogModelCapabilities, slash, ascii]
  have unnamed (baseUrl : Text) : catalogModelCapabilities provider (some baseUrl) (some []) = none := by
    simp [catalogModelCapabilities, ascii]
  cases baseUrl with
  | none => exact (bare _).symm
  | some baseUrl =>
    cases model with
    | none => exact (unnamed baseUrl).symm
    | some model => rfl

theorem int32_small (k : Int) : (Int32.ofInt k).toInt.natAbs < 10 ^ 15 := by
  have low := Int32.le_toInt (Int32.ofInt k)
  have high := Int32.toInt_lt (Int32.ofInt k)
  omega

theorem own_copied (a : Added) : a.copied.route.Own where
  name := not_mem_cstr _
  provider := not_mem_cstr _
  baseUrl s member := by
    obtain ⟨t, _, rfl⟩ := Option.map_eq_some_iff.mp member
    exact not_mem_cstr t
  apiKey s member := by
    obtain ⟨t, _, rfl⟩ := Option.map_eq_some_iff.mp member
    exact not_mem_cstr t
  model s member := by
    obtain ⟨t, _, rfl⟩ := Option.map_eq_some_iff.mp member
    exact not_mem_cstr t
  caps s member := by
    obtain ⟨t, _, rfl⟩ := Option.map_eq_some_iff.mp member
    exact not_mem_cstr t
  costRank := int32_small _
  latencyMs := int32_small _
  weight := by
    show 0 < if a.weight ≤ 0 then (1 : Rat) else a.weight
    split
    · exact one_pos
    · next positive => exact not_le.mp positive

theorem fine_default (own : e.Own) : e.defaultCapabilities.Fine := by
  unfold Route.defaultCapabilities
  split
  · next known found =>
    obtain ⟨window, limit⟩ := catalog_range found
    refine ⟨⟨own.name, own.provider, own.baseUrl, own.apiKey, own.model, own.caps, own.costRank, own.latencyMs,
      own.weight⟩, ?_, ?_, fun source => absurd source (show Source.catalog ≠ .fallback by decide), ?_⟩
    · dsimp only
      omega
    · dsimp only
      omega
    · intro known' same
      have same : some known = some known' := found.symm.trans same
      cases same
      exact fun nonzero => nonzero
  · next unknown =>
    refine ⟨⟨own.name, own.provider, own.baseUrl, own.apiKey, own.model, own.caps, own.costRank, own.latencyMs,
      own.weight⟩, ⟨show (1024 : Int) ≤ 262144 by decide, show (262144 : Int) ≤ 4000000 by decide⟩,
      ⟨le_refl (0 : Int), show (0 : Int) ≤ 4000000 by decide⟩, fun _ => unknown, ?_⟩
    intro known same
    have same : none = some known := unknown.symm.trans same
    cases same

theorem fine_replace (fine : e.Fine) (a : Added) : (e.replace a.copied).Fine := by
  have own := own_copied a
  have updated : Route.Own
      { a.copied.route with
        calls := e.calls
        contextWindowTokens := e.contextWindowTokens
        maxOutputTokens := e.maxOutputTokens
        contextSource := e.contextSource } :=
    ⟨own.name, own.provider, own.baseUrl, own.apiKey, own.model, own.caps, own.costRank, own.latencyMs, own.weight⟩
  unfold Route.replace
  dsimp only
  split
  · next same =>
    simp only [sameString, Bool.and_eq_true, decide_eq_true_eq, Option.getD_some] at same
    obtain ⟨⟨provider, baseUrl⟩, model⟩ := same
    have known : catalogModelCapabilities a.copied.provider a.copied.baseUrl a.copied.model = e.known := by
      rw [Route.known, catalog_getD, ← provider, ← baseUrl, ← model, ← catalog_getD]
    refine ⟨updated, fine.window, fine.output, fun source => ?_, fun k found => ?_⟩
    · exact known.trans (fine.fallback source)
    · exact fine.limit k (known.symm.trans found)
  · exact fine_default updated

theorem fine_setMetadata (fine : e.Fine) {tokens output : Int} (source : Source)
    (window : 1024 ≤ tokens ∧ tokens ≤ 4000000) (range : 0 ≤ output ∧ output ≤ 4000000) :
    (e.setMetadata tokens output source).Fine := by
  unfold Route.setMetadata
  split
  · exact fine
  · next strong =>
    refine ⟨⟨fine.name, fine.provider, fine.baseUrl, fine.apiKey, fine.model, fine.caps, fine.costRank, fine.latencyMs,
      fine.weight⟩, window, ?_, ?_, ?_⟩
    · dsimp only
      split
      · exact range
      · exact fine.output
    · rintro rfl
      -- only a fallback gives way to a fallback
      have there : e.contextSource = .fallback := by
        cases here : e.contextSource <;> simp [Source.weaker, here] at strong ⊢
      exact fine.fallback there
    · intro known found nonzero
      have before := fine.limit known found nonzero
      dsimp only
      split
      · next more => omega
      · exact before

/-! ### The invariant of a table -/

structure Tidy (routes : List Route) : Prop where
  names : (routes.map Route.name).Nodup
  fine : ∀ e ∈ routes, e.Fine

theorem default_name (e : Route) : e.defaultCapabilities.name = e.name := by
  unfold Route.defaultCapabilities
  split <;> rfl

theorem replace_name {a : Added} : (e.replace a).name = a.name := by
  unfold Route.replace
  dsimp only
  split
  · rfl
  · exact default_name _

theorem default_weight (e : Route) : e.defaultCapabilities.weight = e.weight := by
  unfold Route.defaultCapabilities
  split <;> rfl

theorem setMetadata_name (e : Route) (tokens output : Int) (source : Source) :
    (e.setMetadata tokens output source).name = e.name := by
  unfold Route.setMetadata
  split <;> rfl

theorem addRoute_names (a : Added) (routes : List Route) : (addRoute a routes).map Route.name = routes.map Route.name ∨
    a.name ∉ routes.map Route.name ∧ (addRoute a routes).map Route.name = routes.map Route.name ++ [a.name] := by
  induction routes with
  | nil => exact .inr ⟨List.not_mem_nil, by rw [addRoute, List.map_singleton, default_name]; rfl⟩
  | cons e routes ih =>
    rw [addRoute]
    split
    · next same => exact .inl (by rw [List.map_cons, List.map_cons, replace_name, same])
    · next apart =>
      rcases ih with same | ⟨fresh, more⟩
      · exact .inl (by rw [List.map_cons, List.map_cons, same])
      · refine .inr ⟨?_, by rw [List.map_cons, more]; rfl⟩
        rw [List.map_cons, List.mem_cons, not_or]
        exact ⟨Ne.symm apart, fresh⟩

theorem mem_addRoute {a : Added} {routes : List Route} (member : e ∈ addRoute a routes) :
    e ∈ routes ∨ (∃ old ∈ routes, e = old.replace a) ∨ e = a.route.defaultCapabilities := by
  induction routes with
  | nil => exact .inr (.inr (List.mem_singleton.mp member))
  | cons first routes ih =>
    rw [addRoute] at member
    split at member
    · rcases List.mem_cons.mp member with rfl | later
      · exact .inr (.inl ⟨first, List.mem_cons_self, rfl⟩)
      · exact .inl (List.mem_cons_of_mem _ later)
    · rcases List.mem_cons.mp member with rfl | later
      · exact .inl List.mem_cons_self
      · rcases ih later with old | ⟨old, inside, rfl⟩ | new
        · exact .inl (List.mem_cons_of_mem _ old)
        · exact .inr (.inl ⟨old, List.mem_cons_of_mem _ inside, rfl⟩)
        · exact .inr (.inr new)

theorem updateRoute_names {name : Text} {f : Route → Route} (keeps : ∀ e, (f e).name = e.name) (routes : List Route) :
    (updateRoute name f routes).map Route.name = routes.map Route.name := by
  induction routes with
  | nil => rfl
  | cons e routes ih =>
    rw [updateRoute]
    split
    · rw [List.map_cons, List.map_cons, keeps]
    · rw [List.map_cons, List.map_cons, ih]

theorem mem_updateRoute {name : Text} {f : Route → Route} {routes : List Route}
    (member : e ∈ updateRoute name f routes) : e ∈ routes ∨ ∃ old ∈ routes, e = f old := by
  induction routes with
  | nil => cases member
  | cons first routes ih =>
    rw [updateRoute] at member
    split at member
    · rcases List.mem_cons.mp member with rfl | later
      · exact .inr ⟨first, List.mem_cons_self, rfl⟩
      · exact .inl (List.mem_cons_of_mem _ later)
    · rcases List.mem_cons.mp member with rfl | later
      · exact .inl List.mem_cons_self
      · rcases ih later with old | ⟨old, inside, rfl⟩
        · exact .inl (List.mem_cons_of_mem _ old)
        · exact .inr ⟨old, List.mem_cons_of_mem _ inside, rfl⟩

theorem tidy_change {r : Router} (tidy : Tidy r.routes) (c : Change) : Tidy (change r c).routes := by
  cases c with
  | add a =>
    refine ⟨?_, ?_⟩
    · rcases addRoute_names a.copied r.routes with same | ⟨fresh, more⟩
      · exact same ▸ tidy.names
      · show ((addRoute a.copied r.routes).map Route.name).Nodup
        rw [more]
        exact List.nodup_append.mpr ⟨tidy.names, List.nodup_singleton _, fun old member new here same =>
          fresh (List.mem_singleton.mp here ▸ same ▸ member)⟩
    · intro e member
      rcases mem_addRoute member with old | ⟨old, inside, rfl⟩ | rfl
      · exact tidy.fine e old
      · exact fine_replace (tidy.fine old inside) a
      · exact fine_default (own_copied a)
  | remove name =>
    have less : (r.routes.eraseP fun e => e.name = name).Sublist r.routes := List.eraseP_sublist
    exact ⟨tidy.names.sublist (less.map _), fun e member => tidy.fine e (less.subset member)⟩
  | setMetadata name tokens output source =>
    show Tidy (r.setModelMetadata name tokens output source).routes
    unfold Router.setModelMetadata
    split
    · exact tidy
    · next range =>
      refine ⟨?_, ?_⟩
      · dsimp only
        rw [updateRoute_names fun e => setMetadata_name e _ _ _]
        exact tidy.names
      · intro e member
        rcases mem_updateRoute member with old | ⟨old, inside, rfl⟩
        · exact tidy.fine e old
        · exact fine_setMetadata (tidy.fine old inside) _ (by omega) (by omega)

/-! ### What is loaded -/

section Loads

variable {number : Rat → Text} {nearest : Rat → Rat}

theorem routeMembers_get (e : Route) :
    (Json.object (routeMembers e)).get? (ascii "name") = some (.string e.name) ∧
      (Json.object (routeMembers e)).get? (ascii "provider") = some (.string e.provider) ∧
      (Json.object (routeMembers e)).get? (ascii "base_url") = e.baseUrl.map .string ∧
      (Json.object (routeMembers e)).get? (ascii "model") = e.model.map .string ∧
      (Json.object (routeMembers e)).get? (ascii "api_key") = e.apiKey.map .string ∧
      (Json.object (routeMembers e)).get? (ascii "caps") = e.caps.map .string ∧
      (Json.object (routeMembers e)).get? (ascii "weight") = some (.number e.weight) ∧
      (Json.object (routeMembers e)).get? (ascii "cost_rank") = some (.number e.costRank) ∧
      (Json.object (routeMembers e)).get? (ascii "latency_ms") = some (.number e.latencyMs) ∧
      (Json.object (routeMembers e)).get? (ascii "context_window") = some (.number e.contextWindowTokens) ∧
      (Json.object (routeMembers e)).get? (ascii "context_source") = some (.string e.contextSource.text) ∧
      (Json.object (routeMembers e)).get? (ascii "max_output_tokens") = some (.number e.maxOutputTokens) := by
  obtain ⟨name, provider, baseUrl, apiKey, model, weight, calls, costRank, latencyMs, caps, window, output, source⟩ := e
  cases baseUrl <;> cases apiKey <;> cases model <;> cases caps <;>
    exact ⟨rfl, rfl, rfl, rfl, rfl, rfl, rfl, rfl, rfl, rfl, rfl, rfl⟩

variable {height : Nat} {members : List (Text × Json)} {key : Text}

theorem textOf_rereads {members' : List (Text × Json)} (shown : Json.RereadsMembers number height members members')
    {s : Option Text} (found : (Json.object members).get? key = s.map .string) :
    textOf ((Json.object members').get? key) = s := by
  cases s with
  | none =>
    rw [get?_rereads_none shown found]
    rfl
  | some s =>
    obtain ⟨json, here, reads⟩ := get?_rereads shown found
    cases reads
    rw [here, textOf]

theorem castInt_rereads (prints : PrintsIntegers number) {members' : List (Text × Json)}
    (shown : Json.RereadsMembers number height members members') {k : Int} (small : k.natAbs < 10 ^ 15)
    (found : (Json.object members).get? key = some (.number k)) :
    numberOf ((Json.object members').get? key) = some (k : Rat) := by
  obtain ⟨json, here, reads⟩ := get?_rereads shown found
  rw [here, prints.rereads_int small reads, numberOf]

def loadedWeight (nearest : Rat → Rat) (json : Json) : Rat :=
  let weight := ((numberOf (some json)).map nearest).getD 1
  if weight ≤ 0 then 1 else weight

variable {e : Route}

theorem setMetadata_default (fine : e.Fine) {own : Route} (provider : own.provider = e.provider)
    (baseUrl : own.baseUrl = e.baseUrl) (model : own.model = e.model) :
    own.defaultCapabilities.setMetadata e.contextWindowTokens e.maxOutputTokens e.contextSource =
      { own with
        contextWindowTokens := e.contextWindowTokens
        maxOutputTokens := e.maxOutputTokens
        contextSource := e.contextSource } := by
  unfold Route.defaultCapabilities
  rw [provider, baseUrl, model]
  cases found : catalogModelCapabilities e.provider e.baseUrl e.model with
  | none =>
    have strong : e.contextSource.weaker .fallback = false := by cases e.contextSource <;> rfl
    simp [Route.setMetadata, strong]
  | some known =>
    have other : e.contextSource ≠ .fallback := fun same => by
      have none := fine.fallback same
      rw [Route.known, found] at none
      cases none
    have strong : e.contextSource.weaker .catalog = false := by
      cases here : e.contextSource with
      | fallback => exact absurd here other
      | catalog => rfl
      | configured => rfl
      | providerMetadata => rfl
    have limit : 0 < e.maxOutputTokens ∨ known.maxOutputTokens = 0 := by
      by_cases zero : known.maxOutputTokens = 0
      · exact .inr zero
      · have nonzero := fine.limit known found zero
        have positive := fine.output.1
        exact .inl (by omega)
    simp [Route.setMetadata, strong, limit]

variable {routes : List Route}

theorem addRoute_fresh {a : Added} (fresh : a.name ∉ routes.map Route.name) :
    addRoute a routes = routes ++ [a.route.defaultCapabilities] := by
  induction routes with
  | nil => rfl
  | cons e routes ih =>
    rw [List.map_cons, List.mem_cons, not_or] at fresh
    rw [addRoute, if_neg (Ne.symm fresh.1), ih fresh.2]
    rfl

theorem updateRoute_last {name : Text} {f : Route → Route} (fresh : name ∉ routes.map Route.name)
    (same : e.name = name) : updateRoute name f (routes ++ [e]) = routes ++ [f e] := by
  induction routes with
  | nil => exact if_pos same
  | cons first routes ih =>
    rw [List.map_cons, List.mem_cons, not_or] at fresh
    rw [List.cons_append, updateRoute, if_neg (Ne.symm fresh.1), ih fresh.2]
    rfl

theorem added_with_metadata (fine : e.Fine) {a : Added} (fresh : a.name ∉ routes.map Route.name)
    (name : e.name = a.name) (provider : a.provider = e.provider) (baseUrl : a.baseUrl = e.baseUrl)
    (model : a.model = e.model) :
    updateRoute e.name (·.setMetadata e.contextWindowTokens e.maxOutputTokens e.contextSource) (addRoute a routes) =
      routes ++
        [{ a.route with
            contextWindowTokens := e.contextWindowTokens
            maxOutputTokens := e.maxOutputTokens
            contextSource := e.contextSource }] := by
  rw [addRoute_fresh fresh, name, updateRoute_last fresh (default_name a.route)]
  exact congrArg (fun e' => routes ++ [e']) (setMetadata_default fine provider baseUrl model)

theorem loadItem_rereads (prints : PrintsIntegers number) (fine : e.Fine) {r : Router}
    (fresh : e.name ∉ r.routes.map Route.name) {it : Json}
    (shown : Json.Rereads number height (.object (routeMembers e)) it) :
    ∃ json, Json.NumberReads number e.weight json ∧ (loadItem nearest r it).routes =
      r.routes ++ [{ e with calls := 0, weight := loadedWeight nearest json }] := by
  cases shown with
  | @object height' _ members' shown =>
    obtain ⟨name, provider, baseUrl, model, apiKey, caps, weight, costRank, latencyMs, window, source, output⟩ :=
      routeMembers_get e
    have isName := textOf_rereads shown (s := some e.name) name
    have isProvider := textOf_rereads shown (s := some e.provider) provider
    have isSource := textOf_rereads shown (s := some e.contextSource.text) source
    have isUrl := textOf_rereads shown baseUrl
    have isModel := textOf_rereads shown model
    have isKey := textOf_rereads shown apiKey
    have isCaps := textOf_rereads shown caps
    have inRange := fine.window
    have inRange' := fine.output
    have isCost := castInt_rereads prints shown fine.costRank costRank
    have isLatency := castInt_rereads prints shown fine.latencyMs latencyMs
    have isWindow := castInt_rereads prints shown (by omega) window
    have isOutput := castInt_rereads prints shown (by omega) output
    obtain ⟨json, isWeight, reads⟩ := get?_rereads shown weight
    cases reads with
    | number reads =>
      refine ⟨json, reads, ?_⟩
      have range : ¬ (e.contextWindowTokens < 1024 ∨ 4000000 < e.contextWindowTokens ∨ e.maxOutputTokens < 0 ∨
          4000000 < e.maxOutputTokens) := by omega
      unfold loadItem
      simp only [isName, isProvider, isSource, isUrl, isModel, isKey, isCaps, isCost, isLatency, isWindow, isOutput,
        isWeight, Option.map_some, Option.getD_some, castInt_intCast]
      unfold Router.setModelMetadata Router.addEx
      rw [if_neg range]
      dsimp only
      rw [Option.getD_some, Source.ofText_text]
      exact added_with_metadata fine fresh rfl rfl rfl rfl

def Loaded (number : Rat → Text) (nearest : Rat → Rat) (e e' : Route) : Prop :=
  ∃ json, Json.NumberReads number e.weight json ∧ e' = { e with calls := 0, weight := loadedWeight nearest json }

theorem foldl_loadItem (prints : PrintsIntegers number) {height : Nat} {routes : List Route} {r : Router}
    (tidy : Tidy (r.routes ++ routes)) {items : List Json}
    (shown : List.Forall₂ (Json.Rereads number height) (routes.map fun e => .object (routeMembers e)) items) :
    ∃ loaded, (items.foldl (loadItem nearest) r).routes = r.routes ++ loaded ∧
      List.Forall₂ (Loaded number nearest) routes loaded := by
  suffices names : ∀ {r : Router}, (r.routes.map Route.name ++ routes.map Route.name).Nodup →
      ∃ loaded, (items.foldl (loadItem nearest) r).routes = r.routes ++ loaded ∧
        List.Forall₂ (Loaded number nearest) routes loaded by
    have distinct := tidy.names
    rw [List.map_append] at distinct
    exact names distinct
  have fine : ∀ e ∈ routes, e.Fine := fun e member => tidy.fine e (List.mem_append_right _ member)
  clear tidy r
  induction routes generalizing items with
  | nil =>
    cases shown
    intro r _
    exact ⟨[], (List.append_nil _).symm, .nil⟩
  | cons e routes ih =>
    cases shown with
    | @cons _ it _ items one rest =>
      intro r distinct
      have fresh : e.name ∉ r.routes.map Route.name := fun member =>
        (List.nodup_append.mp distinct).2.2 e.name member e.name List.mem_cons_self rfl
      obtain ⟨json, reads, first⟩ := loadItem_rereads prints (fine e List.mem_cons_self) fresh one
      have later : ((loadItem nearest r it).routes.map Route.name ++ routes.map Route.name).Nodup := by
        rw [first]
        simpa using distinct
      obtain ⟨loaded, whole, each⟩ := ih rest (fun e member => fine e (List.mem_cons_of_mem _ member)) later
      refine ⟨_ :: loaded, ?_, .cons ⟨json, reads, rfl⟩ each⟩
      rw [List.foldl_cons, whole, first, List.append_assoc]
      rfl

/-! ### The file -/

theorem within_optional (clean : 0 ∉ key) {s : Option Text} (text : ∀ t ∈ s, 0 ∉ t)
    (rest : WithinMembers height members) : WithinMembers height (optional key s ++ members) := by
  cases s with
  | none => exact rest
  | some s => exact .cons clean (.string (text s rfl)) rest

theorem source_clean (source : Source) : 0 ∉ source.text := by
  cases source <;> decide

theorem within_route (fine : e.Fine) : Within (height + 1) (.object (routeMembers e)) := by
  have caps : WithinMembers height (optional (ascii "caps") e.caps) := by
    have alone : WithinMembers height (optional (ascii "caps") e.caps ++ []) :=
      within_optional (by decide) fine.caps .nil
    rwa [List.append_nil] at alone
  apply Within.object
  refine .cons (by decide) (.string fine.name) (.cons (by decide) (.string fine.provider) ?_)
  refine within_optional (by decide) fine.baseUrl (within_optional (by decide) fine.model
    (within_optional (by decide) fine.apiKey ?_))
  refine .cons (by decide) (.number _) (.cons (by decide) (.number _) (.cons (by decide) (.number _)
    (.cons (by decide) (.number _) (.cons (by decide) (.number _)
      (.cons (by decide) (.string (source_clean e.contextSource)) (.cons (by decide) (.number _)
        (.cons (by decide) (.number _) caps)))))))

theorem routerLoad_json (prints : PrintsIntegers number) {r : Router} (tidy : Tidy r.routes) :
    ∃ r', routerLoad nearest (routerJson number r) = some r' ∧
      List.Forall₂ (Loaded number nearest) r.routes r'.routes := by
  have within : Within (nestingLimit - 2 + 1 + 1) (.array (r.routes.map fun e => .object (routeMembers e))) := by
    apply Within.array
    apply within_items
    intro item member
    obtain ⟨e, inside, rfl⟩ := List.mem_map.mp member
    exact within_route (tidy.fine e inside)
  obtain ⟨json, shown⟩ := within.rereads prints.reads
  have read : parse (routerJson number r) = some json := by
    rw [routerJson, parse, parseWithEnd_print number shown (by decide)]
    rfl
  cases shown with
  | array items =>
    have all : Tidy (Router.routes {} ++ r.routes) := tidy
    obtain ⟨loaded, whole, each⟩ := @foldl_loadItem number nearest prints _ _ _ all _ (forall₂_rereads items)
    refine ⟨_, by rw [routerLoad, read], ?_⟩
    rw [whole]
    exact each

theorem loadedWeight_iff (prints : PrintsIntegers number) (doubles : Nearest nearest) {weight : Rat}
    (positive : 0 < weight) {json : Json} (reads : Json.NumberReads number weight json) :
    loadedWeight nearest json = weight ↔ Recovered number nearest weight := by
  have one : number 1 = decimal 1 := by exact_mod_cast prints.integers 1 (by decide)
  constructor
  · intro same
    cases reads with
    | @number again bytes start read printed =>
      refine ⟨again, .number bytes start read printed, ?_⟩
      unfold loadedWeight numberOf at same
      simp only [Option.map_some, Option.getD_some] at same
      split at same
      · -- the default is the weight, and 1 is read back as 1
        subst same
        rw [one, show decimal 1 = decimal ((1 : Nat)) from rfl, strtod_decimal] at read
        cases read
        exact doubles 1 (by decide)
      · exact same
    | null text =>
      have default : loadedWeight nearest .null = 1 := by
        unfold loadedWeight numberOf
        simp
      rw [default] at same
      subst same
      rw [one] at text
      exact absurd text (by decide)
  · rintro ⟨value, reads', same⟩
    rw [numberReads_unique reads reads']
    unfold loadedWeight numberOf
    simp only [Option.map_some, Option.getD_some, same]
    exact if_neg (not_le.mpr positive)

theorem forall₂_iff {α β : Type} {P R : α → β → Prop} {Q : α → Prop} {l : List α} {l' : List β}
    (all : List.Forall₂ P l l') (each : ∀ a b, P a b → (R a b ↔ Q a)) : List.Forall₂ R l l' ↔ ∀ a ∈ l, Q a := by
  induction all with
  | nil => simp
  | cons first _ ih => rw [List.forall₂_cons, List.forall_mem_cons, each _ _ first, ih]

theorem roundTrips_iff (prints : PrintsIntegers number) (doubles : Nearest nearest) {r : Router}
    (tidy : Tidy r.routes) : RoundTrips number nearest r ↔ ∀ e ∈ r.routes, Recovered number nearest e.weight := by
  obtain ⟨r', loads, loaded⟩ := @routerLoad_json number nearest prints r tidy
  have fine : List.Forall₂ (fun e e' => e.Fine ∧ Loaded number nearest e e') r.routes r'.routes :=
    (List.forall₂_and_left _ _).mpr ⟨tidy.fine, loaded⟩
  have each {e e' : Route} (both : e.Fine ∧ Loaded number nearest e e') :
      e.Alike e' ↔ Recovered number nearest e.weight := by
    obtain ⟨fine, json, reads, rfl⟩ := both
    rw [← loadedWeight_iff prints doubles fine.weight reads]
    constructor
    · exact fun alike => congrArg Route.weight alike
    · intro same
      rw [Route.Alike, same]
  have whole : List.Forall₂ Route.Alike r.routes r'.routes ↔ ∀ e ∈ r.routes, Recovered number nearest e.weight :=
    forall₂_iff fine fun _ _ => each
  constructor
  · rintro ⟨r'', loads', alike⟩
    rw [loads] at loads'
    cases loads'
    exact whole.mp alike
  · exact fun recovered => ⟨r', loads, whole.mpr recovered⟩

end Loads

/-! ### Runs -/

theorem setMetadata_rank (e : Route) (tokens output : Int) (source : Source) :
    e.contextSource.rank ≤ (e.setMetadata tokens output source).contextSource.rank := by
  unfold Route.setMetadata
  split
  · exact le_refl _
  · next strong =>
    cases source <;> cases here : e.contextSource <;> simp [Source.weaker, Source.rank, here] at strong ⊢

theorem updateRoute_rank (name : Text) (tokens output : Int) (source : Source) (routes : List Route) :
    List.Forall₂ (fun e e' => e.contextSource.rank ≤ e'.contextSource.rank) routes
      (updateRoute name (·.setMetadata tokens output source) routes) := by
  induction routes with
  | nil => exact .nil
  | cons e routes ih =>
    rw [updateRoute]
    split
    · exact .cons (setMetadata_rank e tokens output source) (List.forall₂_same.mpr fun _ _ => le_refl _)
    · exact .cons (le_refl _) ih

theorem setModelMetadata_rank (r : Router) (name : Text) (tokens output : Int) (source : Option Text) :
    List.Forall₂ (fun e e' => e.contextSource.rank ≤ e'.contextSource.rank) r.routes
      (r.setModelMetadata name tokens output source).routes := by
  unfold Router.setModelMetadata
  split
  · exact List.forall₂_same.mpr fun _ _ => le_refl _
  · exact updateRoute_rank _ _ _ _ _

theorem tidy_of_run {changes : List Change} {r : Router} (run : table.Run {} changes r) : Tidy r.routes := by
  refine @Machine.Run.invariant _ _ _ (fun r => Tidy r.routes) ?_ _ _ _ run ?_
  · rintro r c _ tidy rfl
    exact tidy_change tidy c
  · exact ⟨List.nodup_nil, fun e member => absurd member List.not_mem_nil⟩

/-- After any run a new router that loads what was saved has the same routes just when every weight is
read back as it was, and metadata never displace those of a stronger source. -/
theorem saved_routes_iff {number : Rat → Text} {nearest : Rat → Rat} (prints : PrintsIntegers number)
    (doubles : Nearest nearest) {changes : List Change} {r : Router} (run : table.Run {} changes r) :
    (RoundTrips number nearest r ↔ ∀ e ∈ r.routes, Recovered number nearest e.weight) ∧
      ∀ name tokens output source,
        List.Forall₂ (fun e e' => e.contextSource.rank ≤ e'.contextSource.rank) r.routes
          (r.setModelMetadata name tokens output source).routes :=
  ⟨roundTrips_iff prints doubles (tidy_of_run run), setModelMetadata_rank r⟩

/-! ### A weight that is not recovered -/

def sum : Rat :=
  5404319552844596 / 2 ^ 54

/-- Numbers are printed with fifteen digits where `compare_double` is content with them: this one is
`0.3`. Other numbers than integers are not used. -/
def fifteenDigits (value : Rat) : Text :=
  if value = sum ∨ value = 3 / 10 then ascii "0.3" else integerText value

def nearestDouble (value : Rat) : Rat :=
  if value = 3 / 10 then 5404319552844595 / 2 ^ 54 else value

theorem not_integer {k : Int} : (k : Rat) ≠ sum ∧ (k : Rat) ≠ 3 / 10 := by
  constructor
  · intro same
    have whole : (4503599627370496 * k : Rat) = 1351079888211149 := by
      rw [same, sum]
      norm_num
    have whole : 4503599627370496 * k = 1351079888211149 := by exact_mod_cast whole
    omega
  · intro same
    have whole : (10 * k : Rat) = 3 := by
      rw [same]
      norm_num
    have whole : 10 * k = 3 := by exact_mod_cast whole
    omega

theorem fifteenDigits_intCast (k : Int) : fifteenDigits k = integerText k :=
  if_neg fun same => same.elim not_integer.1 not_integer.2

theorem ascii_three_tenths : ascii "0.3" = [48, 46, 51] := by
  simp [ascii]

theorem strtod_three_tenths : strtod (ascii "0.3") = some (3 / 10, []) := by
  rw [ascii_three_tenths]
  simp [strtod, scanExponent, isDigit, digitsValue]
  norm_num

theorem printsIntegers_fifteenDigits : PrintsIntegers fifteenDigits where
  reads value := by
    by_cases special : value = sum ∨ value = 3 / 10
    · have text : fifteenDigits value = [48, 46, 51] := (if_pos special).trans ascii_three_tenths
      have again : fifteenDigits (3 / 10) = [48, 46, 51] := (if_pos (.inr rfl)).trans ascii_three_tenths
      have read : strtod [48, 46, 51] = some (3 / 10, []) := ascii_three_tenths ▸ strtod_three_tenths
      refine ⟨.number (3 / 10), .number ?_ ?_ ?_ (again.trans text.symm)⟩
      · intro b member
        rw [text, List.mem_cons, List.mem_cons, List.mem_singleton] at member
        obtain rfl | rfl | rfl := member <;> rfl
      · exact ⟨48, [46, 51], text, .inr rfl⟩
      · rw [text]
        exact read
    · have text : fifteenDigits value = integerText value := if_neg special
      obtain ⟨json, shown⟩ := printsIntegers_integerText.reads value
      cases shown with
      | @number again bytes start read same =>
        refine ⟨_, .number (text ▸ bytes) (text ▸ start) (text ▸ read) ?_⟩
        have plain : ¬ (again = sum ∨ again = 3 / 10) := by
          intro fraction
          have other : integerText again = ascii "null" := by
            unfold integerText
            apply if_neg
            intro whole
            have cast : (again.num : Rat) = again := Rat.coe_int_num_of_den_eq_one whole
            rw [← cast] at fraction
            exact fraction.elim not_integer.1 not_integer.2
          rw [← same, other] at bytes
          exact absurd (bytes 110 (by decide)) (by decide)
        rw [text, fifteenDigits, if_neg plain]
        exact same
      | null other => exact ⟨.null, .null (text.trans other)⟩
  integers n small := by
    have same := fifteenDigits_intCast n
    rw [Int.cast_natCast] at same
    exact same.trans (printsIntegers_integerText.integers n small)
  negatives n positive small := by
    have same := fifteenDigits_intCast (-n)
    rw [Int.cast_neg, Int.cast_natCast] at same
    exact same.trans (printsIntegers_integerText.negatives n positive small)

theorem nearest_nearestDouble : Nearest nearestDouble := by
  intro n _
  apply if_neg
  intro same
  exact (@not_integer n).2 (by rw [Int.cast_natCast]; exact same)

def summed : Added where
  name := ascii "a"
  provider := ascii "mock"
  weight := sum

/-- The weight 0.1 + 0.2 is saved as 0.3, and another double is loaded. -/
theorem weight_lost : ∃ r : Router, table.Run {} [.add summed] r ∧ ¬ RoundTrips fifteenDigits nearestDouble r := by
  have run : table.Run {} [.add summed] (change {} (.add summed)) := Machine.Run.single rfl
  refine ⟨_, run, fun trips => ?_⟩
  have recovered := (roundTrips_iff printsIntegers_fifteenDigits nearest_nearestDouble (tidy_of_run run)).mp trips
  obtain ⟨value, reads, same⟩ := recovered _ (List.mem_singleton_self _)
  have positive : ¬ sum ≤ 0 := by norm_num [sum]
  have weight : summed.copied.route.defaultCapabilities.weight = sum := by
    rw [default_weight]
    exact if_neg positive
  rw [weight] at reads same
  have text : fifteenDigits sum = ascii "0.3" := if_pos (.inl rfl)
  cases reads with
  | number _ _ read _ =>
    rw [text, strtod_three_tenths] at read
    cases read
    rw [nearestDouble, if_pos rfl, sum] at same
    norm_num at same

/-- The table with this route. -/
theorem saved_routes_summed : ∃ r : Router, table.Run {} [.add summed] r ∧
    (RoundTrips fifteenDigits nearestDouble r ↔ ∀ e ∈ r.routes, Recovered fifteenDigits nearestDouble e.weight) ∧
      ∀ name tokens output source,
        List.Forall₂ (fun e e' => e.contextSource.rank ≤ e'.contextSource.rank) r.routes
          (r.setModelMetadata name tokens output source).routes :=
  have run : table.Run {} [.add summed] (change {} (.add summed)) := Machine.Run.single rfl
  ⟨_, run, saved_routes_iff printsIntegers_fifteenDigits nearest_nearestDouble run⟩

end CognitiveOs.Llm.Routing
