import CognitiveOs.Infra.Text
import Mathlib.Data.List.MinMax
import Mathlib.Data.Prod.Lex

/-!
# Routes

The route table of `api/http_server.c` and the scan that selects the route of a request.
-/

namespace CognitiveOs.Api.HttpServer

open Infra

/-- A `route`; its handler is the function with its data and whether it runs concurrently. -/
structure Route (H : Type) where
  method : Text
  pathPrefix : Text
  handler : H

structure Request where
  method : Text
  path : Text

inductive Outcome (H : Type) where
  | notFound
  | methodNotAllowed
  | call (handler : H)
  deriving DecidableEq

variable {H : Type}

/-- `http_server_route`, which succeeds in growing the table. -/
def httpServerRoute (routes : List (Route H)) (method pathPrefix : Option Text) (handler : H) : List (Route H) :=
  routes ++ [⟨snprintf 16 (method.getD (ascii "*")), snprintf 256 (pathPrefix.getD (ascii "/")), handler⟩]

def Route.catchAll (r : Route H) : Bool :=
  r.pathPrefix = ascii "/"

/-- The `startswith` of the scan. -/
def Route.covers (r : Route H) (req : Request) : Bool :=
  r.pathPrefix.isPrefixOf req.path

/-- `meth`. -/
def Route.allows (r : Route H) (req : Request) : Bool :=
  r.method.head? = some 42 || r.method = req.method

def better (req : Request) (best : Option (Route H)) (r : Route H) : Option (Route H) :=
  if r.catchAll then best
  else if !r.covers req then best
  else
    match best with
    | none => some r
    | some b =>
      if r.allows req && !b.allows req then some r
      else if r.allows req = b.allows req ∧ b.pathPrefix.length < r.pathPrefix.length then some r
      else some b

def selectRoute (routes : List (Route H)) (req : Request) : Option (Route H) :=
  match routes.foldl (better req) none with
  | some best => some best
  | none => if (ascii "/v1").isPrefixOf req.path then none else routes.find? Route.catchAll

/-- The dispatch of `handle_conn_buf`, while the server is not stopped. -/
def dispatch (routes : List (Route H)) (req : Request) : Outcome H :=
  match selectRoute routes req with
  | none => .notFound
  | some best => if best.allows req then .call best.handler else .methodNotAllowed

/-! ### The scan -/

def Route.candidate (req : Request) (r : Route H) : Bool :=
  !r.catchAll && r.covers req

def Route.rank (req : Request) (r : Route H) : Bool ×ₗ Nat :=
  toLex (r.allows req, r.pathPrefix.length)

variable {routes : List (Route H)} {req : Request}

variable {r : Route H}

theorem better_candidate (best : Option (Route H)) (candidate : r.candidate req = true) :
    better req best r = List.argAux (fun b c => c.rank req < b.rank req) best r := by
  rw [Route.candidate, Bool.and_eq_true, Bool.not_eq_true'] at candidate
  obtain ⟨specific, covers⟩ := candidate
  cases best with
  | none => simp [better, specific, covers, List.argAux]
  | some b =>
    simp only [better, specific, covers, List.argAux, Route.rank, Prod.Lex.toLex_lt_toLex]
    cases r.allows req <;> cases b.allows req <;> simp

theorem scan_eq (routes : List (Route H)) (req : Request) :
    routes.foldl (better req) none = (routes.filter (Route.candidate req)).argmax (Route.rank req) := by
  rw [List.argmax]
  generalize (none : Option (Route H)) = best
  induction routes generalizing best with
  | nil => rfl
  | cons r rest ih =>
    rw [List.foldl_cons, ih]
    by_cases candidate : r.candidate req
    · rw [List.filter_cons_of_pos candidate, List.foldl_cons, better_candidate best candidate]
    · rw [List.filter_cons_of_neg candidate]
      congr 1
      rw [Route.candidate, Bool.and_eq_true, Bool.not_eq_true', not_and] at candidate
      unfold better
      split
      · rfl
      · rename_i specific
        rw [if_pos (by simpa using candidate (by simpa using specific))]

/-- The route of this very prefix that the method matches and that was registered first. -/
def firstOf (routes : List (Route H)) (req : Request) (pathPrefix : Text) : Option (Route H) :=
  routes.find? fun r => r.pathPrefix = pathPrefix && r.allows req

theorem candidate_iff : r.candidate req = true ↔ r.catchAll = false ∧ r.covers req = true := by
  rw [Route.candidate, Bool.and_eq_true, Bool.not_eq_true']

theorem prefix_eq {r' : Route H} (covers : r.covers req = true) (covers' : r'.covers req = true)
    (length : r.pathPrefix.length = r'.pathPrefix.length) : r.pathPrefix = r'.pathPrefix := by
  rw [Route.covers, List.isPrefixOf_iff_prefix] at covers covers'
  rw [List.prefix_iff_eq_take.mp covers, List.prefix_iff_eq_take.mp covers', length]

variable {b : Route H}

theorem scan_some (found : routes.foldl (better req) none = some b) :
    b ∈ routes ∧ b.candidate req = true ∧ ∀ r ∈ routes, r.candidate req = true → r.rank req ≤ b.rank req := by
  rw [scan_eq] at found
  obtain ⟨member, candidate⟩ := List.mem_filter.mp (List.argmax_mem found)
  exact ⟨member, candidate, fun r inside one => List.le_of_mem_argmax (List.mem_filter.mpr ⟨inside, one⟩) found⟩

theorem scan_none : routes.foldl (better req) none = none ↔ ∀ r ∈ routes, r.candidate req = false := by
  rw [scan_eq, List.argmax_eq_none, List.filter_eq_nil_iff]
  simp

theorem scan_allows (inside : r ∈ routes) (candidate : r.candidate req = true) (allows : r.allows req = true) :
    ∃ b, routes.foldl (better req) none = some b ∧ b.allows req = true := by
  cases found : routes.foldl (better req) none with
  | none =>
    rw [scan_none.mp found r inside] at candidate
    cases candidate
  | some b =>
    refine ⟨b, rfl, ?_⟩
    have le := (scan_some found).2.2 r inside candidate
    rw [Route.rank, Route.rank, Prod.Lex.toLex_le_toLex, allows] at le
    rcases le with less | ⟨same, -⟩
    · exact absurd less (not_lt_of_ge (Bool.le_true _))
    · exact same.symm

theorem scan_longest (found : routes.foldl (better req) none = some b) (allowed : b.allows req = true)
    (inside : r ∈ routes) (candidate : r.candidate req = true) (allows : r.allows req = true) :
    r.pathPrefix.length ≤ b.pathPrefix.length := by
  have le := (scan_some found).2.2 r inside candidate
  rw [Route.rank, Route.rank, Prod.Lex.toLex_le_toLex, allows, allowed] at le
  rcases le with less | ⟨-, le⟩
  · exact absurd less (lt_irrefl _)
  · exact le

theorem candidate_congr {r' : Route H} (same : r.pathPrefix = r'.pathPrefix) : r.candidate req = r'.candidate req := by
  rw [Route.candidate, Route.candidate, Route.catchAll, Route.catchAll, Route.covers, Route.covers, same]

theorem scan_first (found : routes.foldl (better req) none = some b) (allowed : b.allows req = true) :
    firstOf routes req b.pathPrefix = some b := by
  classical
  obtain ⟨member, candidate, -⟩ := scan_some found
  have inside : b ∈ routes.filter (Route.candidate req) := List.mem_filter.mpr ⟨member, candidate⟩
  rw [scan_eq] at found
  have all : firstOf routes req b.pathPrefix =
      (routes.filter (Route.candidate req)).find? fun r => r.pathPrefix = b.pathPrefix && r.allows req := by
    rw [List.find?_filter, firstOf]
    congr 1
    funext r
    by_cases same : r.pathPrefix = b.pathPrefix
    · simp [@candidate_congr _ req _ _ same, candidate]
    · simp [same]
  rw [all]
  generalize routes.filter (Route.candidate req) = candidates at found inside
  cases first : candidates.find? fun r => r.pathPrefix = b.pathPrefix && r.allows req with
  | none =>
    have passed := List.find?_eq_none.mp first b inside
    simp [allowed] at passed
  | some c =>
    obtain ⟨is, before, behind, split, passed⟩ := List.find?_eq_some_iff_append.mp first
    rw [Bool.and_eq_true, decide_eq_true_eq] at is
    have rank : b.rank req ≤ c.rank req := by rw [Route.rank, Route.rank, allowed, is.1, is.2]
    have le := List.index_of_argmax found (split ▸ List.mem_append_right _ List.mem_cons_self) rank
    by_contra other
    have other : c ≠ b := fun same => other (congrArg some same)
    have later : b ∉ before := by
      intro early
      have := passed b early
      simp [allowed] at this
    have sooner : c ∉ before := by
      intro early
      have := passed c early
      simp [is] at this
    rw [split, List.idxOf_append_of_notMem later, List.idxOf_append_of_notMem sooner, List.idxOf_cons_self,
      List.idxOf_cons_ne _ other] at le
    omega

/-! ### The outcome -/

theorem dispatch_of_found (found : routes.foldl (better req) none = some b) :
    dispatch routes req = if b.allows req then .call b.handler else .methodNotAllowed := by
  rw [dispatch, selectRoute, found]

theorem dispatch_of_none (none : routes.foldl (better req) none = none) :
    dispatch routes req =
      if (ascii "/v1").isPrefixOf req.path then .notFound
      else match routes.find? Route.catchAll with
        | .none => .notFound
        | some r => if r.allows req then .call r.handler else .methodNotAllowed := by
  rw [dispatch, selectRoute, none]
  split_ifs <;> rfl

def OneCatchAll (routes : List (Route H)) : Prop :=
  ∀ r ∈ routes, ∀ r' ∈ routes, r.catchAll = true → r'.catchAll = true → r = r'

theorem find_catchAll (one : OneCatchAll routes) (inside : r ∈ routes) (catches : r.catchAll = true) :
    routes.find? Route.catchAll = some r := by
  cases found : routes.find? Route.catchAll with
  | none =>
    have := List.find?_eq_none.mp found r inside
    exact absurd catches this
  | some other =>
    rw [one other (List.mem_of_find?_eq_some found) r inside (List.find?_some found) catches]

theorem catchAll_congr {others : List (Route H)} (same : ∀ r, r ∈ routes ↔ r ∈ others) (one : OneCatchAll others) :
    routes.find? Route.catchAll = others.find? Route.catchAll := by
  cases first : routes.find? Route.catchAll with
  | none =>
    symm
    rw [List.find?_eq_none] at first ⊢
    exact fun r inside => first r ((same r).mpr inside)
  | some r =>
    exact (find_catchAll one ((same r).mp (List.mem_of_find?_eq_some first)) (List.find?_some first)).symm

theorem dispatch_congr {others : List (Route H)} (same : ∀ r, r ∈ routes ↔ r ∈ others)
    (firsts : ∀ pathPrefix, firstOf routes req pathPrefix = firstOf others req pathPrefix)
    (one : OneCatchAll routes) : dispatch routes req = dispatch others req := by
  have one' : OneCatchAll others := by
    intro r inside r' inside'
    exact one r ((same r).mpr inside) r' ((same r').mpr inside')
  cases found : routes.foldl (better req) none with
  | none =>
    have none' : others.foldl (better req) none = none :=
      scan_none.mpr fun r inside => scan_none.mp found r ((same r).mpr inside)
    rw [dispatch_of_none found, dispatch_of_none none', catchAll_congr same one']
  | some b =>
    obtain ⟨member, candidate, -⟩ := scan_some found
    by_cases allowed : b.allows req
    · obtain ⟨b', found', allowed'⟩ := scan_allows ((same b).mp member) candidate allowed
      obtain ⟨member', candidate', -⟩ := scan_some found'
      have length : b.pathPrefix.length = b'.pathPrefix.length :=
        Nat.le_antisymm (scan_longest found' allowed' ((same b).mp member) candidate allowed)
          (scan_longest found allowed ((same b').mpr member') candidate' allowed')
      have text := prefix_eq (candidate_iff.mp candidate).2 (candidate_iff.mp candidate').2 length
      have equal : b = b' := by
        have first := scan_first found allowed
        rw [firsts, text, scan_first found' allowed'] at first
        exact (Option.some.inj first).symm
      rw [dispatch_of_found found, dispatch_of_found found', equal]
    · obtain ⟨b', found'⟩ : ∃ b', others.foldl (better req) none = some b' := by
        cases found' : others.foldl (better req) none with
        | none =>
          rw [scan_none.mp found' b ((same b).mp member)] at candidate
          cases candidate
        | some b' => exact ⟨b', rfl⟩
      obtain ⟨member', candidate', -⟩ := scan_some found'
      have allowed' : ¬ b'.allows req = true := by
        intro allows
        obtain ⟨c, found'', allowed''⟩ := scan_allows ((same b').mpr member') candidate' allows
        rw [found] at found''
        cases found''
        exact allowed allowed''
      rw [dispatch_of_found found, dispatch_of_found found', if_neg allowed, if_neg allowed']

theorem dispatch_prefers (inside : r ∈ routes) (candidate : r.candidate req = true) (allows : r.allows req = true) :
    ∃ b ∈ routes, b.candidate req = true ∧ b.allows req = true ∧ dispatch routes req = .call b.handler ∧
      ∀ r ∈ routes, r.candidate req = true → r.allows req = true → r.pathPrefix.length ≤ b.pathPrefix.length := by
  obtain ⟨b, found, allowed⟩ := scan_allows inside candidate allows
  obtain ⟨member, candidate', -⟩ := scan_some found
  refine ⟨b, member, candidate', allowed, ?_, fun r => scan_longest found allowed⟩
  rw [dispatch_of_found found, if_pos allowed]

theorem dispatch_methodNotAllowed (one : OneCatchAll routes) (refused : dispatch routes req = .methodNotAllowed) :
    (∃ r ∈ routes, r.candidate req = true) ∧ (∀ r ∈ routes, r.candidate req = true → r.allows req = false) ∨
      (∀ r ∈ routes, r.candidate req = false) ∧ (ascii "/v1").isPrefixOf req.path = false ∧
        (∃ r ∈ routes, r.catchAll = true) ∧ ∀ r ∈ routes, r.catchAll = true → r.allows req = false := by
  cases found : routes.foldl (better req) none with
  | some b =>
    obtain ⟨member, candidate, -⟩ := scan_some found
    refine .inl ⟨⟨b, member, candidate⟩, ?_⟩
    intro r inside candidate
    by_contra allows
    obtain ⟨c, found', allowed⟩ := scan_allows inside candidate (by simpa using allows)
    rw [dispatch_of_found found', if_pos allowed] at refused
    cases refused
  | none =>
    rw [dispatch_of_none found] at refused
    split at refused
    · cases refused
    · rename_i api
      cases first : routes.find? Route.catchAll with
      | none =>
        rw [first] at refused
        cases refused
      | some r =>
        rw [first] at refused
        dsimp only at refused
        split at refused
        · cases refused
        · rename_i denied
          have member := List.mem_of_find?_eq_some first
          refine .inr ⟨scan_none.mp found, Bool.eq_false_iff.mpr api, ⟨r, member, List.find?_some first⟩, ?_⟩
          intro other inside catches
          rw [one other inside r member catches (List.find?_some first)]
          simpa using denied

/-- What is answered depends on the routes and, among those of one prefix that match the method, on which was
registered first; a route that matches the method is preferred to a longer one; and the method is not allowed only
when a route matches the path and none of them the method. -/
theorem dispatch_exact (one : OneCatchAll routes) :
    (∀ others, (∀ r, r ∈ routes ↔ r ∈ others) →
        (∀ pathPrefix, firstOf routes req pathPrefix = firstOf others req pathPrefix) →
        dispatch routes req = dispatch others req) ∧
      (∀ r ∈ routes, r.candidate req = true → r.allows req = true →
        ∃ b ∈ routes, b.candidate req = true ∧ b.allows req = true ∧ dispatch routes req = .call b.handler ∧
          ∀ r ∈ routes, r.candidate req = true → r.allows req = true → r.pathPrefix.length ≤ b.pathPrefix.length) ∧
      (dispatch routes req = .methodNotAllowed →
        (∃ r ∈ routes, r.candidate req = true) ∧ (∀ r ∈ routes, r.candidate req = true → r.allows req = false) ∨
        (∀ r ∈ routes, r.candidate req = false) ∧ (ascii "/v1").isPrefixOf req.path = false ∧
          (∃ r ∈ routes, r.catchAll = true) ∧ ∀ r ∈ routes, r.catchAll = true → r.allows req = false) :=
  ⟨fun _ same firsts => dispatch_congr same firsts one, fun _ inside candidate allows =>
    dispatch_prefers inside candidate allows, dispatch_methodNotAllowed one⟩

def twoRoutes : List (Route Nat) :=
  httpServerRoute (httpServerRoute [] none (some (ascii "/a")) 1) (some (ascii "GET")) (some (ascii "/ab")) 2

theorem dispatch_exact_two :
    (∀ r ∈ twoRoutes, r.candidate ⟨ascii "POST", ascii "/abc"⟩ = true → r.allows ⟨ascii "POST", ascii "/abc"⟩ = true →
      ∃ b ∈ twoRoutes, dispatch twoRoutes ⟨ascii "POST", ascii "/abc"⟩ = .call b.handler) ∧
      dispatch twoRoutes ⟨ascii "POST", ascii "/abc"⟩ = .call 1 := by
  refine ⟨fun r inside candidate allows => ?_, by decide⟩
  have one : OneCatchAll twoRoutes := by
    intro r inside _ _ catches
    have none : ∀ r ∈ twoRoutes, r.catchAll = false := by decide
    rw [none r inside] at catches
    cases catches
  obtain ⟨b, member, -, -, answer, -⟩ := (dispatch_exact one).2.1 r inside candidate allows
  exact ⟨b, member, answer⟩

/-- Two routes of one prefix, one of them for every method: the first is taken. -/
theorem dispatch_first_registered :
    ∃ (routes others : List (Route Nat)) (req : Request), (∀ r, r ∈ routes ↔ r ∈ others) ∧
      OneCatchAll routes ∧ dispatch routes req ≠ dispatch others req := by
  let every := httpServerRoute ([] : List (Route Nat)) none (some (ascii "/a")) 1
  let get := httpServerRoute ([] : List (Route Nat)) (some (ascii "GET")) (some (ascii "/a")) 2
  refine ⟨every ++ get, get ++ every, ⟨ascii "GET", ascii "/a/b"⟩, fun r => ?_, ?_, by decide⟩
  · rw [List.mem_append, List.mem_append, or_comm]
  · intro r inside _ _ catches
    have none : ∀ r ∈ every ++ get, r.catchAll = false := by decide
    rw [none r inside] at catches
    cases catches

end CognitiveOs.Api.HttpServer
