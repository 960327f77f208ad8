import CognitiveOs.Foundation.Orbit
import CognitiveOs.Llm.Router.Model
import Mathlib.Order.Interval.Set.Nat

/-!
# The weighted round robin

The default policy advances the cursor by the weight of the route it picks, modulo the number of
routes. Whether every route is picked depends on the weights.
-/

namespace CognitiveOs.Llm.Routing

open Infra Foundation

def Router.RoundRobin (r : Router) : Prop :=
  r.policy ≠ ascii "cost" ∧ r.policy ≠ ascii "latency" ∧ (ascii "capability:").isPrefixOf r.policy = false

def advance (steps : List Nat) (cursor : Nat) : Nat :=
  (cursor + steps.getD (cursor % steps.length) 1) % 2 ^ 64 % steps.length

/-- The indexes of the next `n` picks. -/
def picks : Nat → Router → List Nat
  | 0, _ => []
  | n + 1, r =>
    match r.pick with
    | none => []
    | some (i, r) => i :: picks n r

def NoStarvation (r : Router) : Prop :=
  ∃ n, ∀ cursor < 2 ^ 64, ∀ i < r.routes.length, i ∈ picks n { r with cursor }

def Router.steps (r : Router) : List Nat :=
  r.routes.map Route.step

@[simp] theorem length_steps (r : Router) : r.steps.length = r.routes.length :=
  List.length_map _

theorem map_step_modify (routes : List Route) (i : Nat) :
    (routes.modify i fun e => { e with calls := e.calls + 1 }).map Route.step = routes.map Route.step := by
  induction routes generalizing i with
  | nil => simp
  | cons e routes ih =>
    cases i with
    | zero => rfl
    | succ i => simp [ih]

theorem pick_of_roundRobin {r : Router} (policy : r.RoundRobin) (some_route : r.routes ≠ []) :
    ∃ r' : Router, r.pick = some (r.cursor % r.routes.length, r') ∧ r'.steps = r.steps ∧ r'.policy = r.policy ∧
      r'.cursor = advance r.steps r.cursor := by
  obtain ⟨cost, latency, capability⟩ := policy
  have count : r.routes.length ≠ 0 := by simpa using some_route
  have step : (r.routes[r.cursor % r.routes.length]?.map Route.step).getD 1 =
      r.steps.getD (r.cursor % r.routes.length) 1 := by
    simp [Router.steps, List.getD_eq_getElem?_getD]
  have located : pickLocked r = some (r.cursor % r.routes.length,
      { r with cursor := advance r.steps r.cursor }) := by
    simp only [pickLocked, count, cost, latency, capability, if_false, decide_false, ne_eq, not_false_eq_true,
      and_self, if_true, step, advance, length_steps]
  let counted := r.routes.modify (r.cursor % r.routes.length) fun e => { e with calls := e.calls + 1 }
  refine ⟨{ r with routes := counted, cursor := advance r.steps r.cursor }, ?_, map_step_modify r.routes _, rfl, rfl⟩
  rw [Router.pick, located]
  rfl

theorem picks_eq {r : Router} (policy : r.RoundRobin) (some_route : r.routes ≠ []) (n : Nat) :
    picks n r = (List.range n).map fun k => (advance r.steps)^[k] r.cursor % r.routes.length := by
  induction n generalizing r with
  | zero => rfl
  | succ n ih =>
    obtain ⟨r', picked, steps, kept, cursor⟩ := pick_of_roundRobin policy some_route
    have count : r'.routes.length = r.routes.length := by rw [← length_steps, steps, length_steps]
    have some_route' : r'.routes ≠ [] := by
      rw [← List.length_pos_iff] at some_route ⊢
      rwa [count]
    have policy' : r'.RoundRobin := by
      rw [Router.RoundRobin, kept]
      exact policy
    rw [picks, picked]
    simp only [ih policy' some_route', steps, cursor, count, List.range_succ_eq_map, List.map_cons, List.map_map]
    rfl

theorem mem_picks {r : Router} (policy : r.RoundRobin) (some_route : r.routes ≠ []) {n i : Nat} :
    i ∈ picks n r ↔ ∃ k < n, (advance r.steps)^[k] r.cursor % r.routes.length = i := by
  rw [picks_eq policy some_route]
  simp

theorem advance_lt {steps : List Nat} (some_step : steps ≠ []) (cursor : Nat) : advance steps cursor < steps.length :=
  Nat.mod_lt _ (List.length_pos_iff.mpr some_step)

/-- No route starves exactly when no smaller set of routes is closed under the advance of the cursor. -/
theorem noStarvation_iff {r : Router} (policy : r.RoundRobin) (some_route : r.routes ≠ [])
    (size : r.routes.length ≤ 2 ^ 64) :
    NoStarvation r ↔ Sweeps (advance r.steps) (Set.Iio r.routes.length) := by
  have some_step : r.steps ≠ [] := by
    rw [← List.length_pos_iff, length_steps]
    exact List.length_pos_iff.mpr some_route
  have below : ∀ cursor, advance r.steps cursor < r.routes.length := by
    intro cursor
    rw [← length_steps]
    exact advance_lt some_step cursor
  have member (n cursor i : Nat) : i ∈ picks n { r with cursor } ↔
      ∃ k < n, (advance r.steps)^[k] cursor % r.routes.length = i :=
    @mem_picks { r with cursor } policy some_route n i
  rw [sweeps_iff (Set.finite_Iio _) fun cursor _ => below cursor]
  constructor
  · rintro ⟨n, all⟩
    refine ⟨n, fun a start b goal => ?_⟩
    obtain ⟨k, early, hit⟩ := (member n a b).mp (all a (Nat.lt_of_lt_of_le start size) b goal)
    refine ⟨k, early, ?_⟩
    rw [Nat.mod_eq_of_lt] at hit
    · exact hit
    · cases k with
      | zero => exact start
      | succ k =>
        rw [Function.iterate_succ_apply']
        exact below _
  · rintro ⟨n, reached⟩
    -- the first pick brings the cursor among the routes
    refine ⟨n + 1, fun cursor _ i goal => (member (n + 1) cursor i).mpr ?_⟩
    obtain ⟨k, early, hit⟩ := reached (advance r.steps cursor) (below cursor) i goal
    refine ⟨k + 1, by omega, ?_⟩
    rw [Function.iterate_succ_apply, hit]
    exact Nat.mod_eq_of_lt goal

def twoRoutes (weight : Rat) : Router where
  routes := [ascii "a", ascii "b"].map fun name =>
    ({ name, provider := ascii "openai", weight } : Added).route.defaultCapabilities

theorem roundRobin_twoRoutes (weight : Rat) : (twoRoutes weight).RoundRobin := by
  refine ⟨?_, ?_, ?_⟩
  · simp [twoRoutes, ascii]
  · simp [twoRoutes, ascii]
  · simp only [twoRoutes, ascii]
    decide

theorem steps_twoRoutes : (twoRoutes 2).steps = [2, 2] := by
  rfl

/-- Two routes of weight 1 take turns. -/
theorem noStarvation_iff_turns :
    NoStarvation (twoRoutes 1) ↔ Sweeps (advance (twoRoutes 1).steps) (Set.Iio (twoRoutes 1).routes.length) :=
  noStarvation_iff (roundRobin_twoRoutes 1) (by simp [twoRoutes]) (by simp [twoRoutes])

/-- Of two routes of weight 2 the second is never picked. -/
theorem starves_of_even : (twoRoutes 2).RoundRobin ∧ (∀ e ∈ (twoRoutes 2).routes, 0 < e.weight) ∧
    ¬ NoStarvation (twoRoutes 2) := by
  refine ⟨roundRobin_twoRoutes 2, by decide, ?_⟩
  rintro ⟨n, all⟩
  have picked := all 0 (by decide) 1 (by simp [twoRoutes])
  have some_route : (twoRoutes 2).routes ≠ [] := by simp [twoRoutes]
  obtain ⟨k, -, hit⟩ :=
    (@mem_picks { twoRoutes 2 with cursor := 0 } (roundRobin_twoRoutes 2) some_route n 1).mp picked
  have fixed : advance (twoRoutes 2).steps 0 = 0 := by
    rw [steps_twoRoutes]
    decide
  have still : (advance (twoRoutes 2).steps)^[k] 0 = 0 := Function.iterate_fixed fixed k
  have zero : (0 : Nat) % (twoRoutes 2).routes.length = 1 := by
    rw [← still]
    exact hit
  rw [Nat.zero_mod] at zero
  exact absurd zero (by decide)

end CognitiveOs.Llm.Routing
