import Mathlib.Data.Finite.Prod
import Mathlib.Data.Set.Finite.Lattice
import Mathlib.Dynamics.FixedPoints.Basic

/-!
# Orbits on a finite set

When the iterates of a function from any point of a finite set come by every other point.
-/

namespace Foundation

variable {α : Type*} {f : α → α} {t : Set α}

def Sweeps (f : α → α) (t : Set α) : Prop :=
  ∀ s ⊆ t, s.Nonempty → Set.MapsTo f s s → s = t

theorem Sweeps.exists_iterate (sweeps : Sweeps f t) (maps : Set.MapsTo f t t) {a b : α} (start : a ∈ t) (goal : b ∈ t) :
    ∃ k, f^[k] a = b := by
  let orbit : Set α := {x | ∃ k, f^[k] a = x}
  have within : orbit ⊆ t := by
    rintro _ ⟨k, rfl⟩
    exact maps.iterate k start
  have closed : Set.MapsTo f orbit orbit := by
    rintro _ ⟨k, rfl⟩
    exact ⟨k + 1, Function.iterate_succ_apply' f k a⟩
  have whole : orbit = t := sweeps orbit within ⟨a, 0, rfl⟩ closed
  rw [← whole] at goal
  exact goal

theorem sweeps_iff (finite : t.Finite) (maps : Set.MapsTo f t t) :
    Sweeps f t ↔ ∃ n, ∀ a ∈ t, ∀ b ∈ t, ∃ k < n, f^[k] a = b := by
  constructor
  · intro sweeps
    have reached : ∀ p : α × α, p ∈ t ×ˢ t → ∃ k, f^[k] p.1 = p.2 :=
      fun p member => sweeps.exists_iterate maps member.1 member.2
    choose! k hits using reached
    obtain ⟨n, bound⟩ := ((finite.prod finite).image k).bddAbove
    refine ⟨n + 1, fun a start b goal => ⟨k (a, b), ?_, hits (a, b) ⟨start, goal⟩⟩⟩
    exact Nat.lt_succ_of_le (bound ⟨(a, b), ⟨start, goal⟩, rfl⟩)
  · rintro ⟨n, reached⟩ s within ⟨a, start⟩ closed
    refine within.antisymm fun b goal => ?_
    obtain ⟨k, -, hit⟩ := reached a (within start) b goal
    rw [← hit]
    exact closed.iterate k start

end Foundation
