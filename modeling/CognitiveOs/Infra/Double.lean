import Mathlib.Data.Int.Log
import Mathlib.Data.Rat.Floor

/-!
# Doubles

The double that is nearest to a rational number, ties to even, and which integers it keeps.
-/

namespace CognitiveOs.Infra

def halfEven (y : ℚ) : ℤ :=
  if y - ⌊y⌋ < 1 / 2 then ⌊y⌋
  else if 1 / 2 < y - ⌊y⌋ then ⌊y⌋ + 1
  else if ⌊y⌋ % 2 = 0 then ⌊y⌋
  else ⌊y⌋ + 1

def lastPlace (x : ℚ) : ℤ :=
  max (Int.log 2 |x| - 52) (-1074)

/-- The nearest double, `none` when that is infinite. -/
def nearest (x : ℚ) : Option ℚ :=
  let rounded : ℚ := halfEven (x / 2 ^ lastPlace x) * 2 ^ lastPlace x
  if |rounded| < 2 ^ 1024 then some rounded else none

theorem halfEven_intCast (k : ℤ) : halfEven k = k := by
  rw [halfEven, Int.floor_intCast, sub_self, if_pos (by norm_num)]

theorem le_halfEven {m : ℤ} {y : ℚ} (le : (m : ℚ) ≤ y) : m ≤ halfEven y := by
  have floor : m ≤ ⌊y⌋ := Int.le_floor.mpr le
  unfold halfEven
  split
  · exact floor
  · split
    · omega
    · split <;> omega

theorem halfEven_le {m : ℤ} {y : ℚ} (le : y ≤ m) : halfEven y ≤ m := by
  have low : ⌊y⌋ ≤ m := by
    have := Int.floor_mono le
    rwa [Int.floor_intCast] at this
  by_cases whole : ⌊y⌋ = m
  · have same : y = m := by
      apply le_antisymm le
      rw [← whole]
      exact Int.floor_le y
    rw [same, halfEven_intCast]
  · unfold halfEven
    split
    · exact low
    · split
      · omega
      · split <;> omega

theorem two_zpow_pos (e : ℤ) : (0 : ℚ) < 2 ^ e :=
  zpow_pos (by norm_num) e

theorem nearest_of_multiple {x : ℚ} {k : ℤ} (multiple : x / 2 ^ lastPlace x = k) (finite : |x| < 2 ^ 1024) :
    nearest x = some x := by
  have same : (k : ℚ) * 2 ^ lastPlace x = x := by
    rw [← multiple]
    exact div_mul_cancel₀ x (two_zpow_pos _).ne'
  rw [nearest]
  simp only [multiple, halfEven_intCast, same, if_pos finite]

theorem nearest_int {n : ℤ} (small : |n| < 2 ^ 53) : nearest n = some (n : ℚ) := by
  have cast : |(n : ℚ)| = ((n.natAbs : ℕ) : ℚ) := by
    rw [← Int.cast_abs, Int.abs_eq_natAbs, Int.cast_natCast]
  have bound : n.natAbs < 2 ^ 53 := by
    rw [Int.abs_eq_natAbs] at small
    exact_mod_cast small
  have place : lastPlace n ≤ 0 := by
    rw [lastPlace, cast, Int.log_natCast]
    have := Nat.log_lt_of_lt_pow' (b := 2) (by decide) bound
    omega
  obtain ⟨d, isPlace⟩ := Int.exists_eq_neg_ofNat place
  have multiple : (n : ℚ) / 2 ^ lastPlace (n : ℚ) = ((n * 2 ^ d : ℤ) : ℚ) := by
    rw [isPlace, zpow_neg, div_inv_eq_mul, zpow_natCast]
    push_cast
    rfl
  refine nearest_of_multiple multiple ?_
  rw [cast]
  have wide : (2 : ℚ) ^ 53 < 2 ^ 1024 := pow_lt_pow_right₀ (by norm_num) (by decide)
  have own : ((n.natAbs : ℕ) : ℚ) < 2 ^ 53 := by exact_mod_cast bound
  exact own.trans wide

theorem nearest_large {n : ℤ} {d : ℚ} (rounded : nearest n = some d) (large : 2 ^ 53 ≤ |n|) : 2 ^ 53 ≤ |d| := by
  have cast : (2 : ℚ) ^ 53 ≤ |(n : ℚ)| := by
    rw [← Int.cast_abs]
    exact_mod_cast large
  have positive : (0 : ℚ) < |(n : ℚ)| := lt_of_lt_of_le (by norm_num) cast
  have log : 53 ≤ Int.log 2 |(n : ℚ)| := by
    rw [← Int.zpow_le_iff_le_log (by decide) positive]
    exact_mod_cast cast
  have place : lastPlace n = Int.log 2 |(n : ℚ)| - 52 := by
    rw [lastPlace]
    omega
  have power : (2 : ℚ) ^ Int.log 2 |(n : ℚ)| = 2 ^ 52 * 2 ^ lastPlace (n : ℚ) := by
    rw [place, ← zpow_natCast (2 : ℚ) 52, ← zpow_add₀ (by norm_num)]
    congr 1
    push_cast
    ring
  have low : (2 : ℚ) ^ 52 * 2 ^ lastPlace (n : ℚ) ≤ |(n : ℚ)| := by
    rw [← power]
    exact_mod_cast Int.zpow_log_le_self (b := 2) (by decide) positive
  have unit : (2 : ℚ) ≤ 2 ^ lastPlace (n : ℚ) := by
    have one : (1 : ℤ) ≤ lastPlace n := by omega
    calc (2 : ℚ) = 2 ^ (1 : ℤ) := (zpow_one 2).symm
      _ ≤ 2 ^ lastPlace (n : ℚ) := zpow_le_zpow_right₀ (by norm_num) one
  rw [nearest] at rounded
  split at rounded
  · cases rounded
    have scale := two_zpow_pos (lastPlace n)
    have digits : (2 : ℚ) ^ 52 ≤ |(halfEven ((n : ℚ) / 2 ^ lastPlace (n : ℚ)) : ℚ)| := by
      rcases le_total 0 (n : ℚ) with up | down
      · rw [abs_of_nonneg up] at low
        have quotient : (((2 ^ 52 : ℕ) : ℤ) : ℚ) ≤ (n : ℚ) / 2 ^ lastPlace (n : ℚ) := by
          rw [le_div_iff₀ scale]
          exact_mod_cast low
        have := le_halfEven quotient
        refine le_trans ?_ (le_abs_self _)
        exact_mod_cast this
      · rw [abs_of_nonpos down] at low
        have quotient : (n : ℚ) / 2 ^ lastPlace (n : ℚ) ≤ ((-(2 ^ 52 : ℕ) : ℤ) : ℚ) := by
          rw [div_le_iff₀ scale]
          push_cast
          linarith
        have := halfEven_le quotient
        refine le_trans ?_ (neg_le_abs _)
        have cast' : ((halfEven ((n : ℚ) / 2 ^ lastPlace (n : ℚ)) : ℤ) : ℚ) ≤ ((-(2 ^ 52 : ℕ) : ℤ) : ℚ) := by
          exact_mod_cast this
        push_cast at cast'
        linarith
    rw [abs_mul, abs_of_pos scale]
    calc (2 : ℚ) ^ 53 = 2 ^ 52 * 2 := by norm_num
      _ ≤ |(halfEven ((n : ℚ) / 2 ^ lastPlace (n : ℚ)) : ℚ)| * 2 ^ lastPlace (n : ℚ) :=
        mul_le_mul digits unit (by norm_num) (abs_nonneg _)
  · cases rounded

theorem nearest_eq_int {n k : ℤ} (rounded : nearest n = some (k : ℚ)) (small : |k| < 2 ^ 53) : n = k := by
  by_cases range : |n| < 2 ^ 53
  · rw [nearest_int range] at rounded
    exact_mod_cast Option.some.inj rounded
  · have := nearest_large rounded (not_lt.mp range)
    rw [← Int.cast_abs] at this
    have cast : (2 : ℤ) ^ 53 ≤ |k| := by exact_mod_cast this
    omega

end CognitiveOs.Infra
