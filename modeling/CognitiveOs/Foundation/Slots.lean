import Mathlib.Algebra.GroupWithZero.Nat
import Mathlib.Algebra.Order.BigOperators.Group.Finset

/-!
# Totals over an array of slots

The first `count` slots of an array each carry a weight. One update changes the
total by the difference of two weights, which is all an accounting argument about
a pool of workers needs.
-/

namespace Foundation.Slots

universe u

variable {Slot : Type u}

/-- The weight of the first `count` slots together. -/
def total (slots : Nat → Slot) (count : Nat) (weight : Slot → Nat) : Nat :=
  ∑ index ∈ Finset.range count, weight (slots index)

variable {slots : Nat → Slot} {count index : Nat}

theorem total_update (weight : Slot → Nat) (inside : index < count) (value : Slot) :
    total (Function.update slots index value) count weight + weight (slots index) =
      total slots count weight + weight value := by
  have member : index ∈ Finset.range count := Finset.mem_range.mpr inside
  have others : ∑ i ∈ (Finset.range count).erase index,
      weight (Function.update slots index value i) =
        ∑ i ∈ (Finset.range count).erase index, weight (slots i) := by
    refine Finset.sum_congr rfl fun i elsewhere => ?_
    rw [Function.update_of_ne (Finset.ne_of_mem_erase elsewhere)]
  have before := Finset.add_sum_erase _ (fun i => weight (slots i)) member
  have after := Finset.add_sum_erase _
    (fun i => weight (Function.update slots index value i)) member
  rw [others] at after
  simp only [Function.update_self] at after
  unfold total
  omega

theorem total_add (slots : Nat → Slot) (count : Nat) (first second : Slot → Nat) :
    total slots count (fun slot => first slot + second slot) =
      total slots count first + total slots count second :=
  Finset.sum_add_distrib

theorem total_congr {others : Nat → Slot} (weight : Slot → Nat) (same : ∀ index < count, slots index = others index) :
    total slots count weight = total others count weight :=
  Finset.sum_congr rfl fun index member => by rw [same index (Finset.mem_range.mp member)]

theorem weight_le_total (slots : Nat → Slot) (weight : Slot → Nat) (inside : index < count) :
    weight (slots index) ≤ total slots count weight :=
  Finset.single_le_sum (f := fun i => weight (slots i)) (fun _ _ => Nat.zero_le _)
    (Finset.mem_range.mpr inside)

theorem two_weights_le_total (slots : Nat → Slot) {first second : Nat} (weight : Slot → Nat)
    (firstInside : first < count) (secondInside : second < count) (distinct : first ≠ second) :
    weight (slots first) + weight (slots second) ≤ total slots count weight := by
  have member : first ∈ Finset.range count := Finset.mem_range.mpr firstInside
  have rest : second ∈ (Finset.range count).erase first :=
    Finset.mem_erase.mpr ⟨distinct.symm, Finset.mem_range.mpr secondInside⟩
  have sum := Finset.add_sum_erase _ (fun i => weight (slots i)) member
  have bound := Finset.single_le_sum (f := fun i => weight (slots i))
    (fun _ _ => Nat.zero_le _) rest
  unfold total
  omega

variable {weight : Slot → Nat}

theorem total_grow {larger : Nat} (grown : count ≤ larger)
    (vacant : ∀ index, count ≤ index → weight (slots index) = 0) :
    total slots larger weight = total slots count weight := by
  refine (Finset.sum_subset (Finset.range_subset_range.mpr grown) fun index _ outside => ?_).symm
  exact vacant index (by simpa using outside)

theorem total_eq_zero_iff : total slots count weight = 0 ↔ ∀ index < count, weight (slots index) = 0 := by
  simp [total]

theorem exists_of_total_pos (positive : 0 < total slots count weight) : ∃ index < count, 0 < weight (slots index) := by
  by_contra none
  have zero : total slots count weight = 0 := by
    refine total_eq_zero_iff.mpr fun index inside => ?_
    by_contra nonzero
    exact none ⟨index, inside, Nat.pos_of_ne_zero nonzero⟩
  omega

theorem weight_eq_one_of_full (bounded : ∀ slot, weight slot ≤ 1) (full : total slots count weight = count) :
    ∀ index < count, weight (slots index) = 1 := by
  intro index inside
  have member : index ∈ Finset.range count := Finset.mem_range.mpr inside
  have sum := Finset.add_sum_erase _ (fun i => weight (slots i)) member
  have rest : ∑ i ∈ (Finset.range count).erase index, weight (slots i) ≤ count - 1 := by
    have bound := Finset.sum_le_card_nsmul ((Finset.range count).erase index)
      (fun i => weight (slots i)) 1 (fun i _ => bounded _)
    simpa [Finset.card_erase_of_mem member] using bound
  have most := bounded (slots index)
  unfold total at full
  omega

/-! ### Slots in a list -/

theorem sum_set (weight : Slot → Nat) {slots : List Slot} {old : Slot} (here : slots[index]? = some old)
    (value : Slot) : ((slots.set index value).map weight).sum + weight old = (slots.map weight).sum + weight value := by
  induction slots generalizing index with
  | nil => simp at here
  | cons slot slots ih =>
    cases index with
    | zero =>
      obtain rfl : slot = old := by simpa using here
      simp only [List.set_cons_zero, List.map_cons, List.sum_cons]
      omega
    | succ index =>
      have rest := ih (by simpa using here)
      simp only [List.set_cons_succ, List.map_cons, List.sum_cons]
      omega

theorem weight_le_sum (weight : Slot → Nat) {slots : List Slot} {slot : Slot} (member : slot ∈ slots) :
    weight slot ≤ (slots.map weight).sum :=
  List.single_le_sum (fun _ _ => Nat.zero_le _) _ (List.mem_map_of_mem member)

end Foundation.Slots
