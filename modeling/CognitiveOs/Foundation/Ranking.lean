import Mathlib.Data.List.Nodup
import Mathlib.Order.Lattice

/-!
# The best of a list

Items in descending order of a score, those of one score in the order in which they came. Each item
is put behind all of at least its score; what is cut off at the end is never missed.
-/

namespace Foundation.Ranking

universe u v

variable {Item : Type u} {Score : Type v} [LinearOrder Score] (score : Item → Score)

def place (x : Item) (l : List Item) : List Item :=
  l.takeWhile (fun y => decide (score x ≤ score y)) ++ x :: l.dropWhile fun y => decide (score x ≤ score y)

def ranked (xs : List Item) : List Item :=
  xs.mergeSort fun x y => decide (score y ≤ score x)

theorem place_cons (x y : Item) (l : List Item) :
    place score x (y :: l) = if score x ≤ score y then y :: place score x l else x :: y :: l := by
  unfold place
  split <;> rename_i less <;> simp [less]

theorem place_perm (x : Item) (l : List Item) : (place score x l).Perm (l ++ [x]) := by
  induction l with
  | nil => exact List.Perm.refl _
  | cons y l ih =>
    rw [place_cons]
    split
    · exact ih.cons y
    · exact (List.perm_append_singleton x (y :: l)).symm

theorem take_place (x : Item) (l : List Item) (k : Nat) :
    (place score x l).take k = (place score x (l.take k)).take k := by
  induction l generalizing k with
  | nil => simp
  | cons y l ih =>
    cases k with
    | zero => simp
    | succ k =>
      rw [List.take_succ_cons, place_cons, place_cons]
      split
      · rw [List.take_succ_cons, List.take_succ_cons, ih]
      · rw [List.take_succ_cons, List.take_succ_cons]
        cases k with
        | zero => rfl
        | succ k => rw [List.take_succ_cons, List.take_succ_cons, List.take_take, Nat.min_eq_left (Nat.le_succ k)]

/-! ### The order of two items -/

variable {l : List Item} {a b : Item}

omit [LinearOrder Score] in
theorem pair_or_pair (first : a ∈ l) (second : b ∈ l) (apart : a ≠ b) : [a, b].Sublist l ∨ [b, a].Sublist l := by
  induction l with
  | nil => cases first
  | cons y l ih =>
    rcases List.mem_cons.mp first with rfl | later
    · rcases List.mem_cons.mp second with rfl | behind
      · exact absurd rfl apart
      · exact .inl ((List.singleton_sublist.mpr behind).cons_cons a)
    · rcases List.mem_cons.mp second with rfl | behind
      · exact .inr ((List.singleton_sublist.mpr later).cons_cons b)
      · exact (ih later behind).imp (·.cons y) (·.cons y)

omit [LinearOrder Score] in
theorem not_pair (nodup : l.Nodup) (before : [a, b].Sublist l) : ¬ [b, a].Sublist l := by
  induction l with
  | nil => cases before
  | cons y l ih =>
    obtain ⟨fresh, nodup⟩ := List.nodup_cons.mp nodup
    intro behind
    cases before with
    | cons _ before =>
      cases behind with
      | cons _ behind => exact ih nodup before behind
      | cons_cons _ behind => exact fresh (before.subset (by simp))
    | cons_cons _ before =>
      cases behind with
      | cons _ behind => exact fresh (behind.subset (by simp))
      | cons_cons _ behind => exact fresh (before.subset (by simp))

/-- An item stands before another one: its score is higher, or the scores are the same and `tie` says so. -/
def Before (tie : Item → Item → Prop) (a b : Item) : Prop :=
  score b < score a ∨ score a = score b ∧ tie a b

variable {score}

theorem Before.le {tie : Item → Item → Prop} (before : Before score tie a b) : score b ≤ score a := by
  rcases before with less | ⟨same, -⟩
  · exact le_of_lt less
  · exact le_of_eq same.symm

variable {xs : List Item}

theorem before_asymm (nodup : xs.Nodup) (first : Before score (fun a b => [a, b].Sublist xs) a b)
    (second : Before score (fun a b => [a, b].Sublist xs) b a) : a = b := by
  rcases first with less | ⟨same, before⟩
  · exact absurd second.le (not_le_of_gt less)
  · rcases second with more | ⟨-, behind⟩
    · exact absurd more (same ▸ lt_irrefl _)
    · exact absurd behind (not_pair nodup before)

theorem pairwise_place {tie : Item → Item → Prop} {x : Item} (sorted : l.Pairwise (Before score tie))
    (came : ∀ y ∈ l, tie y x) : (place score x l).Pairwise (Before score tie) := by
  induction l with
  | nil => exact List.pairwise_singleton _ _
  | cons y l ih =>
    obtain ⟨first, sorted⟩ := List.pairwise_cons.mp sorted
    obtain ⟨here, came⟩ := List.forall_mem_cons.mp came
    rw [place_cons]
    split
    · rename_i less
      refine List.pairwise_cons.mpr ⟨fun z member => ?_, ih sorted came⟩
      rcases List.mem_append.mp ((place_perm score x l).mem_iff.mp member) with old | new
      · exact first z old
      · rw [List.mem_singleton.mp new]
        exact (lt_or_eq_of_le less).imp id fun same => ⟨same.symm, here⟩
    · rename_i more
      have lower : score y < score x := lt_of_not_ge more
      refine List.pairwise_cons.mpr ⟨fun z member => ?_, List.pairwise_cons.mpr ⟨first, sorted⟩⟩
      rcases List.mem_cons.mp member with rfl | later
      · exact .inl lower
      · exact .inl (lt_of_le_of_lt (first z later).le lower)

theorem pairwise_ranked (nodup : xs.Nodup) :
    (ranked score xs).Pairwise (Before score fun a b => [a, b].Sublist xs) := by
  have trans : ∀ a b c : Item, decide (score b ≤ score a) = true → decide (score c ≤ score b) = true →
      decide (score c ≤ score a) = true := by
    intro a b c first second
    exact decide_eq_true (le_trans (of_decide_eq_true second) (of_decide_eq_true first))
  have total : ∀ a b : Item, (decide (score b ≤ score a) || decide (score a ≤ score b)) = true := by
    intro a b
    simpa using le_total (score b) (score a)
  have perm : (ranked score xs).Perm xs := List.mergeSort_perm _ _
  have distinct := perm.nodup_iff.mpr nodup
  rw [List.pairwise_iff_forall_sublist]
  intro a b pair
  have descending := List.pairwise_iff_forall_sublist.mp
    (@List.pairwise_mergeSort _ (fun x y => decide (score y ≤ score x)) trans total xs) pair
  have le : score b ≤ score a := of_decide_eq_true descending
  rcases lt_or_eq_of_le le with less | same
  · exact .inl less
  · have apart : a ≠ b := by
      rintro rfl
      have two := distinct.sublist pair
      simp at two
    rcases pair_or_pair (perm.mem_iff.mp (pair.subset (by simp))) (perm.mem_iff.mp (pair.subset (by simp))) apart with
      inside | behind
    · exact .inr ⟨same.symm, inside⟩
    · have back : [b, a].Sublist (ranked score xs) :=
        List.pair_sublist_mergeSort trans total (decide_eq_true (le_of_eq same.symm)) behind
      exact absurd back (not_pair distinct pair)

theorem foldl_place (nodup : xs.Nodup) : xs.foldl (fun l x => place score x l) [] = ranked score xs := by
  have placed : ∀ done rest, done ++ rest = xs → ∀ l : List Item, l.Perm done →
      l.Pairwise (Before score fun a b => [a, b].Sublist xs) →
      (rest.foldl (fun l x => place score x l) l).Perm xs ∧
        (rest.foldl (fun l x => place score x l) l).Pairwise (Before score fun a b => [a, b].Sublist xs) := by
    intro done rest
    induction rest generalizing done with
    | nil =>
      rintro whole l perm sorted
      rw [List.append_nil] at whole
      exact ⟨whole ▸ perm, sorted⟩
    | cons x rest ih =>
      intro whole l perm sorted
      refine ih (done ++ [x]) (by simpa using whole) _ ?_ (pairwise_place sorted fun y member => ?_)
      · exact (place_perm score x l).trans (perm.append_right [x])
      · have inside : [y].Sublist done := List.singleton_sublist.mpr (perm.mem_iff.mp member)
        rw [← whole]
        exact inside.append ((List.nil_sublist rest).cons_cons x)
  obtain ⟨perm, sorted⟩ := placed [] xs rfl [] (List.Perm.refl _) List.Pairwise.nil
  refine List.Perm.eq_of_pairwise (fun a b _ _ first second => before_asymm nodup first second) sorted
    (pairwise_ranked nodup) (perm.trans (List.mergeSort_perm _ _).symm)

theorem foldl_take_place (nodup : xs.Nodup) (k : Nat) :
    xs.foldl (fun l x => (place score x l).take k) [] = (ranked score xs).take k := by
  rw [← foldl_place nodup]
  have kept : ∀ l : List Item, xs.foldl (fun l x => (place score x l).take k) (l.take k) =
      (xs.foldl (fun l x => place score x l) l).take k := by
    clear nodup
    induction xs with
    | nil => exact fun _ => rfl
    | cons x xs ih =>
      intro l
      rw [List.foldl_cons, List.foldl_cons, ← take_place, ih]
  simpa using kept []

/-! ### The place of an item -/

variable (score) in
theorem le_iff_of_descending (sorted : l.Pairwise fun a b => score b ≤ score a) {s : Score} {i : Nat} {y : Item}
    (here : l[i]? = some y) : s ≤ score y ↔ i < (l.takeWhile fun y => decide (s ≤ score y)).length := by
  induction l generalizing i with
  | nil => simp at here
  | cons z l ih =>
    obtain ⟨first, sorted⟩ := List.pairwise_cons.mp sorted
    rw [List.takeWhile_cons]
    split
    · rename_i high
      cases i with
      | zero =>
        obtain rfl : z = y := by simpa using here
        simpa using high
      | succ i =>
        rw [List.length_cons, Nat.add_lt_add_iff_right]
        exact ih sorted (by simpa using here)
    · rename_i low
      have less : ¬ s ≤ score z := by simpa using low
      refine iff_of_false (fun high => less ?_) (Nat.not_lt_zero i)
      cases i with
      | zero =>
        obtain rfl : z = y := by simpa using here
        exact high
      | succ i => exact le_trans high (first y (List.mem_of_getElem? (by simpa using here)))

end Foundation.Ranking
