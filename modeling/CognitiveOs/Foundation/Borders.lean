import Mathlib.Data.List.Infix

/-!
# Searching with a prefix table

A pattern is followed through a text by the length of its longest beginning that ends the text
read so far. The table holds this length for each beginning of the pattern itself.
-/

namespace Foundation

variable {α : Type*}

/-- Among the beginnings of `p` of at most `b` letters, that of `m` letters is the longest that
ends `w`. -/
structure Tracks (p w : List α) (b m : Nat) : Prop where
  le : m ≤ b
  suffix : p.take m <:+ w
  longest : ∀ k ≤ b, p.take k <:+ w → k ≤ m

/-- The entry for each of the first `n` beginnings of `p`. -/
def TableFor (p : List α) (table : List Nat) (n : Nat) : Prop :=
  ∀ j, 0 < j → j ≤ n → Tracks p (p.take j) (j - 1) (table.getD (j - 1) 0)

variable {p w : List α} {table : List Nat} {b m : Nat} {c : α}

theorem tracks_nil : Tracks p [] 0 0 where
  le := Nat.le_refl 0
  suffix := List.suffix_refl []
  longest _ bound _ := bound

theorem tracks_empty (within : b ≤ p.length) : Tracks p [] b 0 where
  le := Nat.zero_le b
  suffix := List.suffix_refl []
  longest k bound ends := by
    have length := ends.length_le
    rw [List.length_take, Nat.min_eq_left (bound.trans within)] at length
    exact length

theorem take_succ_suffix_concat (bound : m < p.length) :
    p.take (m + 1) <:+ w ++ [c] ↔ p[m]? = some c ∧ p.take m <:+ w := by
  rw [List.take_succ_eq_append_getElem bound, List.suffix_concat_iff, List.getElem?_eq_getElem bound]
  constructor
  · rintro (empty | ⟨t, same, suffix⟩)
    · exact absurd empty (List.append_ne_nil_of_right_ne_nil _ (List.cons_ne_nil _ _))
    · obtain ⟨rfl, last⟩ := List.append_inj' same rfl
      exact ⟨congrArg some (List.singleton_inj.mp last), suffix⟩
  · rintro ⟨here, suffix⟩
    exact .inr ⟨p.take m, by rw [Option.some.inj here], suffix⟩

theorem take_suffix_take {k : Nat} (order : k ≤ m) (shorter : p.take k <:+ w) (longer : p.take m <:+ w) :
    p.take k <:+ p.take m := by
  refine List.suffix_of_suffix_length_le shorter longer ?_
  rw [List.length_take, List.length_take]
  omega

theorem tracks_tail {a : α} : Tracks p (a :: w) w.length m ↔ Tracks p w w.length m := by
  have same : ∀ k ≤ w.length, (p.take k <:+ a :: w ↔ p.take k <:+ w) := by
    intro k bound
    refine ⟨fun suffix => ?_, fun suffix => suffix.trans (List.suffix_cons a w)⟩
    exact List.suffix_of_suffix_length_le suffix (List.suffix_cons a w) ((List.length_take_le k p).trans bound)
  constructor
  · rintro ⟨le, suffix, longest⟩
    exact ⟨le, (same m le).mp suffix, fun k bound suffix => longest k bound ((same k bound).mpr suffix)⟩
  · rintro ⟨le, suffix, longest⟩
    exact ⟨le, (same m le).mpr suffix, fun k bound suffix => longest k bound ((same k bound).mp suffix)⟩

section Search

variable [DecidableEq α]

/-- The entries of the table are tried until the next letter of the pattern is `c`. -/
def fallback (p : List α) (table : List Nat) (c : α) : Nat → Nat → Nat
  | 0, m => m
  | fuel + 1, m => if m ≠ 0 ∧ p[m]? ≠ some c then fallback p table c fuel (table.getD (m - 1) 0) else m

def advance (p : List α) (table : List Nat) (m : Nat) (c : α) : Nat :=
  let m := fallback p table c m m
  if p[m]? = some c then m + 1 else m

theorem fallback_spec (correct : TableFor p table m) {fuel : Nat} (enough : m ≤ fuel) (suffix : p.take m <:+ w) :
    p.take (fallback p table c fuel m) <:+ w ∧ fallback p table c fuel m ≤ m ∧
      (fallback p table c fuel m = 0 ∨ p[fallback p table c fuel m]? = some c) ∧
      ∀ k ≤ m, p.take k <:+ w → p[k]? = some c → k ≤ fallback p table c fuel m := by
  induction fuel generalizing m with
  | zero =>
    obtain rfl := Nat.le_zero.mp enough
    exact ⟨suffix, Nat.le_refl 0, .inl rfl, fun k bound _ _ => bound⟩
  | succ fuel ih =>
    rw [fallback]
    split
    · next back =>
      obtain ⟨positive, other⟩ := back
      have entry := correct m (Nat.pos_of_ne_zero positive) (Nat.le_refl m)
      have less : table.getD (m - 1) 0 < m := by have := entry.le; omega
      obtain ⟨ends, below, stop, longest⟩ := ih (fun j positive bound => correct j positive (by omega)) (by omega)
        (entry.suffix.trans suffix)
      refine ⟨ends, below.trans less.le, stop, fun k bound ends next => ?_⟩
      have strict : k < m := lt_of_le_of_ne bound fun same => other (same ▸ next)
      exact longest k (entry.longest k (by omega) (take_suffix_take bound ends suffix)) ends next
    · next stop =>
      refine ⟨suffix, Nat.le_refl m, ?_, fun k bound _ _ => bound⟩
      by_cases zero : m = 0
      · exact .inl zero
      · exact .inr (by by_contra other; exact stop ⟨zero, other⟩)

theorem Tracks.advance (tracks : Tracks p w b m) (bound : b < p.length) (correct : TableFor p table b) (c : α) :
    Tracks p (w ++ [c]) (b + 1) (advance p table m c) := by
  obtain ⟨ends, below, stop, longest⟩ := fallback_spec (c := c) (fun j positive le =>
    correct j positive (le.trans tracks.le)) (Nat.le_refl m) tracks.suffix
  have within := tracks.le
  unfold Foundation.advance
  generalize fallback p table c m m = r at ends below stop longest
  have continued : ∀ k ≤ b + 1, p.take k <:+ w ++ [c] → k = 0 ∨ ∃ j ≤ r, k = j + 1 ∧ p[j]? = some c := by
    intro k le suffix
    cases k with
    | zero => exact .inl rfl
    | succ k =>
      obtain ⟨next, suffix⟩ := (take_succ_suffix_concat (by omega)).mp suffix
      exact .inr ⟨k, longest k (tracks.longest k (by omega) suffix) suffix next, rfl, next⟩
  simp only
  split
  · next here =>
    refine ⟨by omega, (take_succ_suffix_concat (by omega)).mpr ⟨here, ends⟩, fun k le suffix => ?_⟩
    obtain rfl | ⟨j, le, rfl, -⟩ := continued k le suffix
    · exact Nat.zero_le _
    · omega
  · next other =>
    obtain rfl | here := stop
    · refine ⟨Nat.zero_le _, by rw [List.take_zero]; exact List.nil_suffix, fun k bound suffix => ?_⟩
      obtain rfl | ⟨j, le, rfl, next⟩ := continued k bound suffix
      · exact Nat.le_refl 0
      · obtain rfl := Nat.le_zero.mp le
        exact absurd next other
    · exact absurd here other

/-! ### The table -/

def buildStep (p : List α) (state : List Nat × Nat) (c : α) : List Nat × Nat :=
  (state.1 ++ [advance p state.1 state.2 c], advance p state.1 state.2 c)

def buildTable (p : List α) : List Nat :=
  (p.tail.foldl (buildStep p) ([0], 0)).1

theorem buildStep_correct {done rest : List α} {a : α} (whole : p = a :: (done ++ rest)) {state : List Nat × Nat}
    (length : state.1.length = done.length + 1) (correct : TableFor p state.1 (done.length + 1))
    (tracks : Tracks p done done.length state.2) :
    TableFor p (rest.foldl (buildStep p) state).1 p.length := by
  induction rest generalizing done state with
  | nil =>
    have size : p.length = done.length + 1 := by rw [whole]; simp
    rw [size]
    exact correct
  | cons c rest ih =>
    have bound : done.length < p.length := by
      rw [whole]
      simp only [List.length_cons, List.length_append]
      omega
    have next := tracks.advance bound (fun j positive le => correct j positive (by omega)) c
    have size : (done ++ [c]).length = done.length + 1 := by simp
    have start : p.take (done.length + 2) = a :: (done ++ [c]) := by
      rw [whole, List.take_succ_cons, List.append_cons, ← size, List.take_left]
    rw [List.foldl_cons]
    apply @ih (done ++ [c]) (by rw [whole]; simp) _ (by simp [buildStep, length])
    · intro j positive le
      rw [size] at le
      by_cases last : j = done.length + 2
      · have entry : (buildStep p state c).1.getD (j - 1) 0 = advance p state.1 state.2 c := by
          simp [buildStep, last, ← length]
        rw [entry, last, start]
        have tail := tracks_tail (a := a) (w := done ++ [c]) (p := p) (m := advance p state.1 state.2 c)
        rw [size] at tail
        exact tail.mpr next
      · have entry : (buildStep p state c).1.getD (j - 1) 0 = state.1.getD (j - 1) 0 := by
          simp only [buildStep, List.getD_eq_getElem?_getD]
          rw [List.getElem?_append_left (by omega)]
        rw [entry]
        exact correct j positive (by omega)
    · rw [size]
      exact next

theorem buildTable_correct (some' : p ≠ []) : TableFor p (buildTable p) p.length := by
  obtain ⟨a, rest, rfl⟩ := List.exists_cons_of_ne_nil some'
  refine @buildStep_correct α _ _ [] rest a rfl _ rfl ?_ tracks_nil
  intro j positive le
  have one : j = 1 := by
    simp only [List.length_nil] at le
    omega
  subst one
  exact tracks_tail.mpr tracks_nil

/-! ### The search -/

def searchStep (p : List α) (table : List Nat) (m : Nat) (c : α) : Nat × Bool :=
  let m := advance p table m c
  if m = p.length then (table.getD (m - 1) 0, true) else (m, false)

theorem Tracks.searchStep (some' : p ≠ []) (correct : TableFor p table p.length)
    (tracks : Tracks p w (p.length - 1) m) (c : α) :
    Tracks p (w ++ [c]) (p.length - 1) (searchStep p table m c).1 ∧
      ((searchStep p table m c).2 = true ↔ p <:+ w ++ [c]) := by
  have positive := List.length_pos_iff.mpr some'
  have next := tracks.advance (by omega) (fun j positive le => correct j positive (by omega)) c
  rw [Nat.sub_add_cancel positive] at next
  unfold Foundation.searchStep
  generalize Foundation.advance p table m c = m' at next
  simp only
  split
  · next whole =>
    subst whole
    have ends := next.suffix
    rw [List.take_length] at ends
    have entry := correct p.length positive (Nat.le_refl _)
    rw [List.take_length] at entry
    refine ⟨⟨entry.le, entry.suffix.trans ends, fun k bound suffix => entry.longest k bound ?_⟩, iff_of_true rfl ends⟩
    have shorter := take_suffix_take (p := p) (m := p.length) (by omega) suffix (by rwa [List.take_length])
    rwa [List.take_length] at shorter
  · next part =>
    have less := next.le
    refine ⟨⟨by omega, next.suffix, fun k bound => next.longest k (by omega)⟩, iff_of_false Bool.false_ne_true ?_⟩
    intro ends
    refine part (Nat.le_antisymm next.le (next.longest _ (Nat.le_refl _) ?_))
    rwa [List.take_length]

end Search

end Foundation
