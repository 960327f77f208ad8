import Mathlib.Data.List.Nodup

/-!
# Lists with keys

Lists whose items have keys: an item replaces the first one under its key or goes to the end,
and the first item under a key is taken out. When the keys are distinct, both act on one key.
-/

namespace Foundation.Upsert

universe u v

variable {Item : Type u} {Key : Type v} [DecidableEq Key]

/-- The item replaces the first one with its key, or is added at the end. -/
def upsert (key : Item → Key) (x : Item) : List Item → List Item
  | [] => [x]
  | y :: ys => if key y = key x then x :: ys else y :: upsert key x ys

def eraseKey (key : Item → Key) (k : Key) : List Item → List Item
  | [] => []
  | y :: ys => if key y = k then ys else y :: eraseKey key k ys

def lookup (key : Item → Key) (k : Key) (ys : List Item) : Option Item :=
  ys.find? fun y => key y = k

variable {key : Item → Key} {k : Key}

theorem mem_keys_upsert (key : Item → Key) (x : Item) (ys : List Item) (k : Key) :
    k ∈ (upsert key x ys).map key ↔ k = key x ∨ k ∈ ys.map key := by
  induction ys with
  | nil => simp [upsert]
  | cons y ys ih =>
    unfold upsert
    split
    · rename_i same
      rw [List.map_cons, List.map_cons, List.mem_cons, List.mem_cons, same, or_self_left]
    · rw [List.map_cons, List.map_cons, List.mem_cons, List.mem_cons, ih, or_left_comm]

variable {ys : List Item}

theorem upsert_of_absent (key : Item → Key) (x : Item) (absent : key x ∉ ys.map key) : upsert key x ys = ys ++ [x] := by
  induction ys with
  | nil => rfl
  | cons y ys ih =>
    rw [List.map_cons, List.mem_cons, not_or] at absent
    rw [upsert, if_neg (Ne.symm absent.1), ih absent.2, List.cons_append]

theorem upsert_distinct (key : Item → Key) (x : Item) (distinct : (ys.map key).Nodup) :
    ((upsert key x ys).map key).Nodup := by
  induction ys with
  | nil => exact List.nodup_singleton _
  | cons y ys ih =>
    obtain ⟨fresh, distinct⟩ := List.nodup_cons.mp distinct
    unfold upsert
    split
    · rename_i same
      rw [same] at fresh
      exact List.nodup_cons.mpr ⟨fresh, distinct⟩
    · rename_i other
      refine List.nodup_cons.mpr ⟨?_, ih distinct⟩
      rw [mem_keys_upsert, not_or]
      exact ⟨other, fresh⟩

theorem eraseKey_sublist (key : Item → Key) (k : Key) (ys : List Item) : (eraseKey key k ys).Sublist ys := by
  induction ys with
  | nil => exact List.Sublist.refl _
  | cons y ys ih =>
    unfold eraseKey
    split
    · exact List.sublist_cons_self y ys
    · exact ih.cons_cons y

theorem eraseKey_distinct (k : Key) (distinct : (ys.map key).Nodup) : ((eraseKey key k ys).map key).Nodup :=
  distinct.sublist ((eraseKey_sublist key k ys).map key)

variable {x : Item}

theorem mem_eraseKey (distinct : (ys.map key).Nodup) : x ∈ eraseKey key k ys ↔ x ∈ ys ∧ key x ≠ k := by
  induction ys with
  | nil => simp [eraseKey]
  | cons y ys ih =>
    obtain ⟨fresh, distinct⟩ := List.nodup_cons.mp distinct
    unfold eraseKey
    split
    next here =>
      rw [List.mem_cons]
      constructor
      · intro member
        exact ⟨.inr member, fun same => fresh (List.mem_map.mpr ⟨x, member, same.trans here.symm⟩)⟩
      · rintro ⟨rfl | member, away⟩
        · exact absurd here away
        · exact member
    next away =>
      rw [List.mem_cons, List.mem_cons, ih distinct]
      constructor
      · rintro (rfl | ⟨member, other⟩)
        · exact ⟨.inl rfl, away⟩
        · exact ⟨.inr member, other⟩
      · rintro ⟨rfl | member, other⟩
        · exact .inl rfl
        · exact .inr ⟨member, other⟩

theorem eraseKey_of_absent (absent : k ∉ ys.map key) : eraseKey key k ys = ys := by
  induction ys with
  | nil => rfl
  | cons y ys ih =>
    rw [List.map_cons, List.mem_cons, not_or] at absent
    rw [eraseKey, if_neg (Ne.symm absent.1), ih absent.2]

theorem eraseKey_eq_filter (distinct : (ys.map key).Nodup) : eraseKey key k ys = ys.filter fun y => key y ≠ k := by
  induction ys with
  | nil => rfl
  | cons y ys ih =>
    obtain ⟨fresh, distinct⟩ := List.nodup_cons.mp distinct
    unfold eraseKey
    split
    · rename_i same
      subst same
      rw [List.filter_cons_of_neg (by simp), List.filter_eq_self.mpr]
      exact fun z member => decide_eq_true fun same => fresh (same ▸ List.mem_map_of_mem member)
    · rename_i other
      rw [List.filter_cons_of_pos (by simpa using other), ih distinct]

variable {y : Item}

theorem mem_upsert (distinct : (ys.map key).Nodup) : y ∈ upsert key x ys ↔ y = x ∨ y ∈ ys ∧ key y ≠ key x := by
  induction ys with
  | nil => simp [upsert]
  | cons z ys ih =>
    obtain ⟨fresh, distinct⟩ := List.nodup_cons.mp distinct
    unfold upsert
    split
    · rename_i same
      rw [List.mem_cons, List.mem_cons]
      constructor
      · rintro (rfl | member)
        · exact .inl rfl
        · refine .inr ⟨.inr member, fun again => fresh ?_⟩
          exact List.mem_map.mpr ⟨y, member, again.trans same.symm⟩
      · rintro (rfl | ⟨rfl | member, away⟩)
        · exact .inl rfl
        · exact absurd same away
        · exact .inr member
    · rename_i other
      rw [List.mem_cons, List.mem_cons, ih distinct]
      constructor
      · rintro (rfl | rfl | ⟨member, away⟩)
        · exact .inr ⟨.inl rfl, other⟩
        · exact .inl rfl
        · exact .inr ⟨.inr member, away⟩
      · rintro (rfl | ⟨rfl | member, away⟩)
        · exact .inr (.inl rfl)
        · exact .inl rfl
        · exact .inr (.inr ⟨member, away⟩)

theorem lookup_cons (y : Item) (ys : List Item) :
    lookup key k (y :: ys) = if key y = k then some y else lookup key k ys := by
  unfold lookup
  rw [List.find?_cons]
  by_cases here : key y = k
  · simp [here]
  · simp [here]

theorem lookup_eq_none (absent : k ∉ ys.map key) : lookup key k ys = none := by
  apply List.find?_eq_none.mpr
  intro y member same
  exact absent (List.mem_map.mpr ⟨y, member, of_decide_eq_true same⟩)

theorem lookup_eq_some (distinct : (ys.map key).Nodup) : lookup key k ys = some x ↔ x ∈ ys ∧ key x = k := by
  induction ys with
  | nil => simp [lookup]
  | cons y ys ih =>
    obtain ⟨fresh, distinct⟩ := List.nodup_cons.mp distinct
    rw [lookup_cons, List.mem_cons]
    split
    · rename_i here
      rw [Option.some.injEq]
      constructor
      · rintro rfl
        exact ⟨.inl rfl, here⟩
      · rintro ⟨rfl | member, there⟩
        · rfl
        · exact absurd (List.mem_map.mpr ⟨x, member, there.trans here.symm⟩) fresh
    · rename_i away
      rw [ih distinct]
      constructor
      · rintro ⟨member, there⟩
        exact ⟨.inr member, there⟩
      · rintro ⟨rfl | member, there⟩
        · exact absurd there away
        · exact ⟨member, there⟩

theorem lookup_filter (distinct : (ys.map key).Nodup) (keeps : Item → Bool) :
    lookup key k (ys.filter keeps) = (lookup key k ys).filter keeps := by
  apply Option.ext
  intro x
  rw [lookup_eq_some (distinct.sublist (List.filter_sublist.map _)), List.mem_filter, Option.filter_eq_some_iff,
    lookup_eq_some distinct]
  exact and_right_comm

theorem lookup_upsert (x : Item) (ys : List Item) :
    lookup key k (upsert key x ys) = if k = key x then some x else lookup key k ys := by
  induction ys with
  | nil =>
    unfold upsert
    rw [lookup_cons]
    exact if_congr eq_comm rfl rfl
  | cons y ys ih =>
    unfold upsert
    split
    · rename_i same
      rw [lookup_cons, lookup_cons, same]
      by_cases here : k = key x
      · rw [if_pos here.symm, if_pos here]
      · rw [if_neg (Ne.symm here), if_neg here, if_neg (Ne.symm here)]
    · rename_i other
      rw [lookup_cons, lookup_cons, ih]
      by_cases first : key y = k
      · have away : k ≠ key x := fun same => other (first.trans same)
        rw [if_pos first, if_neg away, if_pos first]
      · rw [if_neg first, if_neg first]

theorem lookup_eraseKey (distinct : (ys.map key).Nodup) (e : Key) :
    lookup key k (eraseKey key e ys) = if k = e then none else lookup key k ys := by
  induction ys with
  | nil => exact (ite_self none).symm
  | cons y ys ih =>
    obtain ⟨fresh, distinct⟩ := List.nodup_cons.mp distinct
    unfold eraseKey
    split
    · rename_i same
      rw [lookup_cons, same]
      by_cases here : k = e
      · subst here
        rw [if_pos rfl, lookup_eq_none (same ▸ fresh)]
      · rw [if_neg here, if_neg (Ne.symm here)]
    · rename_i other
      rw [lookup_cons, lookup_cons, ih distinct]
      by_cases first : key y = k
      · have away : k ≠ e := fun same => other (first.trans same)
        rw [if_pos first, if_neg away, if_pos first]
      · rw [if_neg first, if_neg first]

/-! ### An item replaced in its place -/

omit [DecidableEq Key] in
theorem keys_set {i : Nat} (here : ys[i]? = some y) (same : key x = key y) : (ys.set i x).map key = ys.map key := by
  obtain ⟨within, rfl⟩ := List.getElem?_eq_some_iff.mp here
  have within' : i < (ys.map key).length := by
    rwa [List.length_map]
  rw [List.map_set, same, ← List.getElem_map key (h := within'), List.set_getElem_self]

omit [DecidableEq Key] in
theorem mem_set (distinct : (ys.map key).Nodup) {i : Nat} {z : Item} (here : ys[i]? = some y) (same : key x = key y)
    (member : z ∈ ys.set i x) : z = x ∨ z ∈ ys ∧ key z ≠ key x := by
  induction ys generalizing i with
  | nil => cases member
  | cons w ys ih =>
    obtain ⟨fresh, distinct⟩ := List.nodup_cons.mp distinct
    cases i with
    | zero =>
      obtain rfl : w = y := by simpa using here
      rcases List.mem_cons.mp member with rfl | member
      · exact .inl rfl
      · refine .inr ⟨List.mem_cons_of_mem _ member, fun again => fresh ?_⟩
        exact List.mem_map.mpr ⟨z, member, again.trans same⟩
    | succ i =>
      have later : ys[i]? = some y := by simpa using here
      rcases List.mem_cons.mp member with rfl | member
      · refine .inr ⟨List.mem_cons_self .., fun again => fresh ?_⟩
        exact List.mem_map.mpr ⟨y, List.mem_of_getElem? later, (again.trans same).symm⟩
      · rcases ih distinct later member with rfl | ⟨member, away⟩
        · exact .inl rfl
        · exact .inr ⟨List.mem_cons_of_mem _ member, away⟩

end Foundation.Upsert

/-!
## Operations on single keys

Operations that each read and change the value under one key. What a sequence of them
leaves under a key is what the operations on that key leave.
-/

namespace Foundation.Keyed

universe u v w

variable {Key : Type u} {Value : Type v} {Op : Type w} [DecidableEq Key]

def apply (key : Op → Key) (act : Op → Value → Value) (store : Key → Value) (op : Op) :
    Key → Value :=
  Function.update store (key op) (act op (store (key op)))

theorem foldl_apply (key : Op → Key) (act : Op → Value → Value) (ops : List Op)
    (store : Key → Value) (k : Key) :
    ops.foldl (apply key act) store k =
      (ops.filter fun op => key op = k).foldl (fun value op => act op value) (store k) := by
  induction ops generalizing store with
  | nil => rfl
  | cons op ops ih =>
    rw [List.foldl_cons, ih]
    by_cases here : key op = k
    · subst here
      simp [apply]
    · simp [apply, here, Function.update_of_ne (Ne.symm here)]

end Foundation.Keyed
