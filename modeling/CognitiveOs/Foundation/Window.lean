import Mathlib.Algebra.Group.Nat.Defs
import Mathlib.Data.List.Basic
import Mathlib.Data.List.Induction

/-!
# A ring of slots

An array where each item goes to the slot behind the one before it, and to the first slot behind
the last one. Read from the oldest item on, its slots hold the end of the list of all items.
-/

namespace Foundation.Window

universe u

variable {Item : Type u}

/-- The last `n` items. -/
def lastN (n : Nat) (items : List Item) : List Item :=
  items.drop (items.length - n)

theorem lastN_of_length_le {n : Nat} {items : List Item} (short : items.length ≤ n) : lastN n items = items := by
  rw [lastN, Nat.sub_eq_zero_of_le short, List.drop_zero]

theorem length_lastN (n : Nat) (items : List Item) : (lastN n items).length = min items.length n := by
  rw [lastN, List.length_drop]
  omega

theorem lastN_snoc (n : Nat) (items : List Item) (x : Item) :
    lastN n (lastN n items ++ [x]) = lastN n (items ++ [x]) := by
  by_cases short : items.length ≤ n
  · rw [lastN_of_length_le short]
  · have length := length_lastN n items
    have cut : lastN n items ++ [x] = (items ++ [x]).drop (items.length - n) := by
      rw [lastN, List.drop_append_of_le_length (Nat.sub_le ..)]
    rw [lastN, List.length_append, length, cut, List.drop_drop, lastN, List.length_append]
    congr 1
    simp only [List.length_singleton]
    omega

theorem lastN_map {Other : Type u} (f : Item → Other) (n : Nat) (items : List Item) :
    lastN n (items.map f) = (lastN n items).map f := by
  rw [lastN, lastN, List.length_map, List.map_drop]

/-- A list that drops its first item whenever it gets longer than `n` keeps the last ones. -/
theorem foldl_lastN (n : Nat) (items : List Item) :
    items.foldl (fun kept x => if n < (kept ++ [x]).length then (kept ++ [x]).tail else kept ++ [x]) [] =
      lastN n items := by
  induction items using List.reverseRecOn with
  | nil => exact List.drop_nil.symm
  | append_singleton items x ih =>
    rw [List.foldl_append, List.foldl_cons, List.foldl_nil, ih, ← lastN_snoc]
    have length := length_lastN n items
    split
    · rename_i long
      rw [List.length_append, List.length_singleton] at long
      rw [← List.drop_one, lastN.eq_1 n (lastN n items ++ [x]), List.length_append, List.length_singleton]
      congr 1
      omega
    · rename_i short
      exact (lastN_of_length_le (Nat.le_of_not_lt short)).symm

/-- The slot of the item with `i` older ones, of `count` in all, when the next one goes to `next`. -/
def slotOf (size next count i : Nat) : Nat :=
  (next + size - count + i) % size

/-- Slots, the next one to fill and how many are filled, as the items in them from the oldest on. -/
structure Holds (slots : List Item) (next count : Nat) (items : List Item) : Prop where
  length : items.length = count
  room : count ≤ slots.length
  inside : next < slots.length
  filling : count < slots.length → next = count
  slot : ∀ i < count, slots[slotOf slots.length next count i]? = items[i]?

variable {slots items : List Item} {next count : Nat}

theorem Holds.empty (room : 0 < slots.length) : Holds slots 0 0 [] :=
  ⟨rfl, Nat.zero_le _, room, fun _ => rfl, nofun⟩

theorem slotOf_of_filling {size count i : Nat} (room : count ≤ size) (inside : i < count)
    (filling : next = if count < size then count else 0) : slotOf size next count i = i := by
  unfold slotOf
  subst filling
  split
  · rw [Nat.add_sub_cancel_left, Nat.add_mod_left, Nat.mod_eq_of_lt (by omega)]
  · rw [Nat.zero_add, Nat.mod_eq_of_lt (by omega)]
    omega

theorem Holds.put (holds : Holds slots next count items) (x : Item) :
    Holds (slots.set next x) ((next + 1) % slots.length) (if count < slots.length then count + 1 else count)
      (lastN slots.length (items ++ [x])) := by
  have room := holds.room
  have inside := holds.inside
  have length := holds.length
  have size : (items ++ [x]).length = count + 1 := by rw [List.length_append, length, List.length_singleton]
  by_cases filling : count < slots.length
  · obtain rfl := holds.filling filling
    rw [if_pos filling, lastN_of_length_le (by omega)]
    have wrapped : (next + 1) % slots.length = if next + 1 < slots.length then next + 1 else 0 := by
      split
      · exact Nat.mod_eq_of_lt ‹_›
      · rw [show next + 1 = slots.length by omega, Nat.mod_self]
    refine ⟨size, by rwa [List.length_set], ?_, ?_, fun i below => ?_⟩
    · rw [List.length_set]
      exact Nat.mod_lt _ (by omega)
    · rw [List.length_set]
      exact fun more => Nat.mod_eq_of_lt more
    · rw [List.length_set, slotOf_of_filling filling below wrapped]
      by_cases last : i = next
      · subst last
        rw [List.getElem?_set_self filling, ← length, List.getElem?_concat_length]
      · have before : i < next := by omega
        rw [List.getElem?_set_ne (Ne.symm last), List.getElem?_append_left (by omega), ← holds.slot i before,
          slotOf_of_filling room before (if_pos filling).symm]
  · obtain full : count = slots.length := by omega
    rw [if_neg filling]
    have turn (i : Nat) : slotOf slots.length ((next + 1) % slots.length) count i = (next + 1 + i) % slots.length := by
      rw [slotOf, full, Nat.add_sub_cancel, Nat.mod_add_mod]
    refine ⟨?_, by rwa [List.length_set], ?_, ?_, fun i below => ?_⟩
    · rw [length_lastN, size]
      omega
    · rw [List.length_set]
      exact Nat.mod_lt _ (by omega)
    · rw [List.length_set]
      omega
    · have shifted : (lastN slots.length (items ++ [x]))[i]? = (items ++ [x])[i + 1]? := by
        rw [lastN, List.getElem?_drop, size]
        congr 1
        omega
      rw [List.length_set, turn, shifted]
      by_cases last : i + 1 = count
      · have here : (next + 1 + i) % slots.length = next := by
          rw [show next + 1 + i = next + slots.length by omega, Nat.add_mod_right, Nat.mod_eq_of_lt inside]
        rw [here, List.getElem?_set_self inside, last, ← length, List.getElem?_concat_length]
      · have other : (next + 1 + i) % slots.length ≠ next := by
          intro same
          rcases Nat.lt_or_ge (next + 1 + i) slots.length with less | more
          · rw [Nat.mod_eq_of_lt less] at same
            omega
          · rw [Nat.mod_eq_sub_mod more, Nat.mod_eq_of_lt (by omega)] at same
            omega
        have old := holds.slot (i + 1) (by omega)
        rw [slotOf, full, Nat.add_sub_cancel] at old
        rw [List.getElem?_set_ne (Ne.symm other), List.getElem?_append_left (by omega), ← old]
        congr 2
        omega

/-- The filled slots from the oldest on. -/
def listed (slots : List Item) (next count : Nat) : List Item :=
  (List.range count).filterMap fun i => slots[slotOf slots.length next count i]?

theorem filterMap_getElem? (items : List Item) : ((List.range items.length).filterMap fun i => items[i]?) = items := by
  induction items with
  | nil => rfl
  | cons x items ih => simpa [List.range_succ_eq_map, List.filterMap_map, Function.comp_def] using ih

theorem Holds.listed_eq (holds : Holds slots next count items) : listed slots next count = items := by
  have same : listed slots next count = (List.range count).filterMap fun i => items[i]? :=
    List.filterMap_congr fun i member => holds.slot i (List.mem_range.mp member)
  rw [same, ← holds.length, filterMap_getElem?]

/-- A loop over slots that changes the first item with a property. -/
def modifyFirst (p : Item → Bool) (f : Item → Item) (slots : List Item) (order : List Nat) : List Item :=
  match order.find? fun k => (slots[k]?).any p with
  | none => slots
  | some k => slots.modify k f

theorem length_modifyFirst (p : Item → Bool) (f : Item → Item) (slots : List Item) (order : List Nat) :
    (modifyFirst p f slots order).length = slots.length := by
  unfold modifyFirst
  split
  · rfl
  · exact List.length_modify ..

/-- The filled slots are the first ones. -/
theorem Holds.lt_count (holds : Holds slots next count items) (k : Nat) :
    k < count ↔ ∃ i < count, slotOf slots.length next count i = k := by
  have room := holds.room
  have inside := holds.inside
  by_cases filling : count < slots.length
  · have same {i : Nat} (below : i < count) : slotOf slots.length next count i = i :=
      slotOf_of_filling room below (by rw [if_pos filling, holds.filling filling])
    exact ⟨fun below => ⟨k, below, same below⟩, fun ⟨i, below, here⟩ => here ▸ (same below).symm ▸ below⟩
  · obtain full : count = slots.length := by omega
    constructor
    · intro below
      refine ⟨(k + slots.length - next) % slots.length, ?_, ?_⟩
      · rw [full]
        exact Nat.mod_lt _ (by omega)
      · have turn : next + (k + slots.length - next) = k + slots.length := by omega
        rw [slotOf, full, Nat.add_sub_cancel, Nat.add_mod_mod, turn, Nat.add_mod_right, Nat.mod_eq_of_lt (by omega)]
    · rintro ⟨i, below, rfl⟩
      rw [full]
      exact Nat.mod_lt _ (by omega)

/-- When the loop goes over the filled slots and at most one item has the property, it changes that one. -/
theorem Holds.modifyFirst (holds : Holds slots next count items) {p : Item → Bool} {order : List Nat}
    (covers : ∀ k, k ∈ order ↔ ∃ i < count, slotOf slots.length next count i = k)
    (one : ∀ (i j : Nat) (x y : Item), items[i]? = some x → items[j]? = some y → p x → p y → i = j) (f : Item → Item) :
    Holds (modifyFirst p f slots order) next count (items.map fun x => if p x then f x else x) := by
  unfold Window.modifyFirst
  split
  · rename_i none_found
    have none_has : ∀ i < count, (items[i]?).any p = false := by
      intro i below
      rw [← holds.slot i below]
      exact Bool.eq_false_iff.mpr (List.find?_eq_none.mp none_found _ ((covers _).mpr ⟨i, below, rfl⟩))
    have same : (items.map fun x => if p x then f x else x) = items := by
      refine (List.map_congr_left fun x member => ?_).trans (List.map_id items)
      obtain ⟨i, here⟩ := List.mem_iff_getElem?.mp member
      have below : i < count := by
        rw [← holds.length]
        exact (List.getElem?_eq_some_iff.mp here).1
      have lacks := none_has i below
      rw [here] at lacks
      exact if_neg (Bool.eq_false_iff.mp lacks)
    rwa [same]
  · rename_i k found
    obtain ⟨i, below, at_k⟩ := (covers k).mp (List.mem_of_find?_eq_some found)
    have hit : (slots[k]?).any p = true := List.find?_some (p := fun k => (slots[k]?).any p) found
    obtain ⟨x, here, has⟩ := (Option.any_eq_true p _).mp hit
    refine ⟨by rw [List.length_map, holds.length], by rw [List.length_modify]; exact holds.room,
      by rw [List.length_modify]; exact holds.inside, by rw [List.length_modify]; exact holds.filling,
      fun j below' => ?_⟩
    rw [List.length_modify, List.getElem?_modify, List.getElem?_map, ← holds.slot j below']
    split
    · rename_i same
      rw [← same, here]
      exact congrArg some (if_pos has).symm
    · rename_i other
      cases at_j : slots[slotOf slots.length next count j]? with
      | none => rfl
      | some y =>
        have lacks : ¬ p y := by
          intro has'
          rw [← at_k, holds.slot i below] at here
          rw [holds.slot j below'] at at_j
          exact other (one i j x y here at_j has has' ▸ at_k.symm)
        exact congrArg some (if_neg lacks).symm

end Foundation.Window
