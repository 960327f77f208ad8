import Mathlib.Data.List.Forall2
import Mathlib.Order.Basic

/-!
# Maps that can fail and folds that grow
-/

namespace Foundation

variable {α β : Type} {f : α → Option β}

theorem mapM_isSome (f : α → Option β) (items : List α) :
    (items.mapM f).isSome ↔ ∀ item ∈ items, (f item).isSome := by
  induction items with
  | nil => simp
  | cons item items ih =>
    rw [List.mapM_cons, List.forall_mem_cons, ← ih]
    cases f item with
    | none => simp
    | some first => cases items.mapM f <;> simp

theorem forall₂_mapM {items : List α} {results : List β} (mapped : items.mapM f = some results) :
    List.Forall₂ (fun item result => f item = some result) items results := by
  induction items generalizing results with
  | nil =>
    cases mapped
    exact .nil
  | cons item items ih =>
    rw [List.mapM_cons] at mapped
    obtain ⟨first, one, later⟩ := Option.bind_eq_some_iff.mp mapped
    obtain ⟨rest, others, same⟩ := Option.bind_eq_some_iff.mp later
    cases same
    exact .cons one (ih others)

theorem mem_mapM {items : List α} {results : List β} (mapped : items.mapM f = some results) {result : β}
    (member : result ∈ results) : ∃ item ∈ items, f item = some result := by
  obtain ⟨i, inside, rfl⟩ := List.mem_iff_getElem.mp member
  have both := forall₂_mapM mapped
  exact ⟨_, List.getElem_mem (both.length_eq ▸ inside), both.get _ inside⟩

variable [Preorder β] {g : β → α → β}

theorem le_foldl (grows : ∀ b x, b ≤ g b x) (l : List α) (b : β) : b ≤ l.foldl g b := by
  induction l generalizing b with
  | nil => exact le_rfl
  | cons x l ih => exact (grows b x).trans (ih _)

theorem exists_step_le_foldl (grows : ∀ b x, b ≤ g b x) {l : List α} {x : α} (member : x ∈ l) (b : β) :
    ∃ b', g b' x ≤ l.foldl g b := by
  induction l generalizing b with
  | nil => cases member
  | cons y l ih =>
    rcases List.mem_cons.mp member with rfl | later
    · exact ⟨b, le_foldl grows l _⟩
    · exact ih later _

end Foundation
