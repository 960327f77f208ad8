import Mathlib.Order.MinMax

/-!
# Covering from a start

Pieces arrive one after the other, each with its first position and the one behind its last.
A piece that starts in what is covered extends it, and this reaches as far as any chain does.
-/

namespace Foundation.Cover

variable {α : Type} [LinearOrder α]

def extend (c : α) (piece : α × α) : α :=
  if piece.1 ≤ c then max c piece.2 else c

def reach (c : α) (pieces : List (α × α)) : α :=
  pieces.foldl extend c

def Linked : α → List (α × α) → Prop
  | _, [] => True
  | c, piece :: rest => piece.1 ≤ c ∧ Linked (max c piece.2) rest

def Covers (c goal : α) (pieces : List (α × α)) : Prop :=
  ∃ chain last, (chain ++ [last]).Sublist pieces ∧ Linked c (chain ++ [last]) ∧ goal ≤ last.2

theorem le_extend (c : α) (piece : α × α) : c ≤ extend c piece := by
  unfold extend
  split
  · exact le_max_left _ _
  · exact le_refl c

theorem extend_mono {c d : α} (less : c ≤ d) (piece : α × α) : extend c piece ≤ extend d piece := by
  by_cases starts : piece.1 ≤ c
  · unfold extend
    rw [if_pos starts, if_pos (starts.trans less)]
    exact max_le_max_right _ less
  · unfold extend
    rw [if_neg starts]
    exact less.trans (le_extend d piece)

theorem reach_mono {c d : α} (less : c ≤ d) (pieces : List (α × α)) : reach c pieces ≤ reach d pieces := by
  induction pieces generalizing c d with
  | nil => exact less
  | cons piece rest ih => exact ih (extend_mono less piece)

theorem reach_snoc (c : α) (pieces : List (α × α)) (piece : α × α) :
    reach c (pieces ++ [piece]) = extend (reach c pieces) piece :=
  List.foldl_append

theorem reach_sublist {c : α} {chain pieces : List (α × α)} (sub : chain.Sublist pieces) :
    reach c chain ≤ reach c pieces := by
  induction sub generalizing c with
  | slnil => exact le_refl c
  | cons piece _ ih => exact (ih).trans (reach_mono (le_extend c piece) _)
  | cons_cons piece _ ih => exact ih

theorem linked_snoc {c : α} {chain : List (α × α)} {piece : α × α} :
    Linked c (chain ++ [piece]) ↔ Linked c chain ∧ piece.1 ≤ reach c chain := by
  induction chain generalizing c with
  | nil => exact and_comm
  | cons first rest ih =>
    constructor
    · rintro ⟨starts, linked⟩
      rcases ih.mp linked with ⟨linked, last⟩
      refine ⟨⟨starts, linked⟩, ?_⟩
      show _ ≤ reach (extend c first) rest
      rwa [extend, if_pos starts]
    · rintro ⟨⟨starts, linked⟩, last⟩
      refine ⟨starts, ih.mpr ⟨linked, ?_⟩⟩
      rwa [reach, List.foldl_cons, extend, if_pos starts] at last

theorem exists_linked (c : α) (pieces : List (α × α)) :
    ∃ chain : List (α × α), chain.Sublist pieces ∧ Linked c chain ∧ reach c chain = reach c pieces := by
  induction pieces generalizing c with
  | nil => exact ⟨[], List.Sublist.slnil, trivial, rfl⟩
  | cons piece rest ih =>
    by_cases starts : piece.1 ≤ c
    · rcases ih (max c piece.2) with ⟨chain, sub, linked, same⟩
      refine ⟨piece :: chain, sub.cons_cons piece, ⟨starts, linked⟩, ?_⟩
      show reach (extend c piece) chain = reach (extend c piece) rest
      rw [extend, if_pos starts, same]
    · rcases ih c with ⟨chain, sub, linked, same⟩
      refine ⟨chain, sub.cons piece, linked, ?_⟩
      show reach c chain = reach (extend c piece) rest
      rw [extend, if_neg starts, same]

theorem not_covers_nil (c goal : α) : ¬ Covers c goal [] := by
  rintro ⟨chain, last, sub, -⟩
  have empty := List.sublist_nil.mp sub
  simp at empty

theorem covers_snoc {c goal : α} {pieces : List (α × α)} {piece : α × α} :
    Covers c goal (pieces ++ [piece]) ↔
      Covers c goal pieces ∨ piece.1 ≤ reach c pieces ∧ goal ≤ piece.2 := by
  constructor
  · rintro ⟨chain, last, sub, linked, ends⟩
    rcases List.sublist_append_iff.mp sub with ⟨front, back, same, front', sub'⟩
    cases sub' with
    | cons _ sub' =>
      obtain rfl := List.sublist_nil.mp sub'
      rw [List.append_nil] at same
      exact .inl ⟨chain, last, same ▸ front', linked, ends⟩
    | cons_cons _ sub' =>
      obtain rfl := List.sublist_nil.mp sub'
      rcases List.append_inj' same rfl with ⟨rfl, last'⟩
      obtain rfl := (List.cons.inj last').1
      exact .inr ⟨(linked_snoc.mp linked).2.trans (reach_sublist front'), ends⟩
  · rintro (⟨chain, last, sub, linked, ends⟩ | ⟨starts, ends⟩)
    · exact ⟨chain, last, sub.trans (List.sublist_append_left _ _), linked, ends⟩
    · rcases exists_linked c pieces with ⟨chain, sub, linked, same⟩
      exact ⟨chain, piece, sub.append (List.Sublist.refl _), linked_snoc.mpr ⟨linked, same ▸ starts⟩, ends⟩

end Foundation.Cover
