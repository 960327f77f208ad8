import CognitiveOs.Infra.Text

/-!
# Spans of a text

Parts of a text by their places, and the text with such parts replaced.
-/

namespace CognitiveOs.Security

open Infra

/-- The bytes from `start` up to `stop`. -/
structure Span where
  start : Nat
  stop : Nat
  deriving DecidableEq

def slice (text : Text) (start stop : Nat) : Text :=
  (text.drop start).take (stop - start)

def replaceSpans (replacement : Span → Text) (text : Text) (pos : Nat) : List Span → Text
  | [] => text.drop pos
  | m :: ms => slice text pos m.start ++ replacement m ++ replaceSpans replacement text m.stop ms

def Overlap (x y : Span) : Prop :=
  x.start < y.stop ∧ y.start < x.stop

instance (x y : Span) : Decidable (Overlap x y) :=
  inferInstanceAs (Decidable (_ ∧ _))

def Covered (spans : List Span) (i : Nat) : Prop :=
  ∃ x ∈ spans, x.start ≤ i ∧ i < x.stop

def Inside (x : Span) (spans : List Span) : Prop :=
  ∀ i, x.start ≤ i → i < x.stop → Covered spans i

def Joined (spans : List Span) (x : Span) : Prop :=
  ∀ y ∈ spans, Overlap x y →
    (x.start < y.start → Covered spans (y.start - 1)) ∧ (y.stop < x.stop → Covered spans y.stop)

def firstCome (taken : List Span) : List Span → List Span
  | [] => taken
  | x :: xs => firstCome (if ∃ y ∈ taken, Overlap x y then taken else taken ++ [x]) xs

section Cover

variable {x : Span} {spans : List Span}

theorem Inside.joined (inside : Inside x spans) : Joined spans x := by
  intro y _ overlap
  have meets : x.start < y.stop ∧ y.start < x.stop := overlap
  constructor
  · intro before
    exact inside (y.start - 1) (by omega) (by omega)
  · intro after
    exact inside y.stop (by omega) after

theorem Joined.covers_after (joined : Joined spans x) {i : Nat} (within : i < x.stop) (fuel : Nat) :
    ∀ y ∈ spans, Overlap x y → y.start ≤ i → i + 1 - y.stop ≤ fuel → Covered spans i := by
  induction fuel with
  | zero =>
      intro y member _ after far
      exact ⟨y, member, after, by omega⟩
  | succ fuel next =>
      intro y member overlap after far
      rcases Nat.lt_or_ge i y.stop with inside | beyond
      · exact ⟨y, member, after, inside⟩
      obtain ⟨z, listed, reaches, ends⟩ := (joined y member overlap).2 (by omega)
      have meets : x.start < y.stop := overlap.1
      exact next z listed ⟨by omega, by omega⟩ (by omega) (by omega)

theorem Joined.covers_before (joined : Joined spans x) {i : Nat} (within : x.start ≤ i) (fuel : Nat) :
    ∀ y ∈ spans, Overlap x y → i < y.stop → y.start - i ≤ fuel → Covered spans i := by
  induction fuel with
  | zero =>
      intro y member _ before far
      exact ⟨y, member, by omega, before⟩
  | succ fuel next =>
      intro y member overlap before far
      rcases Nat.lt_or_ge i y.start with outside | inside
      · obtain ⟨z, listed, reaches, ends⟩ := (joined y member overlap).1 (by omega)
        have meets : y.start < x.stop := overlap.2
        exact next z listed ⟨by omega, by omega⟩ (by omega) (by omega)
      · exact ⟨y, member, inside, before⟩

theorem inside_iff_joined (nonempty : ∀ y ∈ spans, y.start < y.stop) (meets : ∃ y ∈ spans, Overlap x y) :
    Inside x spans ↔ Joined spans x := by
  refine ⟨Inside.joined, ?_⟩
  intro joined i first last
  obtain ⟨y, member, overlap⟩ := meets
  have ordered := nonempty y member
  rcases Nat.lt_or_ge i y.start with before | after
  · exact joined.covers_before first _ y member overlap (by omega) le_rfl
  · exact joined.covers_after last _ y member overlap after le_rfl

end Cover

/-! ### First come -/

theorem subset_firstCome (taken spans : List Span) : taken ⊆ firstCome taken spans := by
  induction spans generalizing taken with
  | nil => exact fun _ member => member
  | cons x xs next =>
      intro y member
      apply next
      split
      · exact member
      · exact List.mem_append_left [x] member

theorem mem_firstCome {taken spans : List Span} {y : Span} (member : y ∈ firstCome taken spans) :
    y ∈ taken ∨ y ∈ spans := by
  induction spans generalizing taken with
  | nil => exact .inl member
  | cons x xs next =>
      rcases next member with held | later
      · split at held
        · exact .inl held
        · rcases List.mem_append.mp held with old | new
          · exact .inl old
          · exact .inr (List.mem_cons.mpr (.inl (List.mem_singleton.mp new)))
      · exact .inr (List.mem_cons_of_mem x later)

theorem firstCome_meets {taken spans : List Span} {x : Span} (member : x ∈ spans) (nonempty : x.start < x.stop) :
    ∃ y ∈ firstCome taken spans, Overlap x y := by
  induction spans generalizing taken with
  | nil => cases member
  | cons z zs next =>
      rcases List.mem_cons.mp member with rfl | later
      · unfold firstCome
        split
        · rename_i met
          obtain ⟨y, held, overlap⟩ := met
          exact ⟨y, subset_firstCome taken zs held, overlap⟩
        · exact ⟨x, subset_firstCome _ zs (List.mem_append_right taken (List.mem_singleton_self x)), nonempty, nonempty⟩
      · exact next later

theorem firstCome_apart {taken : List Span} (spans : List Span) (apart : taken.Pairwise fun x y => ¬ Overlap y x) :
    (firstCome taken spans).Pairwise fun x y => ¬ Overlap y x := by
  induction spans generalizing taken with
  | nil => exact apart
  | cons x xs next =>
      apply next
      split
      · exact apart
      · rename_i free
        refine List.pairwise_append.mpr ⟨apart, List.pairwise_singleton _ x, ?_⟩
        intro y held z new overlap
        rw [List.mem_singleton.mp new] at overlap
        exact free ⟨y, held, overlap⟩

/-! ### Replacing -/

theorem slice_append_drop (text : Text) {start stop : Nat} (ordered : start ≤ stop) :
    slice text start stop ++ text.drop stop = text.drop start := by
  have rest : text.drop stop = (text.drop start).drop (stop - start) := by
    rw [List.drop_drop, Nat.add_sub_cancel' ordered]
  rw [slice, rest, List.take_append_drop]

theorem replaceSpans_own (text : Text) {pos : Nat} {spans : List Span}
    (sorted : spans.Pairwise fun x y => x.stop ≤ y.start) (ordered : ∀ x ∈ spans, x.start ≤ x.stop)
    (ahead : ∀ x ∈ spans, pos ≤ x.start) :
    replaceSpans (fun x => slice text x.start x.stop) text pos spans = text.drop pos := by
  induction spans generalizing pos with
  | nil => rfl
  | cons x xs next =>
      obtain ⟨first, later⟩ := List.pairwise_cons.mp sorted
      have rest := next later (fun y member => ordered y (List.mem_cons_of_mem x member)) first
      rw [replaceSpans, rest, List.append_assoc, slice_append_drop text (ordered x List.mem_cons_self),
        slice_append_drop text (ahead x List.mem_cons_self)]

end CognitiveOs.Security
