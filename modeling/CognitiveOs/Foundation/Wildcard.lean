import Mathlib.Data.List.Forall2

/-!
# Wildcard patterns

Patterns over any alphabet: an element that allows some letters, or a gap that any run of letters
fills. The rules at the end are those of a matcher that remembers one gap only.
-/

namespace Foundation

inductive Wild (α : Type*) where
  | one (allowed : α → Prop)
  | gap

namespace Wild

variable {α : Type*}

inductive Matches : List (Wild α) → List α → Prop where
  | nil : Matches [] []
  | one {allowed : α → Prop} {pattern : List (Wild α)} {a : α} {s : List α} :
      allowed a → Matches pattern s → Matches (.one allowed :: pattern) (a :: s)
  | gap (run : List α) {pattern : List (Wild α)} {s : List α} :
      Matches pattern s → Matches (.gap :: pattern) (run ++ s)

variable {pattern rest : List (Wild α)} {s t : List α}

@[simp] theorem matches_nil : Matches ([] : List (Wild α)) s ↔ s = [] := by
  constructor
  · rintro ⟨⟩
    rfl
  · rintro rfl
    exact .nil

theorem matches_one {allowed : α → Prop} :
    Matches (.one allowed :: pattern) s ↔ ∃ a t, s = a :: t ∧ allowed a ∧ Matches pattern t := by
  constructor
  · rintro (_ | @⟨_, _, a, t, here, later⟩ | _)
    exact ⟨a, t, rfl, here, later⟩
  · rintro ⟨a, t, rfl, here, later⟩
    exact .one here later

theorem matches_one_cons {allowed : α → Prop} {a : α} :
    Matches (.one allowed :: pattern) (a :: s) ↔ allowed a ∧ Matches pattern s := by
  rw [matches_one]
  constructor
  · rintro ⟨b, t, same, here, later⟩
    cases same
    exact ⟨here, later⟩
  · rintro ⟨here, later⟩
    exact ⟨a, s, rfl, here, later⟩

theorem matches_gap : Matches (.gap :: pattern) s ↔ ∃ t, t <:+ s ∧ Matches pattern t := by
  constructor
  · rintro (_ | _ | @⟨run, _, t, later⟩)
    exact ⟨t, List.suffix_append run t, later⟩
  · rintro ⟨t, ⟨run, rfl⟩, later⟩
    exact .gap run later

theorem matches_gap_cons {a : α} :
    Matches (.gap :: pattern) (a :: s) ↔ Matches pattern (a :: s) ∨ Matches (.gap :: pattern) s := by
  rw [matches_gap, matches_gap]
  constructor
  · rintro ⟨t, suffix, later⟩
    obtain rfl | suffix := List.suffix_cons_iff.mp suffix
    · exact .inl later
    · exact .inr ⟨t, suffix, later⟩
  · rintro (here | ⟨t, suffix, later⟩)
    · exact ⟨a :: s, List.suffix_refl _, here⟩
    · exact ⟨t, suffix.trans (List.suffix_cons a s), later⟩

theorem matches_empty : Matches pattern [] ↔ ∀ w ∈ pattern, w = .gap := by
  induction pattern with
  | nil => simp
  | cons w pattern ih =>
    cases w with
    | one allowed => simp [matches_one]
    | gap => simp [matches_gap, ih]

theorem matches_append : Matches (pattern ++ rest) s ↔ ∃ u v, s = u ++ v ∧ Matches pattern u ∧ Matches rest v := by
  constructor
  · intro whole
    induction pattern generalizing s with
    | nil => exact ⟨[], s, rfl, .nil, whole⟩
    | cons w pattern ih =>
      cases w with
      | one allowed =>
        obtain ⟨a, t, rfl, here, later⟩ := matches_one.mp whole
        obtain ⟨u, v, rfl, first, second⟩ := ih later
        exact ⟨a :: u, v, rfl, .one here first, second⟩
      | gap =>
        obtain ⟨t, ⟨run, rfl⟩, later⟩ := matches_gap.mp whole
        obtain ⟨u, v, rfl, first, second⟩ := ih later
        exact ⟨run ++ u, v, (List.append_assoc run u v).symm, .gap run first, second⟩
  · rintro ⟨u, v, rfl, first, second⟩
    induction first with
    | nil => exact second
    | one here _ ih => exact .one here ih
    | gap run _ ih =>
      rw [List.append_assoc]
      exact .gap run ih

/-! ### One remembered gap -/

inductive Fits : List (Wild α) → List α → Prop where
  | nil : Fits [] []
  | one {allowed : α → Prop} {front : List (Wild α)} {a : α} {u : List α} :
      allowed a → Fits front u → Fits (.one allowed :: front) (a :: u)

variable {front : List (Wild α)} {u : List α}

theorem Fits.snoc {allowed : α → Prop} {a : α} (fits : Fits front u) (here : allowed a) :
    Fits (front ++ [.one allowed]) (u ++ [a]) := by
  induction fits with
  | nil => exact .one here .nil
  | one first _ ih => exact .one first ih

theorem Fits.matches (fits : Fits front u) (later : Matches rest t) : Matches (front ++ rest) (u ++ t) := by
  induction fits with
  | nil => exact later
  | one first _ ih => exact .one first ih

theorem Fits.split (fits : Fits front u) (whole : Matches (front ++ rest) s) :
    ∃ v, s.length = u.length + v.length ∧ v <:+ s ∧ Matches rest v := by
  induction fits generalizing s with
  | nil => exact ⟨s, by simp, List.suffix_refl s, whole⟩
  | one _ _ ih =>
    obtain ⟨b, t, rfl, -, later⟩ := matches_one.mp whole
    obtain ⟨v, length, suffix, later⟩ := ih later
    refine ⟨v, ?_, suffix.trans (List.suffix_cons b t), later⟩
    simp only [List.length_cons, length]
    omega

theorem Fits.matches_iff (fits : Fits front u) : Matches (front ++ rest) (u ++ t) ↔ Matches rest t := by
  constructor
  · intro whole
    obtain ⟨v, length, suffix, later⟩ := fits.split whole
    rw [List.length_append] at length
    have same : v = t := (List.suffix_of_suffix_length_le suffix (List.suffix_append u t) (by omega)).eq_of_length
      (by omega)
    rwa [same] at later
  · exact fits.matches

theorem Fits.commit (fits : Fits front u) :
    Matches (.gap :: (front ++ .gap :: rest)) (u ++ t) ↔ Matches (.gap :: rest) t := by
  constructor
  · intro whole
    obtain ⟨s, suffix, whole⟩ := matches_gap.mp whole
    obtain ⟨v, length, within, later⟩ := fits.split whole
    obtain ⟨w, last, later⟩ := matches_gap.mp later
    have shorter : v.length ≤ t.length := by
      have bound := suffix.length_le
      rw [List.length_append] at bound
      omega
    have inside : v <:+ t :=
      List.suffix_of_suffix_length_le (within.trans suffix) (List.suffix_append u t) shorter
    exact matches_gap.mpr ⟨w, last.trans inside, later⟩
  · intro later
    exact matches_gap.mpr ⟨u ++ t, List.suffix_refl _, fits.matches later⟩

theorem Fits.finish (fits : Fits front u) :
    Matches (.gap :: (front ++ rest)) u ↔ ∀ w ∈ rest, w = .gap := by
  rw [← matches_empty]
  constructor
  · intro whole
    obtain ⟨s, suffix, whole⟩ := matches_gap.mp whole
    obtain ⟨v, length, -, later⟩ := fits.split whole
    have bound := suffix.length_le
    have empty : v = [] := List.eq_nil_of_length_eq_zero (by omega)
    rwa [empty] at later
  · intro later
    have whole := fits.matches later
    rw [List.append_nil] at whole
    exact matches_gap.mpr ⟨u, List.suffix_refl u, whole⟩

end Wild

end Foundation
