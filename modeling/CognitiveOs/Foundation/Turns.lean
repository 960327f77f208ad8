import Mathlib.Algebra.Order.Group.Nat
import Mathlib.Data.Nat.ModEq

/-!
# Slots with turns

A row of slots is used round and round by two sorts of visitors. Positions are natural numbers,
position `p` belongs to slot `p % slots`, and a slot shows whose turn it is: `p` is the turn of the
filler of position `p`, `p + 1` that of its emptier. A position is claimed first and worked on later,
so that the visitors finish in any order.
-/

namespace Foundation

/-- How many positions fillers and emptiers have claimed, and the turn each slot shows. -/
structure Turns where
  filled : Nat
  emptied : Nat
  turn : Nat → Nat

namespace Turns

def pass (s : Turns) (slot next : Nat) : Turns :=
  { s with turn := fun i => if i = slot then next else s.turn i }

def claimFill (s : Turns) : Turns :=
  { s with filled := s.filled + 1 }

def claimEmpty (s : Turns) : Turns :=
  { s with emptied := s.emptied + 1 }

def initial : Turns :=
  ⟨0, 0, id⟩

@[simp]
theorem turn_pass_self (s : Turns) (slot next : Nat) : (s.pass slot next).turn slot = next := by
  simp [pass]

theorem turn_pass_other (s : Turns) {slot i : Nat} (next : Nat) (other : i ≠ slot) :
    (s.pass slot next).turn i = s.turn i := by
  simp [pass, other]

theorem turn_pass_eq {s : Turns} {slot next i n : Nat} (turn : (s.pass slot next).turn i = n) :
    s.turn i = n ∧ i ≠ slot ∨ n = next ∧ i = slot := by
  by_cases same : i = slot
  · rw [same, turn_pass_self] at turn
    exact Or.inr ⟨turn.symm, same⟩
  · rw [turn_pass_other s next same] at turn
    exact Or.inl ⟨turn, same⟩

theorem turn_le_pass {s : Turns} {slot next : Nat} (later : s.turn slot ≤ next) (i : Nat) :
    s.turn i ≤ (s.pass slot next).turn i := by
  by_cases this : i = slot
  · subst this
    simpa using later
  · rw [turn_pass_other s next this]

/-- A slot waits for the filler of `p`, whose predecessor in the slot has left, or for the emptier
of `p`, whose successor cannot come before it has left. -/
def Waits (s : Turns) (slots slot p : Nat) : Prop :=
  s.turn slot = p ∧ s.emptied ≤ p ∧ p < s.emptied + slots ∨
    s.turn slot = p + 1 ∧ p < s.filled ∧ s.filled ≤ p + slots

/-- Every slot waits for a visitor of one of its own positions, and no more positions are filled and
not emptied than there are slots. -/
structure Sound (s : Turns) (slots : Nat) : Prop where
  several : 2 ≤ slots
  ordered : s.emptied ≤ s.filled
  bounded : s.filled ≤ s.emptied + slots
  waits : ∀ slot < slots, ∃ p, p % slots = slot ∧ s.Waits slots slot p

variable {s : Turns} {slots : Nat}

theorem initial_sound (several : 2 ≤ slots) : initial.Sound slots where
  several := several
  ordered := Nat.le_refl 0
  bounded := Nat.zero_le _
  waits slot inside := by
    refine ⟨slot, Nat.mod_eq_of_lt inside, Or.inl ⟨rfl, Nat.zero_le slot, ?_⟩⟩
    simpa [initial] using inside

theorem round_le {p q : Nat} (same : p % slots = q % slots) (less : p < q) : p + slots ≤ q := by
  have step : slots ∣ q - p := (Nat.modEq_iff_dvd' less.le).mp same
  have := Nat.le_of_dvd (by omega) step
  omega

theorem succ_mod_ne (several : 2 ≤ slots) (p : Nat) : (p + 1) % slots ≠ p % slots := by
  intro same
  have := round_le same.symm (Nat.lt_succ_self p)
  omega

namespace Sound

theorem waits_of (sound : s.Sound slots) (k : Nat) :
    ∃ p, p % slots = k % slots ∧ s.Waits slots (k % slots) p :=
  sound.waits (k % slots) (Nat.mod_lt k (by have := sound.several; omega))

theorem filled_le_turn (sound : s.Sound slots) (k : Nat) : s.filled ≤ s.turn (k % slots) + slots := by
  have bounded := sound.bounded
  obtain ⟨p, -, ⟨shown, _, _⟩ | ⟨shown, _, _⟩⟩ := sound.waits_of k <;> omega

theorem turn_le (sound : s.Sound slots) (k : Nat) : s.turn (k % slots) ≤ s.emptied + slots := by
  have bounded := sound.bounded
  obtain ⟨p, -, ⟨shown, _, _⟩ | ⟨shown, _, _⟩⟩ := sound.waits_of k <;> omega

theorem emptied_le_of_turn (sound : s.Sound slots) {k : Nat} (turn : s.turn (k % slots) = k) : s.emptied ≤ k := by
  obtain ⟨p, same, ⟨shown, low, high⟩ | ⟨shown, low, high⟩⟩ := sound.waits_of k
  · omega
  · refine absurd ?_ (succ_mod_ne sound.several p)
    rw [same]
    congr 1
    omega

theorem filled_le_of_turn (sound : s.Sound slots) {k : Nat} (turn : s.turn (k % slots) = k + 1) :
    s.filled ≤ k + slots := by
  obtain ⟨p, same, ⟨shown, low, high⟩ | ⟨shown, low, high⟩⟩ := sound.waits_of k
  · refine absurd ?_ (succ_mod_ne sound.several k)
    rw [← same]
    congr 1
    omega
  · omega

theorem turn_filled (sound : s.Sound slots) (due : s.filled ≤ s.turn (s.filled % slots)) :
    s.turn (s.filled % slots) = s.filled := by
  have ordered := sound.ordered
  obtain ⟨p, same, ⟨shown, low, high⟩ | ⟨shown, low, high⟩⟩ := sound.waits_of s.filled
  · by_contra other
    have := round_le same.symm (show s.filled < p by omega)
    omega
  · refine absurd ?_ (succ_mod_ne sound.several p)
    rw [same]
    congr 1
    omega

theorem turn_emptied (sound : s.Sound slots) (due : s.emptied + 1 ≤ s.turn (s.emptied % slots)) :
    s.turn (s.emptied % slots) = s.emptied + 1 := by
  have bounded := sound.bounded
  obtain ⟨p, same, ⟨shown, low, high⟩ | ⟨shown, low, high⟩⟩ := sound.waits_of s.emptied
  · have := round_le same.symm (show s.emptied < p by omega)
    omega
  · by_contra other
    have := round_le same.symm (show s.emptied < p by omega)
    omega

/-- A slot whose turn is behind a filler holds it up only at the next position, when every slot is
filled or the emptier one round earlier is still there. -/
theorem filler_held (sound : s.Sound slots) {k : Nat} (claimed : k ≤ s.filled) (behind : s.turn (k % slots) < k) :
    k = s.filled ∧ (s.filled = s.emptied + slots ∨
      ∃ p, p + slots = s.filled ∧ p < s.emptied ∧ s.turn (p % slots) = p + 1) := by
  have ordered := sound.ordered
  have bounded := sound.bounded
  obtain ⟨p, same, ⟨shown, low, high⟩ | ⟨shown, low, high⟩⟩ := sound.waits_of k
  · have := round_le same (show p < k by omega)
    exact ⟨by omega, Or.inl (by omega)⟩
  · have := round_le same (show p < k by omega)
    refine ⟨by omega, ?_⟩
    by_cases left : p < s.emptied
    · exact Or.inr ⟨p, by omega, left, by rw [same, shown]⟩
    · exact Or.inl (by omega)

/-- A slot whose turn is behind an emptier holds it up only at the next position, when nothing is
filled or the filler of the position is still there. -/
theorem emptier_held (sound : s.Sound slots) {k : Nat} (claimed : k ≤ s.emptied)
    (behind : s.turn (k % slots) < k + 1) :
    k = s.emptied ∧ (s.filled = s.emptied ∨ s.emptied < s.filled ∧ s.turn (s.emptied % slots) = s.emptied) := by
  have ordered := sound.ordered
  have bounded := sound.bounded
  obtain ⟨p, same, ⟨shown, low, high⟩ | ⟨shown, low, high⟩⟩ := sound.waits_of k
  · obtain rfl : k = s.emptied := by omega
    refine ⟨rfl, ?_⟩
    rw [shown]
    omega
  · have := round_le same (show p < k by omega)
    exact ⟨by omega, Or.inl (by omega)⟩

theorem claimFill (sound : s.Sound slots) (due : s.turn (s.filled % slots) = s.filled) :
    s.claimFill.Sound slots := by
  have several := sound.several
  have ordered := sound.ordered
  have room : s.filled < s.emptied + slots := by
    obtain ⟨p, same, ⟨shown, low, high⟩ | ⟨shown, low, high⟩⟩ := sound.waits_of s.filled
    · omega
    · refine absurd ?_ (succ_mod_ne several p)
      rw [same]
      congr 1
      omega
  refine ⟨several, Nat.le_succ_of_le ordered, room, fun slot inside => ?_⟩
  obtain ⟨p, same, ⟨shown, low, high⟩ | ⟨shown, low, high⟩⟩ := sound.waits slot inside
  · exact ⟨p, same, Or.inl ⟨shown, low, high⟩⟩
  · refine ⟨p, same, Or.inr ⟨shown, Nat.lt_succ_of_lt low, ?_⟩⟩
    have apart : s.filled ≠ p + slots := by
      intro last
      rw [last, Nat.add_mod_right, same] at due
      omega
    show s.filled + 1 ≤ p + slots
    omega

theorem claimEmpty (sound : s.Sound slots) (due : s.turn (s.emptied % slots) = s.emptied + 1) :
    s.claimEmpty.Sound slots := by
  have several := sound.several
  have bounded := sound.bounded
  have some : s.emptied < s.filled := by
    obtain ⟨p, same, ⟨shown, low, high⟩ | ⟨shown, low, high⟩⟩ := sound.waits_of s.emptied
    · refine absurd ?_ (succ_mod_ne several s.emptied)
      rw [← same]
      congr 1
      omega
    · omega
  refine ⟨several, some, ?_, fun slot inside => ?_⟩
  · show s.filled ≤ s.emptied + 1 + slots
    omega
  obtain ⟨p, same, ⟨shown, low, high⟩ | ⟨shown, low, high⟩⟩ := sound.waits slot inside
  · refine ⟨p, same, Or.inl ⟨shown, ?_, ?_⟩⟩
    · have apart : s.emptied ≠ p := by
        rintro rfl
        rw [same] at due
        omega
      show s.emptied + 1 ≤ p
      omega
    · show p < s.emptied + 1 + slots
      omega
  · exact ⟨p, same, Or.inr ⟨shown, low, high⟩⟩

theorem pass (sound : s.Sound slots) (k : Nat) {next p : Nat} (same : p % slots = k % slots)
    (waits : (s.pass (k % slots) next).Waits slots (k % slots) p) : (s.pass (k % slots) next).Sound slots := by
  refine ⟨sound.several, sound.ordered, sound.bounded, fun slot inside => ?_⟩
  by_cases this : slot = k % slots
  · subst this
    exact ⟨p, same, waits⟩
  · obtain ⟨q, own, waits⟩ := sound.waits slot inside
    refine ⟨q, own, ?_⟩
    unfold Waits at waits ⊢
    rw [turn_pass_other s next this]
    exact waits

theorem fill (sound : s.Sound slots) {k : Nat} (claimed : k < s.filled) (turn : s.turn (k % slots) = k) :
    (s.pass (k % slots) (k + 1)).Sound slots := by
  have bounded := sound.bounded
  have low := sound.emptied_le_of_turn turn
  refine sound.pass k rfl (Or.inr ⟨turn_pass_self _ _ _, claimed, ?_⟩)
  show s.filled ≤ k + slots
  omega

theorem empty (sound : s.Sound slots) {k : Nat} (claimed : k < s.emptied) (turn : s.turn (k % slots) = k + 1) :
    (s.pass (k % slots) (k + slots)).Sound slots := by
  have ordered := sound.ordered
  refine sound.pass k (Nat.add_mod_right k slots) (Or.inl ⟨turn_pass_self _ _ _, ?_, ?_⟩)
  · have high := sound.filled_le_of_turn turn
    show s.emptied ≤ k + slots
    omega
  · show k + slots < s.emptied + slots
    omega

end Sound

end Turns

/-- Each position that is worked on has a worker, and no two workers have one position. -/
structure Workers (position : Nat → Option Nat) (works : Nat → Prop) : Prop where
  apart : ∀ t u k, position t = some k → position u = some k → t = u
  has : ∀ k, works k → ∃ t, position t = some k

namespace Workers

variable {State : Type*} {position : State → Option Nat} {state : Nat → State} {new : State} {works works' : Nat → Prop}
  {t n : Nat}

theorem stay (workers : Workers (position ∘ state) works) (same : position new = position (state t)) :
    Workers (position ∘ Function.update state t new) works := by
  rw [Function.comp_update, same]
  exact (Function.update_eq_self t (position ∘ state)).symm ▸ workers

theorem mono {position : Nat → Option Nat} (workers : Workers position works) (fewer : ∀ k, works' k → works k) :
    Workers position works' :=
  ⟨workers.apart, fun k here => workers.has k (fewer k here)⟩

theorem arrive (workers : Workers (position ∘ state) works) (idle : position (state t) = none)
    (taken : position new = some n) (fresh : ∀ u, position (state u) ≠ some n)
    (more : ∀ k, works' k → works k ∨ k = n) : Workers (position ∘ Function.update state t new) works' := by
  rw [Function.comp_update, taken]
  constructor
  · intro a b k here there
    rw [Function.update_apply] at here there
    split at here <;> split at there
    · omega
    · exact absurd (here ▸ there) (fresh b)
    · exact absurd (there ▸ here) (fresh a)
    · exact workers.apart a b k here there
  · intro k here
    obtain old | rfl := more k here
    · obtain ⟨u, mine⟩ := workers.has k old
      refine ⟨u, ?_⟩
      rw [Function.update_of_ne, mine]
      rintro rfl
      rw [Function.comp_apply, idle] at mine
      cases mine
    · exact ⟨t, Function.update_self t _ _⟩

theorem leave (workers : Workers (position ∘ state) works) (mine : position (state t) = some n)
    (done : position new = none) (fewer : ∀ k, works' k → works k ∧ k ≠ n) :
    Workers (position ∘ Function.update state t new) works' := by
  rw [Function.comp_update, done]
  constructor
  · intro a b k here there
    rw [Function.update_apply] at here there
    split at here
    · cases here
    · split at there
      · cases there
      · exact workers.apart a b k here there
  · intro k here
    obtain ⟨old, other⟩ := fewer k here
    obtain ⟨u, theirs⟩ := workers.has k old
    refine ⟨u, ?_⟩
    rw [Function.update_of_ne, theirs]
    rintro rfl
    exact other (Option.some.inj (theirs.symm.trans mine))

end Workers

end Foundation
