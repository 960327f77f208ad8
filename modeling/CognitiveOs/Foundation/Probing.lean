import Mathlib.Algebra.Group.Nat.Defs
import Mathlib.Data.List.Basic
import Mathlib.Data.Nat.Find

/-!
# Open addressing

A table of slots that is searched from the home of a content on, slot by slot and around the end.
A content stands behind its home, and every slot from there on to it is taken.
-/

namespace Foundation.Probing

variable {α : Type} {slots : List (Option α)} {home : α → Nat} {next : Nat → Nat} {stop : Option α → Bool}
  {start p : Nat}

/-- The first slot from `slot` on whose content stops the search. -/
def seek (next : Nat → Nat) (stop : Option α → Bool) (slots : List (Option α)) : (rounds slot : Nat) → Option Nat
  | 0, _ => none
  | rounds + 1, slot =>
    match slots[slot]? with
    | some content => if stop content then some slot else seek next stop slots rounds (next slot)
    | none => none

def behind (slots : List (Option α)) (start d : Nat) : Nat :=
  (start + d) % slots.length

def Steps (next : Nat → Nat) (slots : List (Option α)) : Prop :=
  ∀ slot < slots.length, next slot = (slot + 1) % slots.length

/-- Every slot from `start` on to `p` is taken. -/
def Reaches (slots : List (Option α)) (start p : Nat) : Prop :=
  ∃ d < slots.length, behind slots start d = p ∧ ∀ e < d, ∃ a, slots[behind slots start e]? = some (some a)

def Placed (home : α → Nat) (slots : List (Option α)) : Prop :=
  ∀ p a, slots[p]? = some (some a) → Reaches slots (home a) p

theorem behind_lt (some : 0 < slots.length) (start d : Nat) : behind slots start d < slots.length :=
  Nat.mod_lt _ some

theorem behind_zero (small : start < slots.length) : behind slots start 0 = start :=
  Nat.mod_eq_of_lt small

theorem behind_succ (steps : Steps next slots) (small : start < slots.length) (d : Nat) :
    behind slots (next start) d = behind slots start (d + 1) := by
  rw [behind, behind, steps start small, Nat.mod_add_mod]
  congr 1
  omega

theorem exists_behind (small : start < slots.length) (inside : p < slots.length) :
    ∃ d < slots.length, behind slots start d = p := by
  rcases Nat.lt_or_ge p start with before | after
  · refine ⟨p + slots.length - start, by omega, ?_⟩
    rw [behind, show start + (p + slots.length - start) = p + slots.length by omega, Nat.add_mod_right,
      Nat.mod_eq_of_lt inside]
  · refine ⟨p - start, by omega, ?_⟩
    rw [behind, show start + (p - start) = p by omega, Nat.mod_eq_of_lt inside]

theorem seek_eq (steps : Steps next slots) (small : start < slots.length) {d rounds : Nat} (enough : d < rounds)
    {content : Option α} (here : slots[behind slots start d]? = some content) (stops : stop content = true)
    (passed : ∀ e < d, ∃ content, slots[behind slots start e]? = some content ∧ stop content = false) :
    seek next stop slots rounds start = some (behind slots start d) := by
  induction d generalizing start rounds with
  | zero =>
    obtain ⟨rounds, rfl⟩ := Nat.exists_eq_add_of_lt enough
    rw [behind_zero small] at here ⊢
    simp [seek, here, stops]
  | succ d ih =>
    obtain ⟨rounds, rfl⟩ : ∃ more, rounds = more + 1 := ⟨rounds - 1, by omega⟩
    obtain ⟨first, at_first, goes⟩ := passed 0 (Nat.succ_pos d)
    rw [behind_zero small] at at_first
    have inside : next start < slots.length := by
      rw [steps start small]
      exact Nat.mod_lt _ (Nat.zero_lt_of_lt small)
    have later := @ih (next start) inside rounds (by omega) (by rw [behind_succ steps small]; exact here)
      (by
        intro e less
        rw [behind_succ steps small]
        exact passed (e + 1) (by omega))
    rw [behind_succ steps small] at later
    simpa [seek, at_first, goes] using later

theorem seek_first (steps : Steps next slots) (small : start < slots.length) {content : Option α}
    (here : slots[p]? = some content) (stops : stop content = true) :
    ∃ d < slots.length, seek next stop slots slots.length start = some (behind slots start d) ∧
      (∃ content, slots[behind slots start d]? = some content ∧ stop content = true) ∧
      ∀ e < d, ∃ content, slots[behind slots start e]? = some content ∧ stop content = false := by
  classical
  have inside : p < slots.length := (List.getElem?_eq_some_iff.mp here).1
  obtain ⟨far, near, rfl⟩ := exists_behind small inside
  have found : ∃ d, ∃ content, slots[behind slots start d]? = some content ∧ stop content = true :=
    ⟨far, content, here, stops⟩
  obtain ⟨content', here', stops'⟩ := Nat.find_spec found
  have first : ∀ e < Nat.find found, ∃ content, slots[behind slots start e]? = some content ∧ stop content = false := by
    intro e less
    have bound := behind_lt (Nat.zero_lt_of_lt small) start e
    refine ⟨slots[behind slots start e], List.getElem?_eq_getElem bound, ?_⟩
    have goes := Nat.find_min found less
    rw [List.getElem?_eq_getElem bound] at goes
    simpa using goes
  have low : Nat.find found < slots.length := Nat.lt_of_le_of_lt (Nat.find_min' found ⟨content, here, stops⟩) near
  exact ⟨Nat.find found, low, seek_eq steps small low here' stops' first, ⟨content', here', stops'⟩, first⟩

def sought (is : α → Bool) : Option α → Bool
  | none => true
  | some a => is a

theorem seek_sought (steps : Steps next slots) (small : start < slots.length) (placed : Placed home slots)
    (room : none ∈ slots) {is : α → Bool} (homes : ∀ a, is a = true → home a = start) :
    ∃ p, seek next (sought is) slots slots.length start = some p ∧
      (slots[p]? = some none ∧ (∀ a, some a ∈ slots → is a = false) ∨
        ∃ a, slots[p]? = some (some a) ∧ is a = true) := by
  obtain ⟨free, empty⟩ := List.mem_iff_getElem?.mp room
  obtain ⟨d, -, found, ⟨content, here, stops⟩, passed⟩ :=
    @seek_first _ _ _ (sought is) _ free steps small none empty rfl
  refine ⟨_, found, ?_⟩
  cases content with
  | some a => exact .inr ⟨a, here, stops⟩
  | none =>
    refine .inl ⟨here, ?_⟩
    intro a member
    by_contra one
    have one : is a = true := by simpa using one
    obtain ⟨q, there⟩ := List.mem_iff_getElem?.mp member
    obtain ⟨d', -, rfl, taken⟩ := placed q a there
    rw [homes a one] at there taken
    rcases Nat.lt_trichotomy d d' with less | rfl | more
    · obtain ⟨b, taken⟩ := taken d less
      rw [here] at taken
      cases taken
    · rw [here] at there
      cases there
    · obtain ⟨content, at_content, goes⟩ := passed d' more
      rw [there] at at_content
      cases at_content
      exact absurd goes (by simp [sought, one])

theorem seek_free (steps : Steps next slots) (small : start < slots.length) (room : none ∈ slots) :
    ∃ p, seek next Option.isNone slots slots.length start = some p ∧ slots[p]? = some none ∧ Reaches slots start p := by
  obtain ⟨free, empty⟩ := List.mem_iff_getElem?.mp room
  obtain ⟨d, low, found, ⟨content, here, stops⟩, passed⟩ :=
    @seek_first _ _ _ Option.isNone _ free steps small none empty rfl
  refine ⟨_, found, by rw [here, Option.isNone_iff_eq_none.mp stops], d, low, rfl, ?_⟩
  intro e less
  obtain ⟨content, at_content, goes⟩ := passed e less
  cases content with
  | none => cases goes
  | some a => exact ⟨a, at_content⟩

theorem Reaches.set (reaches : Reaches slots start p) {q : Nat} (a : α) : Reaches (slots.set q (some a)) start p := by
  obtain ⟨d, low, here, taken⟩ := reaches
  refine ⟨d, by simpa using low, by simpa [behind] using here, ?_⟩
  intro e less
  obtain ⟨b, at_b⟩ := taken e less
  have same : behind (slots.set q (some a)) start e = behind slots start e := by simp [behind]
  rw [same, List.getElem?_set]
  split
  · split
    · exact ⟨a, rfl⟩
    next outside =>
      have inside := (List.getElem?_eq_some_iff.mp at_b).1
      omega
  · exact ⟨b, at_b⟩

theorem Placed.set (placed : Placed home slots) {a : α} (reaches : Reaches slots (home a) p) :
    Placed home (slots.set p (some a)) := by
  intro q b here
  rw [List.getElem?_set] at here
  split at here
  next same =>
    split at here
    next =>
      cases here
      exact same ▸ reaches.set a
    next => cases here
  next => exact (placed q b here).set a

theorem placed_replicate (home : α → Nat) (n : Nat) : Placed home (List.replicate n none) := by
  intro p a here
  rw [List.getElem?_replicate] at here
  split at here <;> cases here

/-! ### Masks -/

section Mask

variable {slots : List (Option α)} {k : Nat}

theorem mask_lt (length : slots.length = 2 ^ k) (hash : Nat) : hash &&& (slots.length - 1) < slots.length := by
  rw [length, Nat.and_two_pow_sub_one_eq_mod]
  exact Nat.mod_lt _ (Nat.two_pow_pos k)

theorem mask_steps (length : slots.length = 2 ^ k) : Steps (fun slot => (slot + 1) &&& (slots.length - 1)) slots := by
  intro slot _
  dsimp only
  rw [length, Nat.and_two_pow_sub_one_eq_mod]

end Mask

/-! ### A table of numbers -/

/-- The slots hold the numbers below `n`, each once and behind its home. -/
structure Numbered (home : Nat → Nat) (slots : List (Option Nat)) (n : Nat) : Prop where
  holds : ∀ i, some i ∈ slots ↔ i < n
  taken : slots.countP Option.isSome = n
  placed : Placed home slots

section Numbered

variable {home : Nat → Nat} {slots : List (Option Nat)} {n : Nat}

theorem numbered_replicate (home : Nat → Nat) (size : Nat) : Numbered home (List.replicate size none) 0 where
  holds := by simp [List.mem_replicate]
  taken := by
    rw [List.countP_eq_zero]
    intro slot member
    rw [List.eq_of_mem_replicate member]
    simp
  placed := placed_replicate home size

theorem Numbered.congr {home' : Nat → Nat} (numbered : Numbered home slots n) (same : ∀ i < n, home i = home' i) :
    Numbered home' slots n where
  holds := numbered.holds
  taken := numbered.taken
  placed := by
    intro p i here
    rw [← same i ((numbered.holds i).mp (List.mem_iff_getElem?.mpr ⟨p, here⟩))]
    exact numbered.placed p i here

theorem Numbered.free (numbered : Numbered home slots n) (room : n < slots.length) : none ∈ slots := by
  by_contra full
  have all : ∀ slot ∈ slots, slot.isSome = true := by
    intro slot member
    cases slot with
    | none => exact absurd member full
    | some i => rfl
  have taken := numbered.taken
  rw [List.countP_eq_length.mpr all] at taken
  omega

theorem Numbered.insert (numbered : Numbered home slots n) (steps : Steps next slots) (small : home n < slots.length)
    (room : n < slots.length) :
    ∃ slot, seek next Option.isNone slots slots.length (home n) = some slot ∧
      Numbered home (slots.set slot (some n)) (n + 1) := by
  obtain ⟨slot, found, free, reaches⟩ := seek_free steps small (numbered.free room)
  have inside : slot < slots.length := (List.getElem?_eq_some_iff.mp free).1
  refine ⟨slot, found, ?_, ?_, numbered.placed.set reaches⟩
  · intro i
    constructor
    · intro member
      rcases List.mem_or_eq_of_mem_set member with old | new
      · exact Nat.lt_succ_of_lt ((numbered.holds i).mp old)
      · cases new
        exact Nat.lt_succ_self _
    · intro less
      rcases Nat.lt_succ_iff_lt_or_eq.mp less with old | rfl
      · obtain ⟨p, at_p⟩ := List.mem_iff_getElem?.mp ((numbered.holds i).mpr old)
        refine List.mem_iff_getElem?.mpr ⟨p, ?_⟩
        rw [List.getElem?_set_ne, at_p]
        rintro rfl
        rw [free] at at_p
        cases at_p
      · exact List.mem_set inside _
  · have empty : slots[slot] = none := by
      rw [List.getElem?_eq_getElem inside] at free
      exact Option.some.inj free
    rw [List.countP_set inside, empty, numbered.taken]
    simp

theorem Numbered.find (numbered : Numbered home slots n) (steps : Steps next slots) (small : start < slots.length)
    (room : n < slots.length) {is : Nat → Bool} (homes : ∀ i, is i = true → home i = start) :
    ∃ p content, seek next (sought is) slots slots.length start = some p ∧ slots[p]? = some content ∧
      (∀ i, content = some i → i < n ∧ is i = true) ∧ (content = none → ∀ i < n, is i = false) := by
  obtain ⟨p, found, outcome⟩ := seek_sought steps small numbered.placed (numbered.free room) homes
  rcases outcome with ⟨free, absent⟩ | ⟨i, taken, one⟩
  · exact ⟨p, none, found, free, nofun, fun _ i less => absent i ((numbered.holds i).mpr less)⟩
  · refine ⟨p, some i, found, taken, ?_, nofun⟩
    rintro j ⟨⟩
    exact ⟨(numbered.holds i).mp (List.mem_iff_getElem?.mpr ⟨p, taken⟩), one⟩

end Numbered

end Foundation.Probing
