import CognitiveOs.Infra.Text
import Mathlib.Order.Interval.Finset.Nat

/-!
# Repetition in an answer

`answer_has_repetition` of `cognition/reasoning.c`: a scan that guesses a period from an
earlier window with the same hash, follows it byte by byte, and adds up the bytes of the
regions that repeat a block. What it counts is the size of a union of such regions.
-/

namespace CognitiveOs.Cognition.Repetition

open Infra

/-- The 32 bytes at `i`. -/
def window (text : Text) (i : Nat) : Text :=
  (text.drop i).take 32

def windowHash (w : Text) : UInt32 :=
  w.foldl (fun hash byte => (hash ^^^ byte.toUInt32) * 16777619) 2166136261

/-- The `while` loop that follows a period; it stops at the end of the text. -/
def extend (text : Text) (period : Nat) : (rounds : Nat) → (stop : Nat) → Nat
  | 0, stop => stop
  | rounds + 1, stop =>
    if stop < text.length ∧ text[stop]? = text[stop - period]? then extend text period rounds (stop + 1)
    else stop

/-- The variables of the scan besides `i`. -/
structure Scan where
  seen : Nat → Nat := fun _ => 0
  covered : Nat := 0
  coveredEnd : Nat := 0

/-- Count a region; the bytes up to `coveredEnd` have been counted before. -/
def Scan.cover (s : Scan) (start stop : Nat) : Scan :=
  let uncoveredStart := if s.coveredEnd < start then start else s.coveredEnd
  { s with
    covered := if uncoveredStart < stop then s.covered + (stop - uncoveredStart) else s.covered
    coveredEnd := if s.coveredEnd < stop then stop else s.coveredEnd }

/-- The `for` loop from `i` on; `none` when the rounds run out. -/
def scanFrom (text : Text) : (rounds : Nat) → (i : Nat) → Scan → Option Bool
  | 0, _, _ => none
  | rounds + 1, i, s =>
    let n := text.length
    if i + 32 ≤ n then
      let slot := (windowHash (window text i)).toNat % 8192
      let prior := s.seen slot
      let s := { s with seen := Function.update s.seen slot (i + 1) }
      if prior = 0 then scanFrom text rounds (i + 1) s
      else
        let start := prior - 1
        let period := i - start
        if 8192 < period ∨ window text start ≠ window text i then scanFrom text rounds (i + 1) s
        else
          let stop := extend text period (n - (i + 32)) (i + 32)
          let repeated := stop - start
          let counted := if 768 ≤ repeated ∧ 6 ≤ repeated / period then s.cover start stop else s
          if (768 ≤ repeated ∧ 6 ≤ repeated / period) ∧ n - n * 3 % 2 ^ 64 / 5 ≤ counted.covered then some true
          else if 6 ≤ repeated / period then scanFrom text rounds (stop - 32 + 1) counted
          else scanFrom text rounds (i + 1) counted
    else some false

/-- `answer_has_repetition`; `memory` is the outcome of the `calloc`. -/
def answerHasRepetition (text : Text) (memory : Bool) : Option Bool :=
  if text.length < 768 then some false
  else if memory then scanFrom text (text.length + 1) 0 {} else some false

/-! ### Regions -/

/-- A stretch of at least 768 bytes that is a block of at most 8192 bytes over and over, at
least six times. -/
structure Region (text : Text) where
  start : Nat
  stop : Nat
  block : Text
  inside : stop ≤ text.length
  long : start + 768 ≤ stop
  nonempty : 0 < block.length
  short : block.length ≤ 8192
  times : start + 6 * block.length ≤ stop
  cycle : ∀ j, start + j < stop → text[start + j]? = block[j % block.length]?

def coveredBytes {text : Text} (regions : List (Region text)) : Finset Nat :=
  (Finset.range text.length).filter fun p => ∃ r ∈ regions, r.start ≤ p ∧ p < r.stop

variable {text : Text}

theorem le_extend (text : Text) (period rounds stop : Nat) : stop ≤ extend text period rounds stop := by
  induction rounds generalizing stop with
  | zero => exact Nat.le_refl _
  | succ rounds ih =>
    unfold extend
    split
    · exact Nat.le_of_succ_le (ih (stop + 1))
    · exact Nat.le_refl _

theorem extend_spec {period rounds stop : Nat} (inside : stop ≤ text.length) :
    extend text period rounds stop ≤ text.length ∧
      ∀ j, stop ≤ j → j < extend text period rounds stop → text[j]? = text[j - period]? := by
  induction rounds generalizing stop with
  | zero => exact ⟨inside, fun j low high => absurd high (Nat.not_lt.mpr low)⟩
  | succ rounds ih =>
    unfold extend
    split
    next same =>
      obtain ⟨bound, rest⟩ := @ih (stop + 1) same.1
      refine ⟨bound, ?_⟩
      intro j low high
      rcases Nat.eq_or_lt_of_le low with rfl | later
      · exact same.2
      · exact rest j later high
    next => exact ⟨inside, fun j low high => absurd high (Nat.not_lt.mpr low)⟩

theorem window_get {i k : Nat} (inside : k < 32) : (window text i)[k]? = text[i + k]? := by
  rw [window, List.getElem?_take_of_lt inside, List.getElem?_drop]

theorem cycle_of_period {start stop period : Nat} (positive : 0 < period) (first : start + period ≤ stop)
    (inside : stop ≤ text.length) (same : ∀ j, start + period ≤ j → j < stop → text[j]? = text[j - period]?) (j : Nat)
    (bound : start + j < stop) :
    text[start + j]? = ((text.drop start).take period)[j % ((text.drop start).take period).length]? := by
  have length : ((text.drop start).take period).length = period := by
    rw [List.length_take, List.length_drop]
    omega
  rw [length, List.getElem?_take_of_lt (Nat.mod_lt j positive), List.getElem?_drop]
  induction j using Nat.strongRecOn with
  | ind j ih =>
    by_cases within : j < period
    · rw [Nat.mod_eq_of_lt within]
    · have back : start + j - period = start + (j - period) := by omega
      have turn : j % period = (j - period) % period := Nat.mod_eq_sub_mod (by omega)
      rw [same (start + j) (by omega) bound, back, ih (j - period) (by omega) (by omega), turn]

def regionOf (text : Text) (start stop period : Nat) (positive : 0 < period) (small : period ≤ 8192)
    (inside : stop ≤ text.length) (long : 768 ≤ stop - start) (times : 6 ≤ (stop - start) / period)
    (same : ∀ j, start + period ≤ j → j < stop → text[j]? = text[j - period]?) : Region text :=
  have enough : 6 * period ≤ stop - start := by
    have product := Nat.mul_le_of_le_div period 6 (stop - start) times
    exact product
  have length : ((text.drop start).take period).length = period := by
    rw [List.length_take, List.length_drop]
    omega
  { start, stop
    block := (text.drop start).take period
    inside
    long := by omega
    nonempty := by rw [length]; exact positive
    short := by rw [length]; exact small
    times := by rw [length]; omega
    cycle := cycle_of_period positive (by omega) inside same }

/-! ### The scan -/

/-- What the scan keeps: the slots name earlier places, and what is counted is the size of
a union of regions that end by `coveredEnd`. -/
structure Sound (text : Text) (i : Nat) (s : Scan) : Prop where
  earlier : ∀ slot, s.seen slot ≤ i
  counted : ∃ regions : List (Region text), (∀ r ∈ regions, r.stop ≤ s.coveredEnd) ∧
    s.covered ≤ (coveredBytes regions).card

theorem Sound.later {i j : Nat} {s : Scan} (sound : Sound text i s) (order : i ≤ j) : Sound text j s :=
  ⟨fun slot => (sound.earlier slot).trans order, sound.counted⟩

theorem Sound.note {i : Nat} {s : Scan} (sound : Sound text i s) (slot : Nat) :
    Sound text (i + 1) { s with seen := Function.update s.seen slot (i + 1) } where
  earlier := by
    intro other
    simp only [Function.update_apply]
    split
    · exact Nat.le_refl _
    · exact Nat.le_succ_of_le (sound.earlier other)
  counted := sound.counted

theorem card_coveredBytes_cons {regions : List (Region text)} {coveredEnd : Nat}
    (before : ∀ r ∈ regions, r.stop ≤ coveredEnd) (r : Region text) :
    (coveredBytes regions).card + (r.stop - max r.start coveredEnd) ≤ (coveredBytes (r :: regions)).card := by
  have apart : Disjoint (coveredBytes regions) (Finset.Ico (max r.start coveredEnd) r.stop) := by
    rw [Finset.disjoint_left]
    intro p old new
    obtain ⟨-, other, member, -, below⟩ := Finset.mem_filter.mp old
    have bound := before other member
    have above := (Finset.mem_Ico.mp new).1
    omega
  have part : coveredBytes regions ∪ Finset.Ico (max r.start coveredEnd) r.stop ⊆ coveredBytes (r :: regions) := by
    intro p member
    rcases Finset.mem_union.mp member with old | new
    · obtain ⟨inside, other, present, range⟩ := Finset.mem_filter.mp old
      exact Finset.mem_filter.mpr ⟨inside, other, List.mem_cons_of_mem _ present, range⟩
    · obtain ⟨low, high⟩ := Finset.mem_Ico.mp new
      have bound := r.inside
      exact Finset.mem_filter.mpr ⟨Finset.mem_range.mpr (by omega), r, List.mem_cons_self, by omega, high⟩
  calc (coveredBytes regions).card + (r.stop - max r.start coveredEnd)
      = (coveredBytes regions ∪ Finset.Ico (max r.start coveredEnd) r.stop).card := by
        rw [Finset.card_union_of_disjoint apart, Nat.card_Ico]
    _ ≤ (coveredBytes (r :: regions)).card := Finset.card_le_card part

theorem Sound.cover {i : Nat} {s : Scan} (sound : Sound text i s) (r : Region text) :
    Sound text i (s.cover r.start r.stop) where
  earlier := sound.earlier
  counted := by
    obtain ⟨regions, before, counted⟩ := sound.counted
    have more := card_coveredBytes_cons before r
    refine ⟨r :: regions, ?_, ?_⟩
    · intro other member
      unfold Scan.cover
      simp only
      rcases List.mem_cons.mp member with rfl | old
      · split <;> omega
      · have := before other old
        split <;> omega
    · unfold Scan.cover
      simp only
      split <;> split <;> omega

theorem followed_period {i start : Nat} (order : start < i) (room : i + 32 ≤ text.length)
    (windows : window text start = window text i) (rounds : Nat) :
    let stop := extend text (i - start) rounds (i + 32)
    stop ≤ text.length ∧ i + 32 ≤ stop ∧
      ∀ j, start + (i - start) ≤ j → j < stop → text[j]? = text[j - (i - start)]? := by
  intro stop
  obtain ⟨inside, rest⟩ := @extend_spec text (i - start) rounds (i + 32) room
  refine ⟨inside, le_extend text _ _ _, ?_⟩
  intro j low high
  by_cases first : j < i + 32
  · have place : j - i < 32 := by omega
    have left : (window text start)[j - i]? = text[j - (i - start)]? := by
      rw [window_get place]
      congr 1
      omega
    have right : (window text i)[j - i]? = text[j]? := by
      rw [window_get place]
      congr 1
      omega
    rw [← left, ← right, windows]
  · exact rest j (by omega) high

def MostlyRepeats (text : Text) : Prop :=
  ∃ regions : List (Region text), 2 * text.length ≤ 5 * (coveredBytes regions).card

theorem mostlyRepeats_of_counted {i : Nat} {s : Scan} (sound : Sound text i s)
    (enough : text.length - text.length * 3 % 2 ^ 64 / 5 ≤ s.covered) : MostlyRepeats text := by
  obtain ⟨regions, -, counted⟩ := sound.counted
  refine ⟨regions, ?_⟩
  have wrapped : text.length * 3 % 2 ^ 64 ≤ text.length * 3 := Nat.mod_le _ _
  omega

theorem scanFrom_sound {rounds i : Nat} {s : Scan} (some : 0 < rounds) (enough : text.length < rounds + i)
    (sound : Sound text i s) :
    ∃ found, scanFrom text rounds i s = .some found ∧ (found = true → MostlyRepeats text) := by
  induction rounds generalizing i s with
  | zero => omega
  | succ rounds ih =>
    unfold scanFrom
    simp only
    split
    next room =>
      generalize (windowHash (window text i)).toNat % 8192 = slot
      have noted := sound.note slot
      have earlier := sound.earlier slot
      generalize s.seen slot = prior at earlier ⊢
      generalize { s with seen := Function.update s.seen slot (i + 1) } = s' at noted ⊢
      split
      next => exact ih (by omega) (by omega) noted
      next occurs =>
        split
        next => exact ih (by omega) (by omega) noted
        next candidate =>
          have small : i - (prior - 1) ≤ 8192 := by omega
          have windows : window text (prior - 1) = window text i := by
            by_contra differ
            exact candidate (.inr differ)
          obtain ⟨inside, advances, same⟩ := followed_period (by omega : prior - 1 < i) room windows
            (text.length - (i + 32))
          generalize extend text (i - (prior - 1)) (text.length - (i + 32)) (i + 32) = stop at inside advances same ⊢
          have counted : Sound text (i + 1)
              (if 768 ≤ stop - (prior - 1) ∧ 6 ≤ (stop - (prior - 1)) / (i - (prior - 1)) then
                s'.cover (prior - 1) stop else s') := by
            split
            next repeats =>
              exact noted.cover (regionOf text (prior - 1) stop (i - (prior - 1)) (by omega) small inside
                repeats.1 repeats.2 same)
            next => exact noted
          generalize (if 768 ≤ stop - (prior - 1) ∧ 6 ≤ (stop - (prior - 1)) / (i - (prior - 1)) then
                s'.cover (prior - 1) stop else s') = s'' at counted ⊢
          split
          next reported => exact ⟨true, rfl, fun _ => mostlyRepeats_of_counted counted reported.2⟩
          next =>
            split
            next => exact ih (by omega) (by omega) (counted.later (by omega))
            next => exact ih (by omega) (by omega) counted
    next done => exact ⟨false, rfl, fun absurd => by cases absurd⟩

/-- `answer_has_repetition` returns on every text, and reports repetition only where at least
two fifths of the bytes lie in regions that repeat a block. -/
theorem answer_has_repetition_sound (text : Text) (memory : Bool) :
    ∃ found, answerHasRepetition text memory = some found ∧ (found = true → MostlyRepeats text) := by
  unfold answerHasRepetition
  split
  · exact ⟨false, rfl, fun absurd => by cases absurd⟩
  · split
    · refine scanFrom_sound (Nat.succ_pos _) (by omega) ⟨fun _ => Nat.le_refl _, [], ?_, Nat.zero_le _⟩
      intro r member
      cases member
    · exact ⟨false, rfl, fun absurd => by cases absurd⟩

end CognitiveOs.Cognition.Repetition
