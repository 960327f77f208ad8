import CognitiveOs.Infra.Scan
import Mathlib.Data.List.Basic

/-!
# Salvaging truncated plans

`salvage_truncated_array` of `cognition/planner.c` on the text of an array of objects that is
cut off anywhere.
-/

namespace CognitiveOs.Cognition.Planner

open Infra

/-! ### The scanner -/

/-- Where a scan is: how deep in brackets, and whether inside a string or an escape. -/
structure Scan where
  depth : Int := 0
  inStr : Bool := false
  esc : Bool := false
  deriving DecidableEq

namespace Scan

def step (s : Scan) (c : UInt8) : Scan :=
  if s.inStr then
    if s.esc then { s with esc := false }
    else if c = 92 then { s with esc := true }
    else if c = 34 then { s with inStr := false }
    else s
  else if c = 34 then { s with inStr := true }
  else if c = 91 ∨ c = 123 then { s with depth := s.depth + 1 }
  else if c = 93 ∨ c = 125 then { s with depth := s.depth - 1 }
  else s

theorem step_brace {s : Scan} (outside : s.inStr = false) : s.step 125 = { s with depth := s.depth - 1 } := by
  simp [step, outside]

def closes (s : Scan) (c : UInt8) : Bool :=
  !s.inStr && c = 125 && (s.step c).depth = 1

end Scan

def scanEnd : Scan → Nat → Option Nat → Text → Option Nat
  | _, _, found, [] => found
  | s, i, found, c :: rest =>
    scanEnd (s.step c) (i + 1) (if s.closes c then some (i + 1) else found) rest

def arrayStart (plan : Text) : Option Text :=
  match strstr [91, 123] plan with
  | some start => some start
  | none => strstr [91] plan

def salvageTruncatedArray (plan : Text) : Option Text :=
  match arrayStart (cstr plan) with
  | none => none
  | some start => (scanEnd {} 0 none start).map fun n => start.take n ++ [93]

/-! ### Arrays of objects -/

def isWhite (c : UInt8) : Bool :=
  c = 32 || c = 9 || c = 10 || c = 13

def White (s : Text) : Prop :=
  ∀ c ∈ s, isWhite c = true

instance (s : Text) : Decidable (White s) :=
  inferInstanceAs (Decidable (∀ c ∈ s, isWhite c = true))

inductive StringBody : Text → Prop where
  | nil : StringBody []
  | char {c : UInt8} {s : Text} : c ≠ 0 → c ≠ 34 → c ≠ 92 → StringBody s → StringBody (c :: s)
  | escape {c : UInt8} {s : Text} : c ≠ 0 → StringBody s → StringBody (92 :: c :: s)

/-- Text between brackets, such as the members of any JSON object: every bracket in it is closed,
and every string. -/
inductive Balanced : Text → Prop where
  | nil : Balanced []
  | char {c : UInt8} {s : Text} : c ∉ ([0, 34, 91, 93, 123, 125] : Text) → Balanced s → Balanced (c :: s)
  | string {raw s : Text} : StringBody raw → Balanced s → Balanced (34 :: (raw ++ 34 :: s))
  | array {inner s : Text} : Balanced inner → Balanced s → Balanced (91 :: (inner ++ 93 :: s))
  | object {inner s : Text} : Balanced inner → Balanced s → Balanced (123 :: (inner ++ 125 :: s))

structure Piece where
  before : Text
  inner : Text
  after : Text
  white : White before ∧ White after
  balanced : Balanced inner

namespace Piece

def body (p : Piece) : Text :=
  123 :: (p.inner ++ [125])

def text (p : Piece) : Text :=
  p.before ++ (p.body ++ p.after)

end Piece

def itemsText : List Piece → Text
  | [] => []
  | [p] => p.text
  | p :: q :: ps => p.text ++ 44 :: itemsText (q :: ps)

def keptText : List Piece → Text
  | [] => []
  | [p] => p.before ++ p.body
  | p :: q :: ps => p.text ++ 44 :: keptText (q :: ps)

structure Layout where
  lead : Text
  pieces : List Piece
  gap : Text
  trail : Text
  white : White lead ∧ White gap ∧ White trail

def Layout.text (t : Layout) : Text :=
  t.lead ++ 91 :: (itemsText t.pieces ++ (t.gap ++ 93 :: t.trail))

/-- How many objects are complete in the first `n` bytes behind the bracket. -/
def complete : List Piece → Nat → Nat
  | [], _ => 0
  | p :: ps, n => if p.before.length + p.body.length ≤ n then complete ps (n - (p.text.length + 1)) + 1 else 0

/-- The first `n` bytes are salvaged to the complete objects of the array, or to nothing. -/
def Salvages (t : Layout) (n : Nat) : Prop :=
  salvageTruncatedArray (t.text.take n) = none ∨
    ∃ k, k = complete t.pieces (n - (t.lead.length + 1)) ∧ 0 < k ∧
      salvageTruncatedArray (t.text.take n) = some (91 :: (keptText (t.pieces.take k) ++ [93]))

/-! ### Scanning what is written -/

section Scanning

variable {i n : Nat} {found : Option Nat} {depth : Int} {y : Text}

theorem scanEnd_char {c : UInt8} (plain : c ∉ ([34, 91, 93, 123, 125] : Text)) :
    scanEnd { depth } i found (c :: y) = scanEnd { depth } (i + 1) found y := by
  simp only [List.mem_cons, List.not_mem_nil, or_false, not_or] at plain
  have same : Scan.step { depth } c = { depth } := by simp [Scan.step, plain]
  rw [scanEnd, same]
  simp [Scan.closes, plain]

theorem scanEnd_plain {t : Text} (plain : ∀ c ∈ t, c ∉ ([34, 91, 93, 123, 125] : Text)) :
    scanEnd { depth } i found ((t ++ y).take n) =
      scanEnd { depth } (i + min n t.length) found (y.take (n - t.length)) := by
  induction t generalizing i n with
  | nil => simp
  | cons c t ih =>
    cases n with
    | zero => simp [scanEnd]
    | succ n =>
      rw [List.cons_append, List.take_succ_cons, scanEnd_char (plain c List.mem_cons_self),
        ih fun d member => plain d (List.mem_cons_of_mem c member)]
      simp only [List.length_cons]
      congr 1
      · omega
      · congr 1
        omega

theorem scanEnd_string {raw : Text} (body : StringBody raw) :
    scanEnd { depth, inStr := true } i found ((raw ++ 34 :: y).take n) =
      if n ≤ raw.length then found
      else scanEnd { depth } (i + raw.length + 1) found (y.take (n - (raw.length + 1))) := by
  induction body generalizing i n with
  | nil =>
    cases n with
    | zero => simp [scanEnd]
    | succ n => simp [scanEnd, Scan.step, Scan.closes]
  | @char c s _ quote slash _ ih =>
    cases n with
    | zero => simp [scanEnd]
    | succ n =>
      have same : Scan.step { depth, inStr := true } c = { depth, inStr := true } := by
        simp [Scan.step, quote, slash]
      rw [List.cons_append, List.take_succ_cons, scanEnd, same]
      simp only [Scan.closes, Bool.not_true, Bool.false_and, Bool.false_eq_true, if_false, ih,
        List.length_cons, Nat.succ_le_succ_iff]
      split
      · rfl
      · congr 1
        · omega
        · congr 1
          omega
  | @escape c s _ _ ih =>
    match n with
    | 0 => simp [scanEnd]
    | 1 => simp [scanEnd, Scan.step, Scan.closes]
    | n + 2 =>
      have first : Scan.step { depth, inStr := true } 92 = { depth, inStr := true, esc := true } := by
        simp [Scan.step]
      have second : Scan.step { depth, inStr := true, esc := true } c = { depth, inStr := true } := by
        simp [Scan.step]
      rw [List.cons_append, List.cons_append, List.take_succ_cons, List.take_succ_cons, scanEnd, first,
        scanEnd, second]
      simp only [Scan.closes, Bool.not_true, Bool.false_and, Bool.false_eq_true, if_false, ih,
        List.length_cons, Nat.succ_le_succ_iff]
      split
      · rfl
      · congr 1
        · omega
        · congr 1
          omega

theorem scanEnd_bracket {left right : UInt8} {inner t : Text} (deep : 2 ≤ depth)
    (opens : Scan.step { depth } left = { depth := depth + 1 }) (brace : left ≠ 125)
    (shuts : Scan.step { depth := depth + 1 } right = { depth })
    (within : ∀ (i n : Nat) (y : Text), scanEnd { depth := depth + 1 } i found ((inner ++ y).take n) =
      scanEnd { depth := depth + 1 } (i + min n inner.length) found (y.take (n - inner.length)))
    (later : ∀ (i n : Nat), scanEnd { depth } i found ((t ++ y).take n) =
      scanEnd { depth } (i + min n t.length) found (y.take (n - t.length))) :
    scanEnd { depth } i found ((left :: (inner ++ right :: t) ++ y).take n) =
      scanEnd { depth } (i + min n (left :: (inner ++ right :: t)).length) found
        (y.take (n - (left :: (inner ++ right :: t)).length)) := by
  have shape : left :: (inner ++ right :: t) ++ y = left :: (inner ++ right :: (t ++ y)) := by simp
  have length : (left :: (inner ++ right :: t)).length = inner.length + t.length + 2 := by
    simp only [List.length_cons, List.length_append]
    omega
  rw [shape, length]
  cases n with
  | zero => simp [scanEnd]
  | succ n =>
    have first : Scan.closes { depth } left = false := by simp [Scan.closes, brace]
    rw [List.take_succ_cons, scanEnd, opens, first, if_neg Bool.false_ne_true, within]
    rcases Nat.eq_zero_or_pos (n - inner.length) with cut | more
    · have past : n + 1 - (inner.length + t.length + 2) = 0 := by omega
      rw [cut, past]
      rfl
    · obtain ⟨m, rest⟩ : ∃ m, n - inner.length = m + 1 := ⟨n - inner.length - 1, by omega⟩
      have last : Scan.closes { depth := depth + 1 } right = false := by
        have other : depth ≠ 1 := by omega
        simp [Scan.closes, shuts, other]
      rw [rest, List.take_succ_cons, scanEnd, shuts, last, if_neg Bool.false_ne_true, later]
      congr 1
      · omega
      · congr 1
        omega

theorem scanEnd_balanced {t : Text} (balanced : Balanced t) (deep : 2 ≤ depth) :
    scanEnd { depth } i found ((t ++ y).take n) =
      scanEnd { depth } (i + min n t.length) found (y.take (n - t.length)) := by
  induction balanced generalizing i n depth y with
  | nil => simp
  | @char c s plain _ ih =>
    cases n with
    | zero => simp [scanEnd]
    | succ n =>
      have plain : c ∉ ([34, 91, 93, 123, 125] : Text) := fun member => plain (List.mem_cons_of_mem 0 member)
      rw [List.cons_append, List.take_succ_cons, scanEnd_char plain, ih deep]
      simp only [List.length_cons]
      congr 1
      · omega
      · congr 1
        omega
  | @string raw s body _ ih =>
    have shape : 34 :: (raw ++ 34 :: s) ++ y = 34 :: (raw ++ 34 :: (s ++ y)) := by simp
    have length : (34 :: (raw ++ 34 :: s)).length = raw.length + s.length + 2 := by
      simp only [List.length_cons, List.length_append]
      omega
    rw [shape, length]
    cases n with
    | zero => simp [scanEnd]
    | succ n =>
      have quote : Scan.step { depth } 34 = { depth, inStr := true } := by simp [Scan.step]
      have first : Scan.closes { depth } 34 = false := by simp [Scan.closes]
      rw [List.take_succ_cons, scanEnd, quote, first, if_neg Bool.false_ne_true, scanEnd_string body]
      split
      · have past : n + 1 - (raw.length + s.length + 2) = 0 := by omega
        rw [past]
        rfl
      · rw [ih deep]
        congr 1
        · omega
        · congr 1
          omega
  | @array inner s _ _ within later =>
    apply scanEnd_bracket deep
    · simp [Scan.step]
    · decide
    · simp [Scan.step]
    · exact fun i n y => within (by omega)
    · exact fun i n => later deep
  | @object inner s _ _ within later =>
    apply scanEnd_bracket deep
    · simp [Scan.step]
    · decide
    · simp [Scan.step]
    · exact fun i n y => within (by omega)
    · exact fun i n => later deep

theorem scanEnd_body (p : Piece) :
    scanEnd { depth := 1 } i found ((p.body ++ y).take n) =
      if n < p.body.length then found
      else scanEnd { depth := 1 } (i + p.body.length) (some (i + p.body.length)) (y.take (n - p.body.length)) := by
  have shape : p.body ++ y = 123 :: (p.inner ++ 125 :: y) := by simp [Piece.body]
  have length : p.body.length = p.inner.length + 2 := by simp [Piece.body]
  rw [shape, length]
  cases n with
  | zero => simp [scanEnd]
  | succ n =>
    have opens : Scan.step { depth := 1 } 123 = { depth := 2 } := by decide
    have first : Scan.closes { depth := 1 } 123 = false := by decide
    rw [List.take_succ_cons, scanEnd, opens, first, if_neg Bool.false_ne_true,
      scanEnd_balanced p.balanced (by decide)]
    rcases Nat.eq_zero_or_pos (n - p.inner.length) with cut | more
    · rw [cut, if_pos (by omega)]
      rfl
    · obtain ⟨m, rest⟩ : ∃ m, n - p.inner.length = m + 1 := ⟨n - p.inner.length - 1, by omega⟩
      have shuts : Scan.step { depth := 2 } 125 = { depth := 1 } := by decide
      have last : Scan.closes { depth := 2 } 125 = true := by decide
      have place : i + 1 + min n p.inner.length + 1 = i + (p.inner.length + 2) := by omega
      have left : n + 1 - (p.inner.length + 2) = m := by omega
      rw [rest, List.take_succ_cons, scanEnd, shuts, last, if_pos rfl, place, left, if_neg (by omega)]

end Scanning

theorem White.plain {s : Text} (white : White s) : ∀ c ∈ s, c ∉ ([34, 91, 93, 123, 125] : Text) := by
  intro c member special
  have blank := white c member
  simp only [List.mem_cons, List.not_mem_nil, or_false] at special
  rcases special with rfl | rfl | rfl | rfl | rfl <;> exact absurd blank (by decide)

section Items

variable {i n : Nat} {found : Option Nat}

theorem scanEnd_rest (t : Layout) :
    scanEnd { depth := 1 } i found ((t.gap ++ 93 :: t.trail).take n) = found := by
  rw [scanEnd_plain t.white.2.1.plain]
  cases n - t.gap.length with
  | zero => rfl
  | succ m =>
    have shuts : Scan.step { depth := 1 } 93 = { depth := 0 } := by decide
    have first : Scan.closes { depth := 1 } 93 = false := by decide
    have trail := @scanEnd_plain (i + min n t.gap.length + 1) m found 0 [] t.trail t.white.2.2.plain
    rw [List.append_nil] at trail
    rw [List.take_succ_cons, scanEnd, shuts, first, if_neg Bool.false_ne_true, trail, List.take_nil]
    rfl

theorem scanEnd_piece (p : Piece) (z : Text) :
    scanEnd { depth := 1 } i found ((p.text ++ z).take n) =
      if p.before.length + p.body.length ≤ n then
        scanEnd { depth := 1 } (i + min n p.text.length) (some (i + (p.before.length + p.body.length)))
          (z.take (n - p.text.length))
      else found := by
  have length : p.text.length = p.before.length + (p.body.length + p.after.length) := by
    simp only [Piece.text, List.length_append]
  have shape : p.text ++ z = p.before ++ (p.body ++ (p.after ++ z)) := by
    rw [Piece.text, List.append_assoc, List.append_assoc]
  rw [shape, scanEnd_plain p.white.1.plain, scanEnd_body]
  have positive : 0 < p.body.length := by simp [Piece.body]
  by_cases whole : p.before.length + p.body.length ≤ n
  · rw [if_pos whole, if_neg (by omega), scanEnd_plain p.white.2.plain]
    have before : min n p.before.length = p.before.length := by omega
    congr 1
    · rw [length]
      omega
    · rw [before, Nat.add_assoc]
    · congr 1
      rw [length]
      omega
  · rw [if_neg whole, if_pos (by omega)]

theorem complete_zero (ps : List Piece) : complete ps 0 = 0 := by
  cases ps with
  | nil => rfl
  | cons p ps =>
    have positive : 0 < p.body.length := by simp [Piece.body]
    exact if_neg (by omega)

theorem keptText_cons (p : Piece) {ps : List Piece} (more : ps ≠ []) :
    keptText (p :: ps) = p.text ++ 44 :: keptText ps := by
  cases ps with
  | nil => exact absurd rfl more
  | cons q ps => rfl

theorem complete_cons {p : Piece} {ps : List Piece} (whole : p.before.length + p.body.length ≤ n) :
    complete (p :: ps) n = complete ps (n - (p.text.length + 1)) + 1 :=
  if_pos whole

theorem scanEnd_items (t : Layout) (ps : List Piece) :
    scanEnd { depth := 1 } i found ((itemsText ps ++ (t.gap ++ 93 :: t.trail)).take n) =
      if complete ps n = 0 then found else some (i + (keptText (ps.take (complete ps n))).length) := by
  induction ps generalizing i n found with
  | nil => exact scanEnd_rest t
  | cons p ps ih =>
    by_cases whole : p.before.length + p.body.length ≤ n
    · rw [complete_cons whole, if_neg (Nat.succ_ne_zero _), List.take_succ_cons]
      have single : (keptText [p]).length = p.before.length + p.body.length := List.length_append
      cases ps with
      | nil =>
        rw [itemsText, scanEnd_piece, if_pos whole, scanEnd_rest, List.take_nil, single]
      | cons q ps =>
        rw [itemsText, List.append_assoc, List.cons_append, scanEnd_piece, if_pos whole]
        rcases Nat.eq_zero_or_pos (n - p.text.length) with cut | more
        · have past : n - (p.text.length + 1) = 0 := by omega
          rw [cut, past, complete_zero, List.take_zero, List.take_zero, single]
          rfl
        · obtain ⟨m, rest⟩ : ∃ m, n - p.text.length = m + 1 := ⟨n - p.text.length - 1, by omega⟩
          have left : n - (p.text.length + 1) = m := by omega
          rw [rest, left, List.take_succ_cons, scanEnd_char (by decide), ih]
          by_cases none' : complete (q :: ps) m = 0
          · rw [if_pos none', none', List.take_zero, single]
          · have some' : (q :: ps).take (complete (q :: ps) m) ≠ [] := by
              rw [Ne, List.take_eq_nil_iff]
              rintro (zero | nil)
              · exact none' zero
              · cases nil
            rw [if_neg none', keptText_cons p some', List.length_append, List.length_cons]
            congr 1
            omega
    · have nothing : complete (p :: ps) n = 0 := if_neg whole
      rw [nothing, if_pos rfl]
      cases ps with
      | nil => rw [itemsText, scanEnd_piece, if_neg whole]
      | cons q ps => rw [itemsText, List.append_assoc, scanEnd_piece, if_neg whole]

theorem keptText_fits (ps : List Piece) : (keptText (ps.take (complete ps n))).length ≤ n := by
  induction ps generalizing n with
  | nil => exact Nat.zero_le n
  | cons p ps ih =>
    by_cases whole : p.before.length + p.body.length ≤ n
    · rw [complete_cons whole, List.take_succ_cons]
      have single : (keptText [p]).length = p.before.length + p.body.length := List.length_append
      by_cases none' : ps.take (complete ps (n - (p.text.length + 1))) = []
      · rw [none', single]
        exact whole
      · have later := ih (n := n - (p.text.length + 1))
        have some' : n - (p.text.length + 1) ≠ 0 := by
          intro zero
          rw [zero, complete_zero] at none'
          exact none' rfl
        rw [keptText_cons p none', List.length_append, List.length_cons]
        omega
    · have nothing : complete (p :: ps) n = 0 := if_neg whole
      rw [nothing]
      exact Nat.zero_le n

theorem keptText_within (ps : List Piece) (k : Nat) : keptText (ps.take k) <+: itemsText ps := by
  induction ps generalizing k with
  | nil =>
    rw [List.take_nil]
    exact List.prefix_refl _
  | cons p ps ih =>
    cases k with
    | zero => exact List.nil_prefix
    | succ k =>
      rw [List.take_succ_cons]
      have single : keptText [p] <+: p.text :=
        ⟨p.after, by rw [Piece.text, ← List.append_assoc]; rfl⟩
      cases ps with
      | nil =>
        rw [List.take_nil]
        exact single
      | cons q ps =>
        rw [itemsText]
        by_cases none' : (q :: ps).take k = []
        · rw [none']
          exact single.trans (List.prefix_append _ _)
        · rw [keptText_cons p none', List.prefix_append_right_inj]
          exact List.cons_prefix_cons.mpr ⟨rfl, ih k⟩

end Items

/-! ### Where the array starts -/

/-- An object that lies directly behind the opening bracket of a text is closed in it. -/
def Closes (s : Text) : Prop :=
  ∃ u v, s = u ++ 125 :: v ∧ (u.foldl Scan.step {}).inStr = false ∧ (u.foldl Scan.step {}).depth = 2

/-- The first bracket with an object directly behind it is the one of the array, or no object
behind it is closed. -/
def StartFits (t : Layout) (n : Nat) : Prop :=
  strstr [91, 123] (t.text.take n) = none ∨
  strstr [91, 123] (t.text.take n) = some ((t.text.take n).drop t.lead.length) ∨
  ∃ inner, strstr [91, 123] (t.text.take n) = some inner ∧ ¬ Closes inner

theorem scanEnd_eq_none_iff (s : Scan) (i : Nat) (text : Text) (found : Option Nat) :
    scanEnd s i found text = none ↔
      found = none ∧ ∀ u c v, text = u ++ c :: v → (u.foldl Scan.step s).closes c = false := by
  induction text generalizing s i found with
  | nil =>
    refine ⟨fun none' => ⟨none', fun u c v same => ?_⟩, fun both => both.1⟩
    cases u <;> cases same
  | cons d text ih =>
    rw [scanEnd, ih]
    constructor
    · rintro ⟨first, rest⟩
      have open' : s.closes d = false := by
        cases shut : s.closes d with
        | false => rfl
        | true =>
          rw [if_pos shut] at first
          cases first
      rw [open', if_neg Bool.false_ne_true] at first
      refine ⟨first, fun u c v same => ?_⟩
      cases u with
      | nil =>
        obtain ⟨rfl, -⟩ := List.cons.inj same
        exact open'
      | cons b u =>
        obtain ⟨rfl, tail⟩ := List.cons.inj same
        exact rest u c v tail
    · rintro ⟨none', all⟩
      have open' := all [] d text rfl
      refine ⟨?_, fun u c v same => all (d :: u) c v (congrArg (d :: ·) same)⟩
      rw [show s.closes d = false from open', if_neg Bool.false_ne_true]
      exact none'

theorem scanEnd_none_iff (text : Text) : scanEnd {} 0 none text = none ↔ ¬ Closes text := by
  rw [scanEnd_eq_none_iff]
  constructor
  · rintro ⟨-, open'⟩ ⟨u, v, same, outside, depth⟩
    have shut := open' u 125 v same
    have closed : (u.foldl Scan.step {}).closes 125 = true := by
      simp [Scan.closes, Scan.step_brace, outside, depth]
    rw [closed] at shut
    cases shut
  · intro open'
    refine ⟨rfl, fun u c v same => ?_⟩
    cases shut : (u.foldl Scan.step {}).closes c with
    | false => rfl
    | true =>
      exfalso
      simp only [Scan.closes, Bool.and_eq_true, Bool.not_eq_true', decide_eq_true_eq] at shut
      obtain ⟨⟨outside, rfl⟩, depth⟩ := shut
      apply open'
      refine ⟨u, v, same, outside, ?_⟩
      rw [Scan.step_brace outside] at depth
      simp only at depth
      omega

/-! ### The text as a C string -/

theorem StringBody.text {s : Text} (body : StringBody s) : 0 ∉ s := by
  induction body with
  | nil => exact List.not_mem_nil
  | char nul _ _ _ ih => simpa [ih] using Ne.symm nul
  | escape nul _ ih => simpa [ih] using Ne.symm nul

theorem Balanced.text {s : Text} (balanced : Balanced s) : 0 ∉ s := by
  induction balanced with
  | nil => exact List.not_mem_nil
  | char plain _ ih =>
    rw [List.mem_cons, not_or]
    refine ⟨?_, ih⟩
    rintro rfl
    exact plain List.mem_cons_self
  | string body _ ih => simp [body.text, ih]
  | array _ _ within later => simp [within, later]
  | object _ _ within later => simp [within, later]

theorem White.text {s : Text} (white : White s) : 0 ∉ s := fun member =>
  absurd (white 0 member) (by decide)

theorem itemsText_text (ps : List Piece) : 0 ∉ itemsText ps := by
  have single (p : Piece) : 0 ∉ p.text := by
    simp [Piece.text, Piece.body, p.white.1.text, p.white.2.text, p.balanced.text]
  induction ps with
  | nil => exact List.not_mem_nil
  | cons p ps ih =>
    cases ps with
    | nil => exact single p
    | cons q ps =>
      rw [itemsText, List.mem_append, List.mem_cons, not_or, not_or]
      exact ⟨single p, by decide, ih⟩

theorem Layout.text_text (t : Layout) : 0 ∉ t.text := by
  simp [Layout.text, t.white.1.text, t.white.2.1.text, t.white.2.2.text, itemsText_text]

/-! ### What is salvaged -/

variable {t : Layout} {n : Nat}

def Layout.behind (t : Layout) : Text :=
  itemsText t.pieces ++ (t.gap ++ 93 :: t.trail)

theorem take_text (more : t.lead.length < n) :
    t.text.take n = t.lead ++ 91 :: t.behind.take (n - (t.lead.length + 1)) := by
  obtain ⟨m, rfl⟩ : ∃ m, n = t.lead.length + (m + 1) := ⟨n - t.lead.length - 1, by omega⟩
  rw [Layout.text, List.take_length_add_append, List.take_succ_cons]
  congr 3
  omega

theorem lead_bracket (t : Layout) : 91 ∉ t.lead := fun member =>
  absurd (t.white.1 91 member) (by decide)

theorem take_lead (less : n ≤ t.lead.length) : 91 ∉ t.text.take n := by
  rw [Layout.text, List.take_append_of_le_length less]
  exact fun member => lead_bracket t (List.mem_of_mem_take member)

theorem salvage_eq (t : Layout) (n : Nat) :
    salvageTruncatedArray (t.text.take n) =
      match arrayStart (t.text.take n) with
      | none => none
      | some start => (scanEnd {} 0 none start).map fun n => start.take n ++ [93] := by
  unfold salvageTruncatedArray
  rw [cstr_eq_self fun member => t.text_text (List.mem_of_mem_take member)]

theorem salvages_of_start
    (start : arrayStart (t.text.take n) = some (91 :: t.behind.take (n - (t.lead.length + 1)))) :
    Salvages t n := by
  generalize left : n - (t.lead.length + 1) = m at start
  have scanned : scanEnd {} 0 none (91 :: t.behind.take m) =
      if complete t.pieces m = 0 then none
      else some (1 + (keptText (t.pieces.take (complete t.pieces m))).length) := by
    have opens : Scan.step {} 91 = { depth := 1 } := by decide
    have first : Scan.closes {} 91 = false := by decide
    rw [scanEnd, opens, first, if_neg Bool.false_ne_true]
    exact scanEnd_items t t.pieces
  unfold Salvages
  rw [salvage_eq, start, left]
  simp only [scanned]
  by_cases nothing : complete t.pieces m = 0
  · left
    rw [if_pos nothing]
    rfl
  · refine Or.inr ⟨_, rfl, Nat.pos_of_ne_zero nothing, ?_⟩
    rw [if_neg nothing, Option.map_some, Nat.add_comm, List.take_succ_cons, List.cons_append]
    have within : keptText (t.pieces.take (complete t.pieces m)) <+: t.behind.take m := by
      rw [List.prefix_take_iff]
      exact ⟨(keptText_within _ _).trans (List.prefix_append _ _), keptText_fits _⟩
    rw [← List.prefix_iff_eq_take.mp within]

theorem keptText_start {k : Nat} (positive : 0 < k) (all : k = complete t.pieces n) :
    ∃ p ps tail, t.pieces = p :: ps ∧ keptText (t.pieces.take k) = p.before ++ 123 :: tail := by
  cases pieces : t.pieces with
  | nil =>
    rw [all, pieces] at positive
    cases positive
  | cons p ps =>
    obtain ⟨k, rfl⟩ : ∃ j, k = j + 1 := ⟨k - 1, by omega⟩
    rw [List.take_succ_cons]
    cases ps.take k with
    | nil => exact ⟨p, ps, _, rfl, rfl⟩
    | cons q qs =>
      refine ⟨p, ps, p.inner ++ [125] ++ p.after ++ 44 :: keptText (q :: qs), rfl, ?_⟩
      simp [keptText, Piece.text, Piece.body]

theorem start_of_kept {k : Nat} {inner rest : Text} (positive : 0 < k)
    (all : k = complete t.pieces (n - (t.lead.length + 1)))
    (same : 91 :: 123 :: rest = 91 :: (keptText (t.pieces.take k) ++ [93])) (more : t.lead.length < n)
    (search : strstr [91, 123] (t.text.take n) = some inner) :
    inner = (t.text.take n).drop t.lead.length := by
  rcases keptText_start positive all with ⟨p, ps, tail, pieces, shape⟩
  rw [shape] at same
  have tight : p.before = [] := by
    cases before : p.before with
    | nil => rfl
    | cons c others =>
      rw [before] at same
      obtain ⟨rfl, -⟩ := List.cons.inj (List.cons.inj same).2
      have blank := p.white.1 123 (by rw [before]; exact List.mem_cons_self)
      exact absurd blank (by decide)
  have within : keptText (t.pieces.take k) <+: t.behind.take (n - (t.lead.length + 1)) := by
    rw [List.prefix_take_iff]
    refine ⟨(keptText_within _ _).trans (List.prefix_append _ _), ?_⟩
    rw [all]
    exact keptText_fits _
  rw [shape, tight] at within
  rcases within with ⟨beyond, first⟩
  have whole := take_text more
  rw [← first] at whole
  rw [whole, strstr_skip (lead_bracket t)] at search
  rw [whole, List.drop_left]
  exact (Option.some.inj search).symm

/-- A cut text is salvaged to its own complete objects or to nothing exactly when the scan starts
at its own bracket, or where no object is closed. -/
theorem salvage_own_actions (t : Layout) (n : Nat) : Salvages t n ↔ StartFits t n := by
  by_cases less : n ≤ t.lead.length
  · have absent := take_lead less
    refine iff_of_true (Or.inl ?_) (Or.inl (strstr_none absent))
    rw [salvage_eq, arrayStart, strstr_none absent, strstr_none absent]
  · have more : t.lead.length < n := Nat.lt_of_not_le less
    have own : strstr [91] (t.text.take n) = some (91 :: t.behind.take (n - (t.lead.length + 1))) := by
      rw [take_text more, strstr_skip (lead_bracket t)]
      rfl
    have drop : (t.text.take n).drop t.lead.length = 91 :: t.behind.take (n - (t.lead.length + 1)) := by
      rw [take_text more, List.drop_left]
    constructor
    · intro salvages
      cases search : strstr [91, 123] (t.text.take n) with
      | none => exact Or.inl search
      | some inner =>
        have start : arrayStart (t.text.take n) = some inner := by rw [arrayStart, search]
        rcases salvages with none' | ⟨k, all, positive, kept⟩
        · refine Or.inr (Or.inr ⟨inner, search, ?_⟩)
          rw [salvage_eq, start] at none'
          rw [← scanEnd_none_iff]
          exact Option.map_eq_none_iff.mp none'
        · refine Or.inr (Or.inl ?_)
          rw [search]
          congr 1
          rw [salvage_eq, start] at kept
          rcases Option.map_eq_some_iff.mp kept with ⟨m, found, cut⟩
          rcases (strstr_spec search).1 with ⟨rest, rfl⟩
          match m with
          | 0 => cases cut
          | 1 =>
            rcases keptText_start positive all with ⟨p, ps, tail, -, shape⟩
            have length := congrArg List.length cut
            rw [shape] at length
            simp at length
            omega
          | m + 2 => exact start_of_kept positive all cut more search
    · rintro (none' | first | ⟨inner, search, open'⟩)
      · apply salvages_of_start
        rw [arrayStart, none']
        exact own
      · apply salvages_of_start
        rw [arrayStart, first, drop]
      · left
        rw [salvage_eq, arrayStart, search]
        simp only
        rw [(scanEnd_none_iff inner).mpr open']
        rfl

theorem stringBody_tool : StringBody (ascii "tool") :=
  .char (by decide) (by decide) (by decide) <| .char (by decide) (by decide) (by decide) <|
    .char (by decide) (by decide) (by decide) <| .char (by decide) (by decide) (by decide) .nil

theorem stringBody_args : StringBody (ascii "args") :=
  .char (by decide) (by decide) (by decide) <| .char (by decide) (by decide) (by decide) <|
    .char (by decide) (by decide) (by decide) <| .char (by decide) (by decide) (by decide) .nil

theorem balancedPlan : Balanced (ascii "\"tool\":\"a\",\"args\":[\x7b\"tool\":\"b\"\x7d]") := by
  have name (c : UInt8) (nul : c ≠ 0) (quote : c ≠ 34) (slash : c ≠ 92) : StringBody [c] :=
    .char nul quote slash .nil
  have inner : Balanced (ascii "\"tool\":\"b\"") :=
    .string stringBody_tool <| .char (by decide) <|
      .string (name 98 (by decide) (by decide) (by decide)) .nil
  exact .string stringBody_tool <| .char (by decide) <|
    .string (name 97 (by decide) (by decide) (by decide)) <| .char (by decide) <|
      .string stringBody_args <| .char (by decide) <| .array (.object inner .nil) .nil

/-- An action that is written with a space before it, and a list of objects in its arguments. -/
def spacedPlan : Layout where
  lead := []
  pieces :=
    [{ before := [32]
       inner := ascii "\"tool\":\"a\",\"args\":[\x7b\"tool\":\"b\"\x7d]"
       after := []
       white := by decide +kernel
       balanced := balancedPlan }]
  gap := []
  trail := []
  white := by decide +kernel

/-- What is salvaged of it is the object in the arguments. -/
theorem salvage_own_actions_fails : ¬ ∀ (t : Layout) (n : Nat), Salvages t n := by
  intro claim
  have salvaged : salvageTruncatedArray (spacedPlan.text.take 34) = some (ascii "[\x7b\"tool\":\"b\"\x7d]") := by
    decide
  have wrong : ∀ k < 3, ascii "[\x7b\"tool\":\"b\"\x7d]" ≠
      91 :: (keptText (spacedPlan.pieces.take k) ++ [93]) := by decide
  rcases claim spacedPlan 34 with none' | ⟨k, all, -, kept⟩
  · rw [salvaged] at none'
    cases none'
  · rw [salvaged] at kept
    have few : k < 3 := by
      rw [all]
      decide
    exact wrong k few (Option.some.inj kept)

end CognitiveOs.Cognition.Planner
