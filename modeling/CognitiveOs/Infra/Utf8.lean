import CognitiveOs.Infra.Text

/-!
# UTF-8 texts

The validation and the repair of `infra/util.c`.
-/

namespace CognitiveOs.Infra

def utf8SeqLen (b : UInt8) : Nat :=
  if b < 0x80 then 1
  else if b &&& 0xE0 = 0xC0 then 2
  else if b &&& 0xF0 = 0xE0 then 3
  else if b &&& 0xF8 = 0xF0 then 4
  else 0

def isContinuation (b : UInt8) : Bool :=
  b &&& 0xC0 = 0x80

def codePoint (seq : Text) : Nat :=
  let mask : UInt8 :=
    match seq.length with
    | 0 | 1 => 0xFF
    | 2 => 0x1F
    | 3 => 0x0F
    | _ => 0x07
  match seq with
  | [] => 0
  | lead :: rest => rest.foldl (fun cp b => cp * 64 + (b &&& 0x3F).toNat) (lead &&& mask).toNat

def badCodePoint (length cp : Nat) : Bool :=
  (length = 2 && cp < 0x80) || (length = 3 && cp < 0x800) || (length = 4 && cp < 0x10000) ||
    (0xD800 ≤ cp && cp ≤ 0xDFFF) || 0x10FFFF < cp

def utf8Sequence (s : Text) : Option Nat :=
  match s with
  | [] => none
  | b :: rest =>
    let l := utf8SeqLen b
    if l = 0 || s.length < l || !(rest.take (l - 1)).all isContinuation ||
        badCodePoint l (codePoint (s.take l)) then none
    else some l

def utf8Valid : Nat → Text → Bool
  | _, [] => true
  | 0, _ => false
  | fuel + 1, s =>
    match utf8Sequence s with
    | none => false
    | some l => utf8Valid fuel (s.drop l)

def strUtf8Valid (s : Text) : Bool :=
  utf8Valid s.length s

def utf8Repair : Nat → Text → Text
  | 0, _ => []
  | _, [] => []
  | fuel + 1, s =>
    match utf8Sequence s with
    | none => 63 :: utf8Repair fuel (s.drop 1)
    | some l => s.take l ++ utf8Repair fuel (s.drop l)

/-- `str_utf8_sanitize`: every byte that is not part of a sequence becomes a `?`. -/
def strUtf8Sanitize (s : Text) : Text :=
  utf8Repair s.length s

def utf8Prefix (s : Text) : Nat → Text
  | 0 => []
  | n + 1 => if strUtf8Valid (s.take (n + 1)) then s.take (n + 1) else utf8Prefix s n

/-- `utf8_head_copy` into a buffer of `cap` bytes. -/
def utf8HeadCopy (cap : Nat) (s : Text) : Text :=
  utf8Prefix s (min s.length (cap - 1))

/-- The last place at or before `n` where a sequence may start. -/
def boundaryBefore (s : Text) : Nat → Nat
  | 0 => 0
  | n + 1 => if (s[n + 1]?).any isContinuation then boundaryBefore s n else n + 1

/-- `str_head`: a longer text is cut and ends in an ellipsis. -/
def strHead (s : Text) (cap : Nat) : Text :=
  if cap < s.length then s.take (boundaryBefore s cap) ++ [0xE2, 0x80, 0xA6] else s

variable {b : UInt8}

theorem utf8Sequence_ascii (small : b < 128) (s : Text) : utf8Sequence (b :: s) = some 1 := by
  have length : utf8SeqLen b = 1 := if_pos small
  have bad : badCodePoint 1 (codePoint [b]) = false := by
    have byte := (b &&& 0xFF).toNat_lt
    simp only [badCodePoint, codePoint, List.length_singleton, List.foldl_nil]
    simp only [Bool.or_eq_false_iff, Bool.and_eq_false_iff, decide_eq_false_iff_not]
    omega
  unfold utf8Sequence
  simp [length, bad]

variable {s : Text}

theorem strUtf8Sanitize_append (plain : ∀ b ∈ s, b < 128) (t : Text) :
    strUtf8Sanitize (s ++ t) = s ++ strUtf8Sanitize t := by
  induction s with
  | nil => rfl
  | cons b s ih =>
    rw [List.cons_append, List.cons_append, ← ih fun c member => plain c (List.mem_cons_of_mem _ member)]
    unfold strUtf8Sanitize
    rw [List.length_cons, utf8Repair.eq_def]
    simp [utf8Sequence_ascii (plain b (List.mem_cons_self ..))]

/-! ### What is cut or joined -/

variable {l : Nat}

theorem utf8Sequence_eq_some :
    utf8Sequence s = some l ↔ l ≤ s.length ∧ ∃ b rest, s.take l = b :: rest ∧ utf8SeqLen b = l ∧
      rest.all isContinuation = true ∧ badCodePoint l (codePoint (s.take l)) = false := by
  cases s with
  | nil => simp [utf8Sequence]
  | cons b s =>
    unfold utf8Sequence
    simp only [Option.ite_none_left_eq_some, Bool.or_eq_true, decide_eq_true_eq, not_or, Bool.not_eq_true,
      Bool.not_eq_eq_eq_not, Bool.not_true, Bool.not_eq_false, Nat.not_lt, Option.some.injEq]
    constructor
    · rintro ⟨⟨⟨⟨some_length, enough⟩, continued⟩, good⟩, rfl⟩
      obtain ⟨n, size⟩ : ∃ n, utf8SeqLen b = n + 1 := Nat.exists_eq_succ_of_ne_zero some_length
      refine ⟨enough, b, s.take (utf8SeqLen b - 1), ?_, rfl, continued, good⟩
      rw [size, List.take_succ_cons, Nat.add_sub_cancel]
    · rintro ⟨enough, c, rest, taken, size, continued, good⟩
      cases l with
      | zero => simp at taken
      | succ n =>
        rw [List.take_succ_cons] at taken
        obtain ⟨rfl, rfl⟩ := List.cons.inj taken
        rw [size]
        exact ⟨⟨⟨⟨Nat.succ_ne_zero n, enough⟩, continued⟩, good⟩, rfl⟩

theorem utf8Sequence_append {u v : Text} (within : l ≤ u.length) :
    utf8Sequence (u ++ v) = some l ↔ utf8Sequence u = some l := by
  rw [utf8Sequence_eq_some, utf8Sequence_eq_some, List.take_append_of_le_length within, List.length_append]
  exact and_congr_left fun _ => ⟨fun _ => within, fun _ => by omega⟩

theorem utf8Sequence_pos (found : utf8Sequence s = some l) : 0 < l := by
  obtain ⟨-, b, rest, taken, -⟩ := utf8Sequence_eq_some.mp found
  cases l with
  | zero => simp at taken
  | succ n => exact Nat.succ_pos n

theorem continued_of_sequence (found : utf8Sequence (b :: s) = some l) {c : UInt8} (member : c ∈ s.take (l - 1)) :
    isContinuation c = true := by
  obtain ⟨-, b', rest, taken, -, continued, -⟩ := utf8Sequence_eq_some.mp found
  obtain ⟨n, rfl⟩ := Nat.exists_eq_succ_of_ne_zero (utf8Sequence_pos found).ne'
  rw [List.take_succ_cons] at taken
  obtain ⟨-, rfl⟩ := List.cons.inj taken
  exact List.all_eq_true.mp continued c member

theorem utf8Repair_of_le {n : Nat} (enough : s.length ≤ n) : utf8Repair n s = strUtf8Sanitize s := by
  have more (k : Nat) : ∀ {n : Nat} {s : Text}, s.length ≤ n → utf8Repair (n + k) s = utf8Repair n s := by
    intro n
    induction n with
    | zero =>
      intro s enough
      obtain rfl := List.length_eq_zero_iff.mp (Nat.le_zero.mp enough)
      rw [Nat.zero_add]
      cases k <;> rfl
    | succ n ih =>
      intro s enough
      rw [Nat.succ_add]
      cases s with
      | nil => rfl
      | cons b s =>
        rw [utf8Repair, utf8Repair]
        · cases found : utf8Sequence (b :: s) with
          | none =>
            simp only
            rw [ih (by simpa using enough)]
          | some l =>
            have pos := utf8Sequence_pos found
            simp only
            rw [ih (by simp only [List.length_drop, List.length_cons] at enough ⊢; omega)]
        · simp
        · simp
  obtain ⟨k, rfl⟩ := Nat.exists_eq_add_of_le enough
  exact more k (Nat.le_refl _)

@[simp] theorem strUtf8Sanitize_nil : strUtf8Sanitize [] = [] :=
  rfl

theorem strUtf8Sanitize_none (broken : utf8Sequence (b :: s) = none) :
    strUtf8Sanitize (b :: s) = 63 :: strUtf8Sanitize s := by
  rw [strUtf8Sanitize, List.length_cons, utf8Repair, broken]
  · simp only [List.drop_one, List.tail_cons]
    rfl
  · simp

theorem strUtf8Sanitize_some (found : utf8Sequence s = some l) :
    strUtf8Sanitize s = s.take l ++ strUtf8Sanitize (s.drop l) := by
  cases s with
  | nil => cases found
  | cons b s =>
    have pos := utf8Sequence_pos found
    rw [strUtf8Sanitize, List.length_cons, utf8Repair, found]
    · simp only
      rw [utf8Repair_of_le]
      simp only [List.length_drop, List.length_cons]
      omega
    · simp

theorem strUtf8Sanitize_ne_nil (some_text : s ≠ []) : strUtf8Sanitize s ≠ [] := by
  cases s with
  | nil => exact absurd rfl some_text
  | cons b s =>
    cases found : utf8Sequence (b :: s) with
    | none => simp [strUtf8Sanitize_none found]
    | some l =>
      obtain ⟨n, rfl⟩ := Nat.exists_eq_succ_of_ne_zero (utf8Sequence_pos found).ne'
      simp [strUtf8Sanitize_some found]

theorem start_of_continuation (continued : isContinuation b = true) : utf8SeqLen b = 0 ∧ ¬ b < 128 := by
  have all : ∀ n < 256, isContinuation (UInt8.ofNat n) = true →
      utf8SeqLen (UInt8.ofNat n) = 0 ∧ ¬ UInt8.ofNat n < 128 := by
    decide +kernel
  have this := all b.toNat b.toNat_lt
  rw [UInt8.ofNat_toNat] at this
  exact this continued

theorem strUtf8Sanitize_marks (broken : ∀ b ∈ s, isContinuation b = true) : ∀ b ∈ strUtf8Sanitize s, b = 63 := by
  induction s with
  | nil => simp
  | cons b s ih =>
    have start := (start_of_continuation (broken b (by simp))).1
    have none' : utf8Sequence (b :: s) = none := by simp [utf8Sequence, start]
    rw [strUtf8Sanitize_none none']
    exact List.forall_mem_cons.mpr ⟨rfl, ih fun c member => broken c (List.mem_cons_of_mem _ member)⟩

theorem strUtf8Sanitize_cut (u v : Text) :
    ∃ a b q, strUtf8Sanitize (u ++ v) = a ++ b ∧ (v ≠ [] → b ≠ []) ∧ strUtf8Sanitize u = a ++ q ∧ ∀ c ∈ q, c = 63 := by
  induction h : u.length using Nat.strongRecOn generalizing u with
  | ind n ih =>
    cases u with
    | nil => exact ⟨[], strUtf8Sanitize v, [], rfl, strUtf8Sanitize_ne_nil, rfl, by simp⟩
    | cons b u =>
      cases found : utf8Sequence (b :: u ++ v) with
      | none =>
        have none' : utf8Sequence (b :: u) = none := by
          cases shorter : utf8Sequence (b :: u) with
          | none => rfl
          | some l =>
            have within := (utf8Sequence_eq_some.mp shorter).1
            rw [(utf8Sequence_append within).mpr shorter] at found
            cases found
        obtain ⟨a, c, q, whole, rest, part, marks⟩ := ih u.length (by simp [← h]) u rfl
        exact ⟨63 :: a, c, q, (strUtf8Sanitize_none found).trans (congrArg (63 :: ·) whole), rest,
          by rw [strUtf8Sanitize_none none', part, List.cons_append], marks⟩
      | some l =>
        have pos := utf8Sequence_pos found
        by_cases within : l ≤ (b :: u).length
        · obtain ⟨a, c, q, whole, rest, part, marks⟩ :=
            ih ((b :: u).drop l).length (by rw [List.length_drop]; omega) _ rfl
          refine ⟨(b :: u).take l ++ a, c, q, ?_, rest, ?_, marks⟩
          · rw [strUtf8Sanitize_some found, List.take_append_of_le_length within, List.drop_append_of_le_length within,
              whole, List.append_assoc]
          · rw [strUtf8Sanitize_some ((utf8Sequence_append within).mp found), part, List.append_assoc]
        · -- the sequence is cut: none of its bytes is one of its own
          have short : (b :: u).length < l := Nat.not_le.mp within
          have none' : utf8Sequence (b :: u) = none := by
            cases shorter : utf8Sequence (b :: u) with
            | none => rfl
            | some k =>
              have inside := (utf8Sequence_eq_some.mp shorter).1
              rw [(utf8Sequence_append inside).mpr shorter] at found
              have := Option.some.inj found
              omega
          have continued : ∀ c ∈ u, isContinuation c = true := by
            intro c member
            refine continued_of_sequence (by simpa using found) ?_
            rw [List.take_append, List.take_of_length_le (by simp only [List.length_cons] at short; omega)]
            exact List.mem_append_left _ member
          refine ⟨[], strUtf8Sanitize (b :: u ++ v), strUtf8Sanitize (b :: u), rfl,
            fun _ => strUtf8Sanitize_ne_nil (by simp), rfl, ?_⟩
          rw [strUtf8Sanitize_none none']
          exact List.forall_mem_cons.mpr ⟨rfl, strUtf8Sanitize_marks continued⟩

theorem strUtf8Sanitize_ascii (small : b < 128) (u t : Text) :
    strUtf8Sanitize (u ++ b :: t) = strUtf8Sanitize u ++ b :: strUtf8Sanitize t := by
  induction h : u.length using Nat.strongRecOn generalizing u with
  | ind n ih =>
    cases u with
    | nil =>
      rw [List.nil_append, strUtf8Sanitize_some (utf8Sequence_ascii small t)]
      rfl
    | cons c u =>
      cases found : utf8Sequence (c :: u ++ b :: t) with
      | none =>
        have none' : utf8Sequence (c :: u) = none := by
          cases shorter : utf8Sequence (c :: u) with
          | none => rfl
          | some l =>
            have within := (utf8Sequence_eq_some.mp shorter).1
            rw [(utf8Sequence_append within).mpr shorter] at found
            cases found
        rw [strUtf8Sanitize_none none']
        exact (strUtf8Sanitize_none found).trans (congrArg (63 :: ·) (ih u.length (by simp [← h]) u rfl))
      | some l =>
        have pos := utf8Sequence_pos found
        have within : l ≤ (c :: u).length := by
          by_contra long
          have continued : isContinuation b = true := by
            refine continued_of_sequence (by simpa using found) ?_
            obtain ⟨k, past⟩ : ∃ k, l - 1 = u.length + (k + 1) :=
              ⟨l - 2 - u.length, by simp only [List.length_cons] at long; omega⟩
            rw [past, List.take_length_add_append, List.take_succ_cons]
            exact List.mem_append_right _ List.mem_cons_self
          exact (start_of_continuation continued).2 small
        rw [strUtf8Sanitize_some found, List.take_append_of_le_length within, List.drop_append_of_le_length within,
          ih ((c :: u).drop l).length (by rw [List.length_drop]; omega) _ rfl,
          strUtf8Sanitize_some ((utf8Sequence_append within).mp found), List.append_assoc]

end CognitiveOs.Infra

/-!
## Valid UTF-8 texts

A valid text is a list of sequences: it can be joined with another one, and cut wherever
no continuation byte follows.
-/

namespace CognitiveOs.Infra

variable {s : Text}

theorem utf8Valid_of_le {n : Nat} (enough : s.length ≤ n) : utf8Valid n s = strUtf8Valid s := by
  have more : ∀ (k n : Nat) {s : Text}, s.length ≤ n → utf8Valid (n + k) s = utf8Valid n s := by
    intro k n
    induction n with
    | zero =>
      intro s enough
      obtain rfl := List.length_eq_zero_iff.mp (Nat.le_zero.mp enough)
      rw [utf8Valid, utf8Valid]
    | succ n ih =>
      intro s enough
      rw [Nat.succ_add]
      cases s with
      | nil => rfl
      | cons b s =>
        simp only [utf8Valid]
        cases found : utf8Sequence (b :: s) with
        | none => rfl
        | some l =>
          have pos := utf8Sequence_pos found
          exact ih (by simp only [List.length_drop, List.length_cons] at enough ⊢; omega)
  obtain ⟨k, rfl⟩ := Nat.exists_eq_add_of_le enough
  exact more k _ (Nat.le_refl _)

@[simp] theorem strUtf8Valid_nil : strUtf8Valid [] = true := rfl

theorem strUtf8Valid_some {l : Nat} (found : utf8Sequence s = some l) : strUtf8Valid s = strUtf8Valid (s.drop l) := by
  cases s with
  | nil => cases found
  | cons b s =>
    have pos := utf8Sequence_pos found
    rw [strUtf8Valid, List.length_cons, utf8Valid, found]
    · exact utf8Valid_of_le (by simp only [List.length_drop, List.length_cons]; omega)
    · simp

theorem utf8Sequence_of_valid (valid : strUtf8Valid s = true) (nonempty : s ≠ []) : ∃ l, utf8Sequence s = some l := by
  cases s with
  | nil => exact absurd rfl nonempty
  | cons b s =>
    cases found : utf8Sequence (b :: s) with
    | some l => exact ⟨l, rfl⟩
    | none =>
      rw [strUtf8Valid, List.length_cons, utf8Valid, found] at valid
      · cases valid
      · simp

theorem valid_induction {motive : (s : Text) → strUtf8Valid s = true → Prop} (nil : motive [] rfl)
    (step : ∀ s l (valid : strUtf8Valid s = true) (_ : utf8Sequence s = some l)
      (rest : strUtf8Valid (s.drop l) = true), motive (s.drop l) rest → motive s valid)
    (valid : strUtf8Valid s = true) : motive s valid := by
  induction size : s.length using Nat.strongRecOn generalizing s with
  | ind n ih =>
    by_cases empty : s = []
    · subst empty
      exact nil
    · obtain ⟨l, found⟩ := utf8Sequence_of_valid valid empty
      have rest : strUtf8Valid (s.drop l) = true := by rw [← strUtf8Valid_some found, valid]
      have pos := utf8Sequence_pos found
      have within := (utf8Sequence_eq_some.mp found).1
      exact step s l valid found rest (ih (s.drop l).length (by rw [List.length_drop]; omega) rest rfl)

theorem strUtf8Sanitize_of_valid (valid : strUtf8Valid s = true) : strUtf8Sanitize s = s := by
  induction valid using valid_induction with
  | nil => rfl
  | step s l _ found _ ih => rw [strUtf8Sanitize_some found, ih, List.take_append_drop]

theorem strUtf8Valid_append {t : Text} (left : strUtf8Valid s = true) (right : strUtf8Valid t = true) :
    strUtf8Valid (s ++ t) = true := by
  induction left using valid_induction with
  | nil => exact right
  | step s l _ found _ ih =>
    have within := (utf8Sequence_eq_some.mp found).1
    rw [strUtf8Valid_some ((utf8Sequence_append within).mpr found), List.drop_append_of_le_length within]
    exact ih

theorem strUtf8Valid_ascii (plain : ∀ b ∈ s, b < 128) : strUtf8Valid s = true := by
  induction s with
  | nil => rfl
  | cons b s ih =>
    rw [strUtf8Valid_some (utf8Sequence_ascii (plain b List.mem_cons_self) s)]
    exact ih fun c member => plain c (List.mem_cons_of_mem b member)

variable {p : Nat}

theorem continuation_of_sequence {l : Nat} (found : utf8Sequence s = some l) (behind : 0 < p) (inside : p < l) :
    ∃ b, s[p]? = some b ∧ isContinuation b = true := by
  obtain ⟨within, first, rest, taken, -, continued, -⟩ := utf8Sequence_eq_some.mp found
  have same : s[p]? = rest[p - 1]? := by
    rw [← List.getElem?_take_of_lt inside, taken, List.getElem?_cons, if_neg (by omega)]
  have length : rest.length + 1 = l := by
    have size := congrArg List.length taken
    rw [List.length_take, List.length_cons] at size
    omega
  have place : p - 1 < rest.length := by omega
  refine ⟨rest[p - 1], by rw [same, List.getElem?_eq_getElem place], ?_⟩
  exact List.all_eq_true.mp continued _ (List.getElem_mem place)

variable {b : UInt8}

theorem not_continuation_of_valid (valid : strUtf8Valid (b :: s) = true) : isContinuation b = false := by
  obtain ⟨l, found⟩ := utf8Sequence_of_valid valid (by simp)
  have pos := utf8Sequence_pos found
  obtain ⟨-, first, rest, taken, size, -⟩ := utf8Sequence_eq_some.mp found
  cases l with
  | zero => omega
  | succ l =>
    rw [List.take_succ_cons] at taken
    obtain ⟨rfl, -⟩ := List.cons.inj taken
    cases continued : isContinuation b with
    | false => rfl
    | true =>
      rw [(start_of_continuation continued).1] at size
      cases size

def Boundary (s : Text) (p : Nat) : Prop :=
  ∀ b ∈ s[p]?, isContinuation b = false

theorem boundary_induction {motive : (s : Text) → (p : Nat) → strUtf8Valid s = true → Boundary s p → Prop}
    (nil : ∀ p (boundary : Boundary [] p), motive [] p rfl boundary)
    (start : ∀ s (valid : strUtf8Valid s = true) (boundary : Boundary s 0), motive s 0 valid boundary)
    (step : ∀ s l p (valid : strUtf8Valid s = true) (boundary : Boundary s (l + p)) (_ : utf8Sequence s = some l)
      (rest : strUtf8Valid (s.drop l) = true) (later : Boundary (s.drop l) p),
      motive (s.drop l) p rest later → motive s (l + p) valid boundary) (valid : strUtf8Valid s = true)
    (boundary : Boundary s p) : motive s p valid boundary := by
  induction valid using valid_induction generalizing p with
  | nil => exact nil p boundary
  | step s l valid found rest ih =>
    rcases Nat.eq_zero_or_pos p with rfl | behind
    · exact start s valid boundary
    · by_cases inside : p < l
      · obtain ⟨b, here, continued⟩ := continuation_of_sequence found behind inside
        rw [boundary b here] at continued
        cases continued
      · obtain ⟨k, rfl⟩ := Nat.exists_eq_add_of_le (Nat.not_lt.mp inside)
        have later : Boundary (s.drop l) k := by
          intro b here
          rw [List.getElem?_drop] at here
          exact boundary b here
        exact step s l k valid boundary found rest later (ih later)

theorem strUtf8Valid_drop (valid : strUtf8Valid s = true) (boundary : Boundary s p) :
    strUtf8Valid (s.drop p) = true := by
  induction valid, boundary using boundary_induction with
  | nil => simp
  | start s valid => exact valid
  | step s l p _ _ _ _ _ ih =>
    rw [← List.drop_drop]
    exact ih

theorem boundary_of_ascii (here : s[p]? = some b) (small : b < 128) : Boundary s p := by
  intro c there
  obtain rfl : b = c := by simpa [here] using there
  cases continued : isContinuation b with
  | false => rfl
  | true => exact absurd small (start_of_continuation continued).2

theorem strUtf8Valid_drop_succ (valid : strUtf8Valid s = true) (here : s[p]? = some b) (small : b < 128) :
    strUtf8Valid (s.drop (p + 1)) = true := by
  have cut := strUtf8Valid_drop valid (boundary_of_ascii here small)
  obtain ⟨inside, same⟩ := List.getElem?_eq_some_iff.mp here
  rw [List.drop_eq_getElem_cons inside, same, strUtf8Valid_some (utf8Sequence_ascii small _)] at cut
  exact cut

theorem utf8SeqLen_le (b : UInt8) : utf8SeqLen b ≤ 4 := by
  unfold utf8SeqLen
  split_ifs <;> omega

theorem length_le_of_continuations (valid : strUtf8Valid s = true)
    (continued : ∀ b ∈ s.drop p, isContinuation b = true) : s.length ≤ p + 3 := by
  induction valid using valid_induction generalizing p with
  | nil => simp
  | step s l _ found rest ih =>
    obtain ⟨within, first, -, taken, size, -⟩ := utf8Sequence_eq_some.mp found
    have small : l ≤ 4 := size ▸ utf8SeqLen_le first
    by_cases behind : l ≤ p
    · obtain ⟨k, rfl⟩ := Nat.exists_eq_add_of_le behind
      have shorter := @ih k (by rw [List.drop_drop]; exact continued)
      rw [List.length_drop] at shorter
      omega
    · cases tail : s.drop l with
      | nil =>
        have length := congrArg List.length tail
        rw [List.length_drop, List.length_nil] at length
        by_contra long
        have start : p = 0 := by omega
        subst start
        cases s with
        | nil => cases found
        | cons b s =>
          have valid : strUtf8Valid (b :: s) = true := by rw [strUtf8Valid_some found, rest]
          have plain := not_continuation_of_valid valid
          rw [continued b (by simp)] at plain
          cases plain
      | cons b more =>
        rw [tail] at rest
        have plain := not_continuation_of_valid rest
        have member : b ∈ s.drop p := by
          obtain ⟨k, rfl⟩ := Nat.exists_eq_add_of_le (Nat.le_of_not_le behind)
          have inner : b ∈ (s.drop p).drop k := by rw [List.drop_drop, tail]; simp
          exact List.mem_of_mem_drop inner
        rw [continued b member] at plain
        cases plain

theorem strUtf8Valid_utf8Prefix (s : Text) (n : Nat) : strUtf8Valid (utf8Prefix s n) = true := by
  induction n with
  | zero => rfl
  | succ n ih =>
    unfold utf8Prefix
    split
    next valid => exact valid
    next => exact ih

theorem utf8Prefix_eq (s : Text) (n : Nat) : ∃ k ≤ n, utf8Prefix s n = s.take k := by
  induction n with
  | zero => exact ⟨0, Nat.le_refl _, rfl⟩
  | succ n ih =>
    unfold utf8Prefix
    split
    · exact ⟨n + 1, Nat.le_refl _, rfl⟩
    · obtain ⟨k, bound, same⟩ := ih
      exact ⟨k, Nat.le_succ_of_le bound, same⟩

end CognitiveOs.Infra

/-!
# Cutting valid texts

What is in front of a boundary of a valid text is valid, and going back to a boundary never goes
back by a whole sequence.
-/

namespace CognitiveOs.Infra

theorem strUtf8Valid_take {s : Text} (valid : strUtf8Valid s = true) {p : Nat} (boundary : Boundary s p) :
    strUtf8Valid (s.take p) = true := by
  induction valid, boundary using boundary_induction with
  | nil => simp
  | start => rfl
  | step s l p _ _ found _ _ ih =>
    have within := (utf8Sequence_eq_some.mp found).1
    have first : utf8Sequence (s.take l) = some l := by
      rw [← utf8Sequence_append (v := s.drop l) (by simp [within]), List.take_append_drop]
      exact found
    have sequence : strUtf8Valid (s.take l) = true := by
      rw [strUtf8Valid_some first, List.drop_eq_nil_of_le (List.length_take_le l s)]
      rfl
    rw [List.take_add]
    exact strUtf8Valid_append sequence ih

theorem boundaryBefore_le (s : Text) (n : Nat) : boundaryBefore s n ≤ n := by
  induction n with
  | zero => exact Nat.le_refl _
  | succ n ih =>
    unfold boundaryBefore
    split
    · exact Nat.le_succ_of_le ih
    · exact Nat.le_refl _

theorem continuation_of_boundaryBefore {s : Text} {n p : Nat} (behind : boundaryBefore s n < p) (within : p ≤ n) :
    (s[p]?).any isContinuation = true := by
  induction n with
  | zero => omega
  | succ n ih =>
    unfold boundaryBefore at behind
    split at behind
    · rename_i continued
      rcases Nat.lt_or_eq_of_le within with less | rfl
      · exact ih behind (by omega)
      · exact continued
    · omega

theorem boundary_boundaryBefore {s : Text} (valid : strUtf8Valid s = true) (n : Nat) :
    Boundary s (boundaryBefore s n) := by
  induction n with
  | zero =>
    intro b here
    cases s with
    | nil => cases here
    | cons c s =>
      obtain rfl : c = b := by simpa [boundaryBefore] using here
      exact not_continuation_of_valid valid
  | succ n ih =>
    unfold boundaryBefore
    split
    · exact ih
    · rename_i start
      intro b here
      rw [Option.mem_def.mp here] at start
      simpa using start

theorem strUtf8Valid_rest {u v : Text} (left : strUtf8Valid u = true) (whole : strUtf8Valid (u ++ v) = true) :
    strUtf8Valid v = true := by
  induction left using valid_induction with
  | nil => exact whole
  | step s l _ found _ ih =>
    have within := (utf8Sequence_eq_some.mp found).1
    rw [strUtf8Valid_some ((utf8Sequence_append within).mpr found), List.drop_append_of_le_length within] at whole
    exact ih whole

theorem boundary_of_valid_drop {s : Text} {p : Nat} (rest : strUtf8Valid (s.drop p) = true) : Boundary s p := by
  intro b here
  obtain ⟨less, same⟩ := List.getElem?_eq_some_iff.mp here
  rw [List.drop_eq_getElem_cons less, same] at rest
  exact not_continuation_of_valid rest

theorem boundaryBefore_take {s : Text} {n k : Nat} (inside : n < k) :
    boundaryBefore (s.take k) n = boundaryBefore s n := by
  induction n with
  | zero => rfl
  | succ n ih =>
    unfold boundaryBefore
    rw [List.getElem?_take_of_lt inside, ih (Nat.lt_of_succ_lt inside)]

theorem sequence_at_boundary {s : Text} (valid : strUtf8Valid s = true) {n : Nat} (inside : n < s.length) :
    ∃ l, utf8Sequence (s.drop (boundaryBefore s n)) = some l ∧ l ≤ 4 ∧ n < boundaryBefore s n + l ∧
      Boundary s (boundaryBefore s n + l) := by
  have back := boundaryBefore_le s n
  have rest := strUtf8Valid_drop valid (boundary_boundaryBefore valid n)
  have some_bytes : s.drop (boundaryBefore s n) ≠ [] := by
    rw [← List.length_pos_iff, List.length_drop]
    omega
  obtain ⟨l, found⟩ := utf8Sequence_of_valid rest some_bytes
  obtain ⟨-, first, tail, -, size, -⟩ := utf8Sequence_eq_some.mp found
  have next : Boundary s (boundaryBefore s n + l) := by
    apply boundary_of_valid_drop
    rw [← List.drop_drop, ← strUtf8Valid_some found]
    exact rest
  refine ⟨l, found, size ▸ utf8SeqLen_le first, ?_, next⟩
  by_contra short
  -- the byte behind the sequence would continue it
  have pos := utf8Sequence_pos found
  have continued := @continuation_of_boundaryBefore s n (boundaryBefore s n + l) (by omega) (by omega)
  obtain ⟨b, here, other⟩ := (Option.any_eq_true _ _).mp continued
  rw [next b here] at other
  cases other

theorem le_boundaryBefore {s : Text} (valid : strUtf8Valid s = true) {n : Nat} (within : n ≤ s.length) :
    n ≤ boundaryBefore s n + 3 := by
  rcases Nat.lt_or_eq_of_le within with inside | rfl
  · obtain ⟨l, -, small, behind, -⟩ := sequence_at_boundary valid inside
    omega
  · cases length : s.length with
    | zero => exact Nat.zero_le _
    | succ n =>
      rw [boundaryBefore, if_neg (by rw [← length]; simp)]
      omega

end CognitiveOs.Infra
