import CognitiveOs.Infra.Text
import Mathlib.Algebra.GroupWithZero.Nat
import Mathlib.Data.List.Basic

/-!
# Words of a shell

How a POSIX shell splits a line into the words of one simple command, when nothing in the line is
expanded and no operator ends it.
-/

namespace CognitiveOs.Infra.Shell

def isBlank (c : UInt8) : Bool :=
  c = 32 || c = 9

/-- A byte that stands for itself within a word: no blank or line end, no operator, quotation,
expansion or pattern. -/
def isPlain (c : UInt8) : Bool :=
  !(isBlank c || c = 10 || c = 124 || c = 38 || c = 59 || c = 60 || c = 62 || c = 40 || c = 41 || c = 36 || c = 96 ||
    c = 92 || c = 34 || c = 39 || c = 42 || c = 63 || c = 91)

def isStart (c : UInt8) : Bool :=
  isPlain c && c ≠ 35 && c ≠ 126

inductive Mode where
  | blank
  | word
  | single
  | double
  /-- After a backslash, in a word or in front of one. -/
  | escape (begun : Bool)
  /-- After a backslash in double quotes. -/
  | escapeDouble

def scan : Mode → Text → Text → Option (List Text)
  | .blank, _, [] => some []
  | .blank, _, c :: s =>
    if isBlank c then scan .blank [] s
    else if c = 39 then scan .single [] s
    else if c = 34 then scan .double [] s
    else if c = 92 then scan (.escape false) [] s
    else if isStart c then scan .word [c] s
    else none
  | .word, w, [] => some [w]
  | .word, w, c :: s =>
    if isBlank c then (scan .blank [] s).map (w :: ·)
    else if c = 39 then scan .single w s
    else if c = 34 then scan .double w s
    else if c = 92 then scan (.escape true) w s
    else if isPlain c then scan .word (w ++ [c]) s
    else none
  | .single, _, [] => none
  | .single, w, c :: s => if c = 39 then scan .word w s else scan .single (w ++ [c]) s
  | .double, _, [] => none
  | .double, w, c :: s =>
    if c = 34 then scan .word w s
    else if c = 92 then scan .escapeDouble w s
    else if c = 36 ∨ c = 96 then none
    else scan .double (w ++ [c]) s
  | .escape _, _, [] => none
  | .escape begun, w, c :: s =>
    if c ≠ 10 then scan .word (w ++ [c]) s
    else if begun then scan .word w s
    else scan .blank [] s
  | .escapeDouble, _, [] => none
  | .escapeDouble, w, c :: s =>
    if c = 10 then scan .double w s
    else if c = 36 ∨ c = 96 ∨ c = 34 ∨ c = 92 then scan .double (w ++ [c]) s
    else scan .double (w ++ [92, c]) s

/-- The words of a line, `none` for a line that is no simple command of literal words. -/
def words (line : Text) : Option (List Text) :=
  scan .blank [] line

section

variable (w s : Text) (c : UInt8)

theorem scan_blank : scan .blank w (c :: s) =
    if isBlank c then scan .blank [] s
    else if c = 39 then scan .single [] s
    else if c = 34 then scan .double [] s
    else if c = 92 then scan (.escape false) [] s
    else if isStart c then scan .word [c] s
    else none :=
  rfl

theorem scan_word : scan .word w (c :: s) =
    if isBlank c then (scan .blank [] s).map (w :: ·)
    else if c = 39 then scan .single w s
    else if c = 34 then scan .double w s
    else if c = 92 then scan (.escape true) w s
    else if isPlain c then scan .word (w ++ [c]) s
    else none :=
  rfl

@[simp] theorem scan_word_nil : scan .word w [] = some [w] :=
  rfl

@[simp] theorem scan_escape_nil (begun : Bool) : scan (.escape begun) w [] = none :=
  rfl

@[simp] theorem scan_single_nil : scan .single w [] = none :=
  rfl

theorem scan_single : scan .single w (c :: s) = if c = 39 then scan .word w s else scan .single (w ++ [c]) s :=
  rfl

theorem scan_double : scan .double w (c :: s) =
    if c = 34 then scan .word w s
    else if c = 92 then scan .escapeDouble w s
    else if c = 36 ∨ c = 96 then none
    else scan .double (w ++ [c]) s :=
  rfl

theorem scan_escape (begun : Bool) : scan (.escape begun) w (c :: s) =
    if c ≠ 10 then scan .word (w ++ [c]) s
    else if begun then scan .word w s
    else scan .blank [] s :=
  rfl

theorem scan_escapeDouble : scan .escapeDouble w (c :: s) =
    if c = 10 then scan .double w s
    else if c = 36 ∨ c = 96 ∨ c = 34 ∨ c = 92 then scan .double (w ++ [c]) s
    else scan .double (w ++ [92, c]) s :=
  rfl

end

structure Word (w : Text) : Prop where
  start : ∃ c s, w = c :: s ∧ isStart c = true
  plain : ∀ c ∈ w, isPlain c = true

theorem word_iff {w : Text} : Word w ↔ w.head?.any isStart = true ∧ w.all isPlain = true := by
  constructor
  · rintro ⟨⟨c, s, rfl, start⟩, plain⟩
    exact ⟨start, List.all_eq_true.mpr plain⟩
  · rintro ⟨start, plain⟩
    cases w with
    | nil => cases start
    | cons c s => exact ⟨⟨c, s, rfl, start⟩, List.all_eq_true.mp plain⟩

instance (w : Text) : Decidable (Word w) :=
  decidable_of_iff _ word_iff.symm

/-! ### Plain words -/

theorem not_special {c : UInt8} (plain : isPlain c = true) : isBlank c = false ∧ c ≠ 39 ∧ c ≠ 34 ∧ c ≠ 92 := by
  unfold isPlain at plain
  refine ⟨?_, ?_, ?_, ?_⟩
  · simp at plain
    simp [plain]
  all_goals
    rintro rfl
    revert plain
    decide

theorem scan_word_plain {w s : Text} (plain : ∀ c ∈ s, isPlain c = true) (t : Text) :
    scan .word w (s ++ t) = scan .word (w ++ s) t := by
  induction s generalizing w with
  | nil => simp
  | cons c s ih =>
    have own := plain c List.mem_cons_self
    obtain ⟨blank, single, double, slash⟩ := not_special own
    rw [List.cons_append, scan_word, if_neg (by simp [blank]), if_neg single, if_neg double, if_neg slash, if_pos own,
      ih fun c member => plain c (List.mem_cons_of_mem _ member)]
    simp

theorem scan_start {c : UInt8} (start : isStart c = true) (w s : Text) : scan .blank w (c :: s) = scan .word [c] s := by
  have plain : isPlain c = true := by
    unfold isStart at start
    simp at start
    exact start.1.1
  obtain ⟨blank, single, double, slash⟩ := not_special plain
  rw [scan_blank, if_neg (by simp [blank]), if_neg single, if_neg double, if_neg slash, if_pos start]

theorem scan_blank_word {w : Text} (word : Word w) (s : Text) : scan .blank [] (w ++ s) = scan .word w s := by
  obtain ⟨c, t, rfl, start⟩ := word.start
  rw [List.cons_append, scan_start start, scan_word_plain fun d member => word.plain d (List.mem_cons_of_mem _ member)]
  rfl

theorem scan_front {front : List Text} (plain : ∀ w ∈ front, Word w) (s : Text) :
    scan .blank [] (front.flatMap (· ++ [32]) ++ s) = (scan .blank [] s).map (front ++ ·) := by
  induction front with
  | nil => simp
  | cons w front ih =>
    have blank : isBlank 32 = true := by decide
    rw [List.flatMap_cons, List.append_assoc, List.append_assoc, scan_blank_word (plain w List.mem_cons_self),
      List.singleton_append, scan_word, if_pos blank, ih fun w member => plain w (List.mem_cons_of_mem _ member),
      Option.map_map]
    rfl

/-! ### How long the words are -/

def owed : Mode → Nat
  | .single => 1
  | .double => 1
  | _ => 0

theorem scan_cons {mode : Mode} {c : UInt8} {w s : Text} {ws : List Text} (found : scan mode w (c :: s) = some ws) :
    (∃ mode' w', scan mode' w' s = some ws ∧ w'.length + owed mode ≤ w.length + 1 + owed mode') ∨
      isBlank c = true ∧ ∃ later, scan .blank [] s = some later ∧ ws = w :: later ∧ owed mode = 0 := by
  have goes {mode' : Mode} {w' : Text} (read : scan mode' w' s = some ws)
      (short : w'.length + owed mode ≤ w.length + 1 + owed mode') :
      (∃ mode' w', scan mode' w' s = some ws ∧ w'.length + owed mode ≤ w.length + 1 + owed mode') ∨
        isBlank c = true ∧ ∃ later, scan .blank [] s = some later ∧ ws = w :: later ∧ owed mode = 0 :=
    .inl ⟨mode', w', read, short⟩
  cases mode with
  | blank =>
    rw [scan_blank] at found
    repeat
      split at found
      · exact goes found (by grind [owed])
    cases found
  | word =>
    rw [scan_word] at found
    split at found
    · rename_i blank
      obtain ⟨later, rest, same⟩ := Option.map_eq_some_iff.mp found
      exact .inr ⟨blank, later, rest, same.symm, rfl⟩
    repeat
      split at found
      · exact goes found (by grind [owed])
    cases found
  | single =>
    rw [scan_single] at found
    split at found <;> exact goes found (by grind [owed])
  | double =>
    rw [scan_double] at found
    split at found
    · exact goes found (by grind [owed])
    split at found
    · exact goes found (by grind [owed])
    split at found
    · cases found
    · exact goes found (by grind [owed])
  | escape begun =>
    rw [scan_escape] at found
    split at found
    · exact goes found (by grind [owed])
    split at found <;> exact goes found (by grind [owed])
  | escapeDouble =>
    rw [scan_escapeDouble] at found
    split at found
    · exact goes found (by grind [owed])
    split at found <;> exact goes found (by grind [owed])

theorem scan_length {mode : Mode} {w s : Text} {ws : List Text} (found : scan mode w s = some ws) :
    (ws.map List.length).sum + owed mode ≤ w.length + s.length := by
  induction s generalizing mode w ws with
  | nil =>
    cases mode <;> cases found <;> simp [owed]
  | cons c s ih =>
    rw [List.length_cons]
    rcases scan_cons found with ⟨mode', w', rest, short⟩ | ⟨_, later, rest, rfl, none_owed⟩
    · have := ih rest
      omega
    · have none_later : owed .blank = 0 := rfl
      have := ih rest
      rw [none_later, List.length_nil] at this
      rw [List.map_cons, List.sum_cons]
      omega

theorem scan_exact {w s w' : Text} (found : scan .word w s = some [w']) (long : w'.length = w.length + s.length) :
    w' = w ++ s ∧ ∀ c ∈ s, isPlain c = true := by
  induction s generalizing w with
  | nil =>
    cases found
    simp
  | cons c s ih =>
    rw [scan_word] at found
    rw [List.length_cons] at long
    split at found
    · obtain ⟨later, rest, same⟩ := Option.map_eq_some_iff.mp found
      obtain ⟨rfl, -⟩ := List.cons.inj same
      omega
    have short {mode : Mode} (found : scan mode w s = some [w']) : False := by
      have := scan_length found
      simp at this
      omega
    split at found
    · exact (short found).elim
    split at found
    · exact (short found).elim
    split at found
    · exact (short found).elim
    split at found
    · rename_i plain
      obtain ⟨rfl, rest⟩ := ih found (by simp; omega)
      refine ⟨by simp, fun d member => ?_⟩
      rcases List.mem_cons.mp member with rfl | later
      · exact plain
      · exact rest d later
    · cases found

theorem words_self {w : Text} : words w = some [w] ↔ Word w := by
  constructor
  · intro found
    cases w with
    | nil => cases found
    | cons c s =>
      rw [words, scan_blank] at found
      have short {mode : Mode} (found : scan mode [] s = some [c :: s]) : False := by
        have := scan_length found
        simp at this
        omega
      split at found
      · exact (short found).elim
      split at found
      · exact (short found).elim
      split at found
      · exact (short found).elim
      split at found
      · exact (short found).elim
      split at found
      · rename_i start
        have plain := (scan_exact found (by simp; omega)).2
        have own : isPlain c = true := by
          unfold isStart at start
          simp at start
          exact start.1.1
        exact ⟨⟨c, s, rfl, start⟩, by simpa [own] using plain⟩
      · cases found
  · intro word
    have read := scan_blank_word word []
    rw [List.append_nil] at read
    exact read

theorem scan_count {mode : Mode} {w s : Text} {ws : List Text} (found : scan mode w s = some ws) :
    ws.length ≤ 1 + s.countP isBlank := by
  induction s generalizing mode w ws with
  | nil =>
    cases mode <;> cases found <;> simp
  | cons c s ih =>
    rcases scan_cons found with ⟨mode', w', rest, _⟩ | ⟨blank, later, rest, rfl, _⟩
    · have := ih rest
      rw [List.countP_cons]
      omega
    · have := ih rest
      rw [List.countP_cons, if_pos blank, List.length_cons]
      omega

/-! ### Quoted words -/

def quoteByte (c : UInt8) : Text :=
  if c = 39 then [39, 92, 39, 39] else [c]

def quoted (s : Text) : Text :=
  s.flatMap quoteByte ++ [39]

theorem quoted_cons (c : UInt8) (s : Text) : quoted (c :: s) = quoteByte c ++ quoted s := by
  simp [quoted]

theorem quoted_ne_nil (s : Text) : quoted s ≠ [] := by
  simp [quoted]

theorem scan_quote (w s : Text) : scan .single w (39 :: 92 :: 39 :: 39 :: s) = scan .single (w ++ [39]) s := by
  simp [scan_single, scan_word, scan_escape, isBlank]

theorem quoted_eq_single {s : Text} : quoted s = [39] ↔ s = [] := by
  cases s with
  | nil => simp [quoted]
  | cons c s =>
    have tail := quoted_ne_nil s
    rw [quoted_cons, quoteByte]
    split <;> simp [tail]

theorem last_quoted {c : UInt8} {s cut : Text} : (c :: s).getLast? = some 39 ∧ cut ++ [39, 39] = quoted s ↔
    s.getLast? = some 39 ∧ cut ++ [39, 39] = quoted s := by
  cases s with
  | nil =>
    refine iff_of_false (fun both => ?_) (by simp)
    have lengths := congrArg List.length both.2
    simp [quoted] at lengths
  | cons d s => rw [List.getLast?_cons_cons]

theorem scan_quote_cut (s w : Text) :
    (∀ ws, scan .single w [39, 92, 39] = some ws → ∃ d, d <+: 39 :: s ∧ ws = [w ++ d]) ∧
      (scan .single w [39, 92, 39] = some [w ++ 39 :: s] ↔
        [39, 92, 39] = [39, 92, 39, 39] ++ quoted s ∨
          (39 :: s).getLast? = some 39 ∧ [39, 92, 39] ++ [39, 39] = [39, 92, 39, 39] ++ quoted s) := by
  have read : scan .single w [39, 92, 39] = some [w ++ [39]] := by
    simp [scan_single, scan_word, scan_escape, isBlank]
  rw [read]
  constructor
  · rintro ws found
    cases found
    exact ⟨[39], ⟨s, rfl⟩, rfl⟩
  · have short : ¬ [39, 92, 39] = [39, 92, 39, 39] ++ quoted s := by simp
    rw [or_iff_right short]
    simp only [List.cons_append, List.nil_append, List.cons.injEq, true_and, Option.some.injEq,
      List.append_cancel_left_eq, and_true]
    rw [eq_comm (a := [39]) (b := quoted s), quoted_eq_single]
    constructor
    · intro empty
      rw [← empty]
      exact ⟨rfl, rfl⟩
    · intro both
      exact both.2.symm

/-- What is left of a quoted text that is cut is nothing, or the start of the text; it is the whole text
when nothing but an empty quotation is cut off. -/
theorem scan_quoted_cut {s w cut : Text} (part : cut <+: quoted s) :
    (∀ ws, scan .single w cut = some ws → ∃ d, d <+: s ∧ ws = [w ++ d]) ∧
      (scan .single w cut = some [w ++ s] ↔
        cut = quoted s ∨ s.getLast? = some 39 ∧ cut ++ [39, 39] = quoted s) := by
  induction s generalizing w cut with
  | nil =>
    rcases List.prefix_concat_iff.mp part with rfl | empty
    · simp [scan_single, quoted]
    · obtain rfl := List.prefix_nil.mp empty
      simp [quoted]
  | cons c s ih =>
    rw [quoted_cons] at part ⊢
    by_cases quote : c = 39
    · subst quote
      rw [quoteByte, if_pos rfl] at part ⊢
      match cut, part with
      | [], _ => simp
      | [_], part =>
        obtain ⟨rest, same⟩ := part
        obtain ⟨rfl, -⟩ := List.cons.inj same
        simp [scan_single]
      | [_, _], part =>
        obtain ⟨rest, same⟩ := part
        simp only [List.cons_append, List.nil_append, List.cons.injEq] at same
        obtain ⟨rfl, rfl, -⟩ := same
        have tail := quoted_ne_nil s
        simp [scan_single, scan_word, isBlank, Ne.symm tail]
      | [_, _, _], part =>
        obtain ⟨rest, same⟩ := part
        simp only [List.cons_append, List.nil_append, List.cons.injEq] at same
        obtain ⟨rfl, rfl, rfl, -⟩ := same
        exact scan_quote_cut s w
      | _ :: _ :: _ :: _ :: cut, part =>
        obtain ⟨rest, same⟩ := part
        simp only [List.cons_append, List.nil_append, List.cons.injEq] at same
        obtain ⟨rfl, rfl, rfl, rfl, same⟩ := same
        obtain ⟨found, exact'⟩ := ih (w := w ++ [39]) ⟨rest, same⟩
        rw [scan_quote]
        constructor
        · intro ws read
          obtain ⟨d, start, rfl⟩ := found ws read
          exact ⟨39 :: d, List.cons_prefix_cons.mpr ⟨rfl, start⟩, by simp⟩
        · rw [List.append_assoc, List.singleton_append] at exact'
          rw [exact', ← last_quoted (c := 39)]
          simp
    · rw [quoteByte, if_neg quote] at part ⊢
      match cut, part with
      | [], _ =>
        have other : ¬ 39 = c := Ne.symm quote
        simp [other]
      | d :: cut, part =>
        obtain ⟨rest, same⟩ := part
        obtain ⟨rfl, tail⟩ := List.cons.inj same
        obtain ⟨found, exact'⟩ := ih (w := w ++ [d]) ⟨rest, tail⟩
        rw [scan_single, if_neg quote]
        constructor
        · intro ws read
          obtain ⟨e, start, rfl⟩ := found ws read
          exact ⟨d :: e, List.cons_prefix_cons.mpr ⟨rfl, start⟩, by simp⟩
        · rw [List.append_assoc, List.singleton_append] at exact'
          rw [exact', ← last_quoted (c := d)]
          simp

end CognitiveOs.Infra.Shell
