import CognitiveOs.Infra.Scan

/-!
# Editing a file

`file_edit` of `action/tool_file.c`: a text in a file is replaced, where it is found. The file is read as a C
string, and written from its start.
-/

namespace CognitiveOs.FileEdit

open Infra

/-! ### The tool -/

/-- The loop of `count_occurrences`. -/
def countLoop (needle : Text) : (rounds : Nat) → Text → Nat
  | 0, _ => 0
  | rounds + 1, p =>
    match strstr needle p with
    | some hit => countLoop needle rounds (hit.drop needle.length) + 1
    | none => 0

/-- `count_occurrences`; the search goes on behind each place. -/
def countOccurrences (hay needle : Text) : Nat :=
  if needle = [] then 0 else countLoop needle (hay.length + 1) hay

/-- The loop of `with_crlf`, behind the byte `last`. -/
def crlfLoop : (last : UInt8) → Text → Text
  | _, [] => []
  | last, b :: rest => if b = 10 ∧ last ≠ 13 then 13 :: b :: crlfLoop b rest else b :: crlfLoop b rest

def withCrlf (text : Text) : Text :=
  crlfLoop 0 text

/-- The text that is replaced and the one it is replaced by: the given ones, or both with the line ends of the file. -/
def chooseText (content old new : Text) : Option (Text × Text) :=
  if 0 < countOccurrences content old then some (old, new)
  else if 10 ∈ old ∧ (strstr [13, 10] content).isSome ∧ 0 < countOccurrences content (withCrlf old) then
    some (withCrlf old, withCrlf new)
  else none

def replaceLoop (old new : Text) : (rounds : Nat) → Text → Text
  | 0, p => p
  | rounds + 1, p =>
    match strstr old p with
    | some hit => p.take (p.length - hit.length) ++ new ++ replaceLoop old new rounds (hit.drop old.length)
    | none => p

/-- What becomes of `fs_write_file`: the file is not opened, an error comes after some bytes, or all is written. -/
inductive Write where
  | unopened
  | cut (written : Nat)
  | full

inductive EditResult where
  | notFound
  | notUnique (occ : Nat)
  | writeFailed
  | edited (occ : Nat)
  deriving DecidableEq

def EditResult.succeeded : EditResult → Bool
  | .edited _ => true
  | _ => false

/-- `file_edit_exec` on a file that is there: the result, and the bytes of the file. -/
def fileEdit (content old new : Text) (replaceAll : Bool) (write : Write) : EditResult × Text :=
  let text := cstr content
  match chooseText text (cstr old) (cstr new) with
  | none => (.notFound, content)
  | some (old, new) =>
    let occ := countOccurrences text old
    if 1 < occ ∧ !replaceAll then (.notUnique occ, content)
    else
      let edited := replaceLoop old new (text.length + 1) text
      match write with
      | .unopened => (.writeFailed, content)
      | .cut written => (.writeFailed, edited.take written)
      | .full => (.edited occ, edited)

/-! ### What an edit is -/

def OccursAt (needle text : Text) (i : Nat) : Prop :=
  needle <+: text.drop i

def Twice (needle text : Text) : Prop :=
  ∃ i j, i + needle.length ≤ j ∧ OccursAt needle text i ∧ OccursAt needle text j

def joined (between : Text) : List Text → Text
  | [] => []
  | [piece] => piece
  | piece :: pieces => piece ++ between ++ joined between pieces

def Replaced (old new before after : Text) : Prop :=
  ∃ pieces, 2 ≤ pieces.length ∧ (∀ piece ∈ pieces, ∀ i, ¬ OccursAt old piece i) ∧
    before = joined old pieces ∧ after = joined new pieces

structure Exact (content old new : Text) (replaceAll : Bool) (result : EditResult) (after : Text) : Prop where
  unique : result.succeeded = true → replaceAll = false →
    ∃ s n, chooseText content (cstr old) (cstr new) = some (s, n) ∧ ∃! i, OccursAt s content i
  kept : result.succeeded = true →
    ∃ s n, chooseText content (cstr old) (cstr new) = some (s, n) ∧ Replaced s n content after
  unchanged : result.succeeded = false → after = content

/-! ### Searching -/

variable {needle text found : Text}

theorem strstr_first (nonempty : needle ≠ []) (search : strstr needle text = some found) :
    ∃ front, text = front ++ found ∧ needle <+: found ∧ ∀ i < front.length, ¬ OccursAt needle text i := by
  induction text with
  | nil =>
    unfold strstr at search
    rw [if_neg nonempty] at search
    cases search
  | cons b rest ih =>
    unfold strstr at search
    split at search
    · rename_i here
      cases search
      exact ⟨[], rfl, List.isPrefixOf_iff_prefix.mp here, fun i less => absurd less (Nat.not_lt_zero i)⟩
    · rename_i elsewhere
      obtain ⟨front, rfl, starts, first⟩ := ih search
      refine ⟨b :: front, rfl, starts, fun i less => ?_⟩
      cases i with
      | zero => exact fun here => elsewhere (List.isPrefixOf_iff_prefix.mpr here)
      | succ i => exact first i (Nat.lt_of_succ_lt_succ less)

theorem strstr_eq_none (nonempty : needle ≠ []) : strstr needle text = none ↔ ∀ i, ¬ OccursAt needle text i := by
  induction text with
  | nil => simp [strstr, nonempty, OccursAt]
  | cons b rest ih =>
    unfold strstr
    by_cases here : needle.isPrefixOf (b :: rest)
    · rw [if_pos here]
      constructor
      · intro same
        cases same
      · exact fun absent => absurd (List.isPrefixOf_iff_prefix.mp here) (absent 0)
    · rw [if_neg here, ih]
      constructor
      · intro absent i
        cases i with
        | zero => exact fun starts => here (List.isPrefixOf_iff_prefix.mpr starts)
        | succ i => exact absent i
      · exact fun absent i => absent (i + 1)

theorem OccursAt.inside {i : Nat} (nonempty : needle ≠ []) (occurs : OccursAt needle text i) :
    i + needle.length ≤ text.length := by
  have length := occurs.length_le
  have some : 0 < needle.length := List.length_pos_iff.mpr nonempty
  rw [List.length_drop] at length
  omega

theorem OccursAt.append_left (front : Text) {i : Nat} :
    OccursAt needle (front ++ text) (front.length + i) ↔ OccursAt needle text i := by
  rw [OccursAt, OccursAt, ← List.drop_drop, List.drop_left]

theorem OccursAt.append_right (behind : Text) {i : Nat} (nonempty : needle ≠ []) (occurs : OccursAt needle text i) :
    OccursAt needle (text ++ behind) i := by
  have inside := occurs.inside nonempty
  rw [OccursAt, List.drop_append_of_le_length (by omega)]
  exact occurs.trans (List.prefix_append _ _)

/-! ### Counting -/

theorem countLoop_pos {rounds : Nat} (nonempty : needle ≠ []) :
    0 < countLoop needle (rounds + 1) text ↔ ∃ i, OccursAt needle text i := by
  rw [countLoop]
  cases search : strstr needle text with
  | none => simp [(strstr_eq_none nonempty).mp search]
  | some hit =>
    obtain ⟨front, rfl, starts, -⟩ := strstr_first nonempty search
    exact iff_of_true (Nat.succ_pos _) ⟨front.length, by rwa [OccursAt, List.drop_left]⟩

theorem countOccurrences_pos (nonempty : needle ≠ []) :
    0 < countOccurrences text needle ↔ ∃ i, OccursAt needle text i := by
  rw [countOccurrences, if_neg nonempty, countLoop_pos nonempty]

theorem one_lt_countOccurrences (nonempty : needle ≠ []) : 1 < countOccurrences text needle ↔ Twice needle text := by
  rw [countOccurrences, if_neg nonempty, countLoop]
  cases search : strstr needle text with
  | none =>
    refine iff_of_false (by simp) ?_
    rintro ⟨i, -, -, occurs, -⟩
    exact (strstr_eq_none nonempty).mp search i occurs
  | some hit =>
    obtain ⟨front, rfl, starts, first⟩ := strstr_first nonempty search
    obtain ⟨behind, rfl⟩ := starts
    have here : OccursAt needle (front ++ (needle ++ behind)) front.length := by
      rw [OccursAt, List.drop_left]
      exact List.prefix_append _ _
    have inner : ∃ more, (front ++ (needle ++ behind)).length = more + 1 := by
      have := List.length_pos_iff.mpr nonempty
      exact ⟨front.length + (needle.length - 1 + behind.length), by simp only [List.length_append]; omega⟩
    obtain ⟨more, rounds⟩ := inner
    rw [rounds]
    dsimp only
    rw [List.drop_left,
      show 1 < countLoop needle (more + 1) behind + 1 ↔ 0 < countLoop needle (more + 1) behind by omega,
      countLoop_pos nonempty]
    have whole : front ++ (needle ++ behind) = (front ++ needle) ++ behind := (List.append_assoc _ _ _).symm
    constructor
    · rintro ⟨i, occurs⟩
      refine ⟨front.length, (front ++ needle).length + i, by simp only [List.length_append]; omega, here, ?_⟩
      rw [whole]
      exact (OccursAt.append_left _).mpr occurs
    · rintro ⟨i, j, apart, occurs, later⟩
      have least : front.length ≤ i := Nat.le_of_not_lt fun less => first i less occurs
      refine ⟨j - (front ++ needle).length, ?_⟩
      rw [whole, show j = (front ++ needle).length + (j - (front ++ needle).length) by
        simp only [List.length_append]; omega] at later
      exact (OccursAt.append_left _).mp later

/-! ### Replacing -/

def pieces (old : Text) : (rounds : Nat) → Text → List Text
  | 0, p => [p]
  | rounds + 1, p =>
    match strstr old p with
    | some hit => p.take (p.length - hit.length) :: pieces old rounds (hit.drop old.length)
    | none => [p]

theorem pieces_ne_nil (old : Text) (rounds : Nat) (p : Text) : pieces old rounds p ≠ [] := by
  cases rounds with
  | zero => exact List.cons_ne_nil _ _
  | succ rounds =>
    rw [pieces]
    split <;> exact List.cons_ne_nil _ _

theorem joined_cons (between piece : Text) {rest : List Text} (nonempty : rest ≠ []) :
    joined between (piece :: rest) = piece ++ between ++ joined between rest := by
  cases rest with
  | nil => exact absurd rfl nonempty
  | cons next rest => rfl

theorem replaceLoop_eq (old new : Text) (rounds : Nat) (p : Text) :
    replaceLoop old new rounds p = joined new (pieces old rounds p) := by
  induction rounds generalizing p with
  | zero => rfl
  | succ rounds ih =>
    rw [replaceLoop, pieces]
    cases strstr old p with
    | none => rfl
    | some hit => rw [joined_cons _ _ (pieces_ne_nil _ _ _), ← ih]

theorem pieces_spec {old : Text} (nonempty : old ≠ []) {rounds : Nat} (p : Text) (enough : p.length ≤ rounds) :
    joined old (pieces old rounds p) = p ∧ ∀ piece ∈ pieces old rounds p, ∀ i, ¬ OccursAt old piece i := by
  have some : 0 < old.length := List.length_pos_iff.mpr nonempty
  induction rounds generalizing p with
  | zero =>
    obtain rfl := List.length_eq_zero_iff.mp (Nat.le_zero.mp enough)
    refine ⟨rfl, fun piece inside i occurs => ?_⟩
    rw [List.mem_singleton.mp inside] at occurs
    have := occurs.inside nonempty
    rw [List.length_nil] at this
    omega
  | succ rounds ih =>
    rw [pieces]
    cases search : strstr old p with
    | none =>
      refine ⟨rfl, fun piece inside => ?_⟩
      rw [List.mem_singleton.mp inside]
      exact (strstr_eq_none nonempty).mp search
    | some hit =>
      obtain ⟨front, rfl, ⟨behind, rfl⟩, first⟩ := strstr_first nonempty search
      have cut :
          (front ++ (old ++ behind)).take ((front ++ (old ++ behind)).length - (old ++ behind).length) = front := by
        rw [List.length_append, Nat.add_sub_cancel]
        exact List.take_left
      simp only [cut, List.drop_left]
      obtain ⟨same, without⟩ := ih behind (by simp only [List.length_append] at enough; omega)
      constructor
      · rw [joined_cons _ _ (pieces_ne_nil _ _ _), same, List.append_assoc]
      · refine List.forall_mem_cons.mpr ⟨fun i occurs => ?_, without⟩
        have inside := occurs.inside nonempty
        exact first i (by omega) (occurs.append_right _ nonempty)

/-! ### Terminators -/

theorem not_mem_crlfLoop {last : UInt8} {text : Text} (clean : 0 ∉ text) : 0 ∉ crlfLoop last text := by
  induction text generalizing last with
  | nil => exact clean
  | cons b rest ih =>
    rw [List.mem_cons, not_or] at clean
    rw [crlfLoop]
    split
    · simp [clean.1, ih clean.2]
    · simp [clean.1, ih clean.2]

theorem not_mem_joined {between : Text} (clean : 0 ∉ between) {pieces : List Text} :
    0 ∉ joined between pieces ↔ ∀ piece ∈ pieces, 0 ∉ piece := by
  induction pieces with
  | nil => simp [joined]
  | cons piece rest ih =>
    cases rest with
    | nil => simp [joined]
    | cons next rest => simp [joined_cons, clean, ih]

theorem chooseText_spec {content old new s n : Text} (chosen : chooseText content (cstr old) (cstr new) = some (s, n)) :
    s ≠ [] ∧ 0 ∉ s ∧ 0 ∉ n ∧ ∃ i, OccursAt s content i := by
  have occurs {s : Text} (counted : 0 < countOccurrences content s) : s ≠ [] ∧ ∃ i, OccursAt s content i := by
    have nonempty : s ≠ [] := by
      rintro rfl
      exact absurd counted (by simp [countOccurrences])
    exact ⟨nonempty, (countOccurrences_pos nonempty).mp counted⟩
  rw [chooseText] at chosen
  split at chosen
  · rename_i counted
    cases chosen
    exact ⟨(occurs counted).1, not_mem_cstr _, not_mem_cstr _, (occurs counted).2⟩
  · split at chosen
    · rename_i counted
      cases chosen
      exact ⟨(occurs counted.2.2).1, not_mem_crlfLoop (not_mem_cstr _), not_mem_crlfLoop (not_mem_cstr _),
        (occurs counted.2.2).2⟩
    · cases chosen

/-! ### When an edit is exact -/

def editedText (content s n : Text) : Text :=
  joined n (pieces s (content.length + 1) content)

/-- Nothing is found, or it is found twice where one place is wanted, or the file is not opened, or an error leaves
the old bytes in it; or all is written, the file has no NUL, and one place is wanted only where there is one. -/
def Safe (content old new : Text) (replaceAll : Bool) (write : Write) : Prop :=
  match chooseText (cstr content) (cstr old) (cstr new) with
  | none => True
  | some (s, n) =>
    (replaceAll = false ∧ Twice s (cstr content)) ∨
      match write with
      | .unopened => True
      | .cut written => (editedText (cstr content) s n).take written = content
      | .full => 0 ∉ content ∧ (replaceAll = true ∨ ∃! i, OccursAt s content i)

theorem exact_unchanged {content old new : Text} {replaceAll : Bool} {result : EditResult}
    (failed : result.succeeded = false) (after : Text) :
    Exact content old new replaceAll result after ↔ after = content := by
  constructor
  · exact fun exact => exact.unchanged failed
  · intro same
    refine ⟨fun done => ?_, fun done => ?_, fun _ => same⟩ <;> rw [failed] at done <;> cases done

theorem not_mem_editedText {text s n : Text} (nonempty : s ≠ []) (clean : 0 ∉ text) (cleanS : 0 ∉ s) (cleanN : 0 ∉ n) :
    0 ∉ editedText text s n := by
  obtain ⟨same, -⟩ := pieces_spec nonempty text (Nat.le_succ _)
  rw [← same, not_mem_joined cleanS] at clean
  exact (not_mem_joined cleanN).mpr clean

theorem replaced_editedText {text s : Text} (nonempty : s ≠ []) (n : Text) (occurs : ∃ i, OccursAt s text i) :
    Replaced s n text (editedText text s n) := by
  obtain ⟨same, without⟩ := pieces_spec nonempty text (Nat.le_succ _)
  refine ⟨pieces s (text.length + 1) text, ?_, without, same.symm, rfl⟩
  -- one piece alone would be the whole text
  match shape : pieces s (text.length + 1) text with
  | [] => exact absurd shape (pieces_ne_nil _ _ _)
  | [piece] =>
    rw [shape] at same without
    obtain ⟨i, occurs⟩ := occurs
    obtain rfl : piece = text := same
    exact absurd occurs (without piece (List.mem_singleton.mpr rfl) i)
  | first :: second :: rest => exact Nat.le_add_left 2 _

theorem exact_edited {content old new s n : Text} {replaceAll : Bool} {occ : Nat}
    (chosen : chooseText (cstr content) (cstr old) (cstr new) = some (s, n)) :
    Exact content old new replaceAll (.edited occ) (editedText (cstr content) s n) ↔
      0 ∉ content ∧ (replaceAll = true ∨ ∃! i, OccursAt s content i) := by
  obtain ⟨nonempty, cleanS, cleanN, occurs⟩ := chooseText_spec chosen
  constructor
  · intro exact
    have clean : 0 ∉ content := by
      obtain ⟨s', n', chosen', pieces, -, -, before, after⟩ := exact.kept rfl
      obtain ⟨-, cleanS', cleanN', -⟩ := chooseText_spec chosen'
      have written := not_mem_editedText nonempty (not_mem_cstr content) cleanS cleanN
      rw [after, not_mem_joined cleanN'] at written
      rw [before, not_mem_joined cleanS']
      exact written
    refine ⟨clean, ?_⟩
    rw [cstr_eq_self clean] at chosen
    cases replaceAll with
    | true => exact .inl rfl
    | false =>
      obtain ⟨s', n', chosen', once⟩ := exact.unique rfl rfl
      obtain ⟨rfl, rfl⟩ := Prod.mk.inj (Option.some.inj (chosen.symm.trans chosen'))
      exact .inr once
  · rintro ⟨clean, once⟩
    rw [cstr_eq_self clean] at chosen occurs ⊢
    refine ⟨fun _ single => ⟨s, n, chosen, once.resolve_left (by simp [single])⟩,
      fun _ => ⟨s, n, chosen, replaced_editedText nonempty n occurs⟩, nofun⟩

/-- An edit does what was asked, or nothing, exactly when it is safe. -/
theorem fileEdit_exact (content old new : Text) (replaceAll : Bool) (write : Write) :
    Exact content old new replaceAll (fileEdit content old new replaceAll write).1
        (fileEdit content old new replaceAll write).2 ↔
      Safe content old new replaceAll write := by
  unfold fileEdit Safe
  dsimp only
  cases chosen : chooseText (cstr content) (cstr old) (cstr new) with
  | none => exact (exact_unchanged rfl content).trans (iff_true_intro rfl)
  | some texts =>
    obtain ⟨s, n⟩ := texts
    obtain ⟨nonempty, cleanS, cleanN, occurs⟩ := chooseText_spec chosen
    have many := @one_lt_countOccurrences _ (cstr content) nonempty
    dsimp only
    rw [replaceLoop_eq]
    by_cases twice : replaceAll = false ∧ Twice s (cstr content)
    · rw [if_pos ⟨many.mpr twice.2, by simp [twice.1]⟩]
      exact (exact_unchanged rfl content).trans (iff_of_true rfl (.inl twice))
    · rw [if_neg fun both => twice ⟨by simpa using both.2, many.mp both.1⟩, or_iff_right twice]
      cases write with
      | unopened => exact (exact_unchanged rfl content).trans (iff_true_intro rfl)
      | cut written => exact exact_unchanged rfl _
      | full => exact exact_edited chosen

/-- One place is counted where two overlap, and what is behind a NUL is lost. -/
theorem fileEdit_inexact :
    ¬ Exact (ascii "aaa") (ascii "aa") (ascii "b") false (fileEdit (ascii "aaa") (ascii "aa") (ascii "b") false .full).1
        (fileEdit (ascii "aaa") (ascii "aa") (ascii "b") false .full).2 ∧
      ¬ Exact [97, 0, 99] (ascii "a") (ascii "b") false (fileEdit [97, 0, 99] (ascii "a") (ascii "b") false .full).1
        (fileEdit [97, 0, 99] (ascii "a") (ascii "b") false .full).2 := by
  constructor
  · intro exact
    obtain ⟨s, n, chosen, once⟩ := exact.unique rfl rfl
    have texts : chooseText (ascii "aaa") (cstr (ascii "aa")) (cstr (ascii "b")) = some (ascii "aa", ascii "b") := by
      decide
    obtain ⟨rfl, -⟩ := Prod.mk.inj (Option.some.inj (texts.symm.trans chosen))
    have same : 0 = 1 := once.unique (by unfold OccursAt; decide) (by unfold OccursAt; decide)
    exact absurd same (by decide)
  · intro exact
    have chosen : chooseText (cstr [97, 0, 99]) (cstr (ascii "a")) (cstr (ascii "b")) =
        some (ascii "a", ascii "b") := by
      decide
    exact absurd ((exact_edited chosen).mp exact).1 (by decide)

end CognitiveOs.FileEdit
