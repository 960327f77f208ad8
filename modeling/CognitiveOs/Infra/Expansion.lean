import CognitiveOs.Infra.Scan
import CognitiveOs.Infra.Shell
import Mathlib.Data.List.Infix

/-!
# Arguments of a simple command

How a POSIX shell makes the arguments of a command out of a line: the words with what is quoted in
them, the assignments in front of the command, and the words that are patterns for file names. Of
patterns only bracket expressions are read; what such an expression matches is in part left to the
shell.
-/

namespace CognitiveOs.Infra.Shell

/-! ### Words -/

/-- The bytes of a word, and whether they are quoted. -/
abbrev Marked := List (UInt8 × Bool)

def Marked.text (f : Marked) : Text :=
  f.map Prod.fst

def bare (s : Text) : Marked :=
  s.map fun c => (c, false)

def literal (s : Text) : Marked :=
  s.map fun c => (c, true)

def isLetter (c : UInt8) : Bool :=
  isPlain c || c = 91

def scanFields : Mode → Marked → Text → Option (List Marked)
  | .blank, _, [] => some []
  | .blank, _, c :: s =>
    if isBlank c then scanFields .blank [] s
    else if c = 39 then scanFields .single [] s
    else if c = 34 then scanFields .double [] s
    else if c = 92 then scanFields (.escape false) [] s
    else if isStart c || c = 91 then scanFields .word [(c, false)] s
    else none
  | .word, w, [] => some [w]
  | .word, w, c :: s =>
    if isBlank c then (scanFields .blank [] s).map (w :: ·)
    else if c = 39 then scanFields .single w s
    else if c = 34 then scanFields .double w s
    else if c = 92 then scanFields (.escape true) w s
    else if isLetter c then scanFields .word (w ++ [(c, false)]) s
    else none
  | .single, _, [] => none
  | .single, w, c :: s => if c = 39 then scanFields .word w s else scanFields .single (w ++ [(c, true)]) s
  | .double, _, [] => none
  | .double, w, c :: s =>
    if c = 34 then scanFields .word w s
    else if c = 92 then scanFields .escapeDouble w s
    else if c = 36 ∨ c = 96 then none
    else scanFields .double (w ++ [(c, true)]) s
  | .escape _, _, [] => none
  | .escape begun, w, c :: s =>
    if c ≠ 10 then scanFields .word (w ++ [(c, true)]) s
    else if begun then scanFields .word w s
    else scanFields .blank [] s
  | .escapeDouble, _, [] => none
  | .escapeDouble, w, c :: s =>
    if c = 10 then scanFields .double w s
    else if c = 36 ∨ c = 96 ∨ c = 34 ∨ c = 92 then scanFields .double (w ++ [(c, true)]) s
    else scanFields .double (w ++ [(92, true), (c, true)]) s

/-- The words of a line, `none` for a line with anything else than words. -/
def fields (line : Text) : Option (List Marked) :=
  scanFields .blank [] line

/-! ### Bracket expressions -/

inductive Bracket where
  | start
  /-- A closing bracket stands for itself here. -/
  | first
  | inside
  /-- The opening of a class, a collating element or an equivalence class. -/
  | opener (d : UInt8)
  | element (d : UInt8)
  | closer

/-- Behind the byte `x`. -/
def Bracket.behind (x : UInt8 × Bool) (s : Marked) : Bracket :=
  match s with
  | (d, false) :: t =>
    if x = (91, false) ∧ d ∈ [58, 46, 61] ∧ [(d, false), (93, false)] <:+: t then .opener d else .inside
  | _ => .inside

def bracket : Bracket → Marked → Option (Marked × Marked)
  | _, [] => none
  | .start, x :: s =>
    (bracket (if x = (33, false) then .first else .behind x s) s).map fun found => (x :: found.1, found.2)
  | .first, x :: s => (bracket (.behind x s) s).map fun found => (x :: found.1, found.2)
  | .inside, x :: s =>
    if x = (93, false) then some ([], s) else (bracket (.behind x s) s).map fun found => (x :: found.1, found.2)
  | .opener d, x :: s => (bracket (.element d) s).map fun found => (x :: found.1, found.2)
  | .element d, x :: s =>
    (bracket (if x = (d, false) ∧ s.head? = some (93, false) then .closer else .element d) s).map
      fun found => (x :: found.1, found.2)
  | .closer, x :: s => (bracket .inside s).map fun found => (x :: found.1, found.2)

def Listed (content : Marked) : Prop :=
  ∀ x ∈ content, x.2 = true ∨ x.1 ∉ [33, 94, 45, 91]

/-- What a shell lets a bracket expression match, at the start of a file name or behind it. The bytes of a list
match as they are; ranges, classes and a period at the start are the shell's own. -/
structure PatternRules where
  allows : Bool → Marked → UInt8 → Bool
  listed {leading : Bool} {content : Marked} {c : UInt8} : Listed content → ¬(leading = true ∧ c = 46) →
    (allows leading content c = true ↔ c ∈ content.text)

def opening (f : Marked) : Option (Marked × Marked) :=
  match f with
  | (91, false) :: s => bracket .start s
  | _ => none

def matchName (rules : PatternRules) : Bool → Text → Marked → Bool
  | _, [], f => f = []
  | leading, c :: name, f =>
    match opening f with
    | some (content, rest) => rules.allows leading content c && matchName rules false name rest
    | none =>
      match f with
      | [] => false
      | x :: s => c = x.1 && matchName rules false name s

structure Directory where
  names : List Text
  distinct : names.Nodup
  proper : ∀ name ∈ names, name ≠ [] ∧ 0 ∉ name ∧ 47 ∉ name

def expand (rules : PatternRules) (directory : Directory) (f : Marked) : Option (List Text) :=
  if (91, false) ∈ f then
    if 47 ∈ f.text then none
    else
      let found := directory.names.filter fun name => matchName rules true name f
      some (if found = [] then [f.text] else found)
  else some [f.text]

/-! ### Commands -/

def isAssignment (f : Marked) : Bool :=
  let name := f.takeWhile fun x => !x.2 && (isAlnum x.1 || x.1 = 95)
  name ≠ [] && !(name.head?.any fun x => isDigit x.1) && (f.drop name.length).head? = some (61, false)

def arguments (rules : PatternRules) (directory : Directory) (line : Text) : Option (List Text) :=
  (fields line).bind fun words => ((words.dropWhile isAssignment).mapM (expand rules directory)).map List.flatten

/-! ### Lines of bare and quoted words -/

/-- A word with an unquoted start and a quoted end, either of which may be missing. -/
structure Piece where
  front : Text
  quote : Option Text

namespace Piece

def text (p : Piece) : Text :=
  p.front ++ p.quote.elim [] fun s => 39 :: quoted s

def field (p : Piece) : Marked :=
  bare p.front ++ literal (p.quote.getD [])

structure Proper (p : Piece) : Prop where
  letters : ∀ c ∈ p.front, isLetter c = true
  start : ∀ c ∈ p.front.head?, isStart c = true ∨ c = 91
  something : p.front = [] → p.quote.isSome = true

end Piece

def lineOf : List Piece → Text
  | [] => []
  | [p] => p.text
  | p :: ps => p.text ++ 32 :: lineOf ps

theorem lineOf_cons (p : Piece) (ps : List Piece) : lineOf (p :: ps) = p.text ++ ps.flatMap fun q => 32 :: q.text := by
  induction ps generalizing p with
  | nil => simp [lineOf]
  | cons q ps ih =>
    rw [lineOf, ih, List.flatMap_cons, List.cons_append]
    exact List.cons_ne_nil q ps

theorem not_special_letter {c : UInt8} (letter : isLetter c = true) :
    isBlank c = false ∧ c ≠ 39 ∧ c ≠ 34 ∧ c ≠ 92 := by
  rcases Bool.or_eq_true .. |>.mp letter with plain | opens
  · exact not_special plain
  · rw [decide_eq_true_eq] at opens
    subst opens
    decide

theorem scanFields_word {w : Marked} {s : Text} (letters : ∀ c ∈ s, isLetter c = true) (t : Text) :
    scanFields .word w (s ++ t) = scanFields .word (w ++ bare s) t := by
  induction s generalizing w with
  | nil => simp [bare]
  | cons c s ih =>
    obtain ⟨own, rest⟩ := List.forall_mem_cons.mp letters
    obtain ⟨blank, single, double, slash⟩ := not_special_letter own
    rw [List.cons_append, scanFields, if_neg (by simp [blank]), if_neg single, if_neg double, if_neg slash, if_pos own,
      ih rest]
    simp [bare]

theorem scanFields_quoted (w : Marked) (s t : Text) :
    scanFields .single w (quoted s ++ t) = scanFields .word (w ++ literal s) t := by
  induction s generalizing w with
  | nil => simp [quoted, scanFields, literal]
  | cons c s ih =>
    rw [quoted_cons, quoteByte]
    split
    · rename_i quote
      subst quote
      simp [scanFields, isBlank, ih, literal]
    · rename_i other
      simp [scanFields, other, ih, literal]

theorem scanFields_piece {p : Piece} (proper : p.Proper) (t : Text) :
    scanFields .blank [] (p.text ++ t) = scanFields .word p.field t := by
  obtain ⟨front, quote⟩ := p
  have tail (w : Marked) : scanFields .word w ((quote.elim [] fun s => 39 :: quoted s) ++ t) =
      scanFields .word (w ++ literal (quote.getD [])) t := by
    cases quote with
    | none => simp [literal]
    | some s =>
      have blank : isBlank 39 = false := by decide
      rw [Option.elim_some, List.cons_append, scanFields, if_neg (by simp [blank]), if_pos rfl, scanFields_quoted,
        Option.getD_some]
  cases front with
  | nil =>
    obtain ⟨s, rfl⟩ := Option.isSome_iff_exists.mp (proper.something rfl)
    have blank : isBlank 39 = false := by decide
    rw [Piece.text, List.nil_append, Option.elim_some, List.cons_append, scanFields, if_neg (by simp [blank]),
      if_pos rfl, scanFields_quoted]
    rfl
  | cons c front =>
    obtain ⟨own, rest⟩ := List.forall_mem_cons.mp proper.letters
    obtain ⟨blank, single, double, slash⟩ := not_special_letter own
    have start : (isStart c || decide (c = 91)) = true := by
      rcases proper.start c rfl with start | opens
      · rw [start, Bool.true_or]
      · rw [decide_eq_true opens, Bool.or_true]
    rw [Piece.text, List.cons_append, List.cons_append, scanFields, if_neg (by simp [blank]), if_neg single,
      if_neg double, if_neg slash, if_pos start, List.append_assoc, scanFields_word rest, tail]
    rfl

theorem fields_lineOf {ps : List Piece} (proper : ∀ p ∈ ps, p.Proper) :
    fields (lineOf ps) = some (ps.map Piece.field) := by
  have blank : isBlank 32 = true := by decide
  induction ps with
  | nil => rfl
  | cons p ps ih =>
    obtain ⟨own, rest⟩ := List.forall_mem_cons.mp proper
    cases ps with
    | nil =>
      have read := scanFields_piece own []
      rw [List.append_nil] at read
      exact read
    | cons q ps =>
      have later := ih rest
      rw [fields] at later ⊢
      rw [lineOf, scanFields_piece own, scanFields, if_pos blank, later]
      · rfl
      · exact List.cons_ne_nil q ps

/-! ### Words that stay as they are -/

variable {s content rest f : Marked}

def bracketed : Marked → Bool
  | [] => false
  | x :: s => (x = (91, false) && (93, false) ∈ s.drop 1) || bracketed s

theorem bracketed_of_mem (closes : (93, false) ∈ s.drop 1) : bracketed ((91, false) :: s) = true := by
  rw [bracketed, decide_eq_true closes]
  rfl

theorem bracketed_cons {x : UInt8 × Bool} (later : bracketed s = true) : bracketed (x :: s) = true := by
  rw [bracketed, later, Bool.or_true]

theorem bracket_eq {b : Bracket} (found : bracket b s = some (content, rest)) :
    s = content ++ (93, false) :: rest ∧ (b ≠ .inside → content ≠ []) := by
  induction s generalizing b content with
  | nil => cases b <;> cases found
  | cons x s ih =>
    have taken {b' : Bracket}
        (found : (bracket b' s).map (fun found => (x :: found.1, found.2)) = some (content, rest)) :
        x :: s = content ++ (93, false) :: rest ∧ (b ≠ .inside → content ≠ []) := by
      obtain ⟨⟨inner, after⟩, later, same⟩ := Option.map_eq_some_iff.mp found
      cases same
      obtain ⟨rfl, -⟩ := ih later
      exact ⟨rfl, fun _ => List.cons_ne_nil _ _⟩
    cases b with
    | inside =>
      rw [bracket] at found
      split at found
      · rename_i closes
        cases found
        exact ⟨by rw [closes, List.nil_append], fun other => absurd rfl other⟩
      · exact taken found
    | start => exact taken found
    | first => exact taken found
    | opener d => exact taken found
    | element d => exact taken found
    | closer => exact taken found

theorem opening_eq (found : opening f = some (content, rest)) :
    f = (91, false) :: (content ++ (93, false) :: rest) ∧ content ≠ [] := by
  unfold opening at found
  split at found
  · obtain ⟨rfl, some_byte⟩ := bracket_eq found
    exact ⟨rfl, some_byte nofun⟩
  · cases found

theorem opening_bracketed (found : opening f = some (content, rest)) : bracketed f = true := by
  obtain ⟨rfl, some_byte⟩ := opening_eq found
  cases content with
  | nil => exact absurd rfl some_byte
  | cons x content => exact bracketed_of_mem (by simp)

theorem matchName_cons (rules : PatternRules) (leading : Bool) (c : UInt8) (name : Text) (f : Marked) :
    matchName rules leading (c :: name) f =
      match opening f with
      | some (content, rest) => rules.allows leading content c && matchName rules false name rest
      | none =>
        match f with
        | [] => false
        | x :: s => c = x.1 && matchName rules false name s := by
  rw [matchName.eq_def]

theorem matchName_self (rules : PatternRules) (quiet : bracketed f = false) {leading : Bool} {name : Text} :
    matchName rules leading name f = true ↔ name = f.text := by
  induction name generalizing leading f with
  | nil =>
    cases f with
    | nil => simp [matchName, Marked.text]
    | cons x s => simp [matchName, Marked.text]
  | cons c name ih =>
    have nothing : opening f = none := by
      rw [Option.eq_none_iff_forall_ne_some]
      rintro ⟨content, rest⟩ found
      rw [opening_bracketed found] at quiet
      cases quiet
    rw [matchName_cons, nothing]
    cases f with
    | nil => simp [Marked.text]
    | cons x s =>
      have later : bracketed s = false := by
        by_contra some_bracket
        rw [Bool.not_eq_false] at some_bracket
        rw [bracketed_cons some_bracket] at quiet
        cases quiet
      have rest := @ih s later false
      simp only [Bool.and_eq_true, decide_eq_true_eq, rest, Marked.text, List.map_cons, List.cons.injEq]

theorem expand_self (rules : PatternRules) (directory : Directory) (quiet : bracketed f = false)
    (file : (91, false) ∈ f → 47 ∉ f.text) : expand rules directory f = some [f.text] := by
  unfold expand
  split
  · rename_i opens
    have same : (directory.names.filter fun name => matchName rules true name f) =
        directory.names.filter fun name => name = f.text := by
      refine List.filter_congr fun name _ => ?_
      rw [Bool.eq_iff_iff, matchName_self rules quiet, decide_eq_true_eq]
    rw [if_neg (file opens), same]
    by_cases member : f.text ∈ directory.names
    · have only : (directory.names.filter fun name => name = f.text) = [f.text] := by
        have counted := List.filter_beq (l := directory.names) f.text
        rw [directory.distinct.count, if_pos member] at counted
        simpa [beq_eq_decide] using counted
      simp [only]
    · have nothing : (directory.names.filter fun name => name = f.text) = [] := by
        refine List.filter_eq_nil_iff.mpr fun name isName => ?_
        rw [decide_eq_true_eq]
        rintro rfl
        exact member isName
      simp [nothing]
  · rfl

theorem mapM_expand (rules : PatternRules) (directory : Directory) {fs : List Marked}
    (plain : ∀ f ∈ fs, (91, false) ∉ f) : fs.mapM (expand rules directory) = some (fs.map fun f => [f.text]) := by
  induction fs with
  | nil => rfl
  | cons f fs ih =>
    obtain ⟨own, rest⟩ := List.forall_mem_cons.mp plain
    rw [List.mapM_cons, expand, if_neg own, ih rest]
    rfl

/-! ### Words that are patterns -/

def listing : PatternRules where
  allows _ content c := c ∈ content.text
  listed _ _ := decide_eq_true_iff

theorem behind_cases (x : UInt8 × Bool) (s : Marked) :
    Bracket.behind x s = .inside ∨ x = (91, false) ∧ (93, false) ∈ s.drop 1 := by
  unfold Bracket.behind
  split
  · rename_i d t
    split
    · rename_i opens
      exact .inr ⟨opens.1, opens.2.2.mem (by simp)⟩
    · exact .inl rfl
  · exact .inl rfl

theorem bracketed_of_inside (open' : bracket .inside s = none) (closes : (93, false) ∈ s) : bracketed s = true := by
  induction s with
  | nil => cases closes
  | cons x s ih =>
    rw [bracket] at open'
    split at open'
    · cases open'
    · rename_i other
      rcases List.mem_cons.mp closes with rfl | later
      · exact absurd rfl other
      · rcases behind_cases x s with inside | ⟨rfl, behind⟩
        · rw [inside, Option.map_eq_none_iff] at open'
          exact bracketed_cons (ih open' later)
        · exact bracketed_of_mem behind

theorem bracketed_of_start (mark : (33, false) ∉ s) (open' : bracket .start s = none)
    (closes : (93, false) ∈ s.drop 1) : bracketed s = true := by
  cases s with
  | nil => cases closes
  | cons x s =>
    have other : x ≠ (33, false) := by
      rintro rfl
      exact mark List.mem_cons_self
    rw [bracket, if_neg other, Option.map_eq_none_iff] at open'
    rcases behind_cases x s with inside | ⟨rfl, behind⟩
    · rw [inside] at open'
      exact bracketed_cons (bracketed_of_inside open' closes)
    · exact bracketed_of_mem behind

theorem exists_match (f : Marked) (mark : (33, false) ∉ f) : ∃ name : Text,
    (∀ leading, matchName listing leading name f = true) ∧ name.length ≤ f.length ∧
      (bracketed f = true → name.length < f.length) ∧ (∀ c ∈ name, c ∈ f.text) ∧ (f ≠ [] → name ≠ []) := by
  induction size : f.length using Nat.strong_induction_on generalizing f with
  | _ n ih =>
  subst size
  cases found : opening f with
  | some pair =>
    obtain ⟨content, rest⟩ := pair
    obtain ⟨rfl, some_byte⟩ := opening_eq found
    obtain ⟨y, content, rfl⟩ := List.exists_cons_of_ne_nil some_byte
    obtain ⟨name, matched, short, -, own, -⟩ := ih rest.length
      (by simp only [List.length_cons, List.length_append]; omega) rest (fun member => mark (by simp [member])) rfl
    refine ⟨y.1 :: name, fun leading => ?_, ?_, fun _ => ?_, ?_, fun _ => List.cons_ne_nil _ _⟩
    · have listed : listing.allows leading (y :: content) y.1 = true :=
        decide_eq_true (List.mem_map_of_mem List.mem_cons_self)
      simp only [matchName_cons, found, listed, matched, Bool.and_self]
    · simp only [List.length_cons, List.length_append]
      omega
    · simp only [List.length_cons, List.length_append]
      omega
    · refine List.forall_mem_cons.mpr ⟨by simp [Marked.text], fun c member => ?_⟩
      have := own c member
      simp only [Marked.text] at this ⊢
      simp [this]
  | none =>
    cases f with
    | nil => exact ⟨[], fun _ => rfl, Nat.le_refl 0, nofun, nofun, fun none' => absurd rfl none'⟩
    | cons x s =>
      obtain ⟨name, matched, short, shorter, own, -⟩ := ih s.length (Nat.lt_succ_self _) s
        (fun member => mark (by simp [member])) rfl
      refine ⟨x.1 :: name, fun leading => ?_, ?_, fun pattern => ?_, ?_, fun _ => List.cons_ne_nil _ _⟩
      · rw [matchName_cons, found]
        simp [matched]
      · simp only [List.length_cons]
        omega
      · have later : bracketed s = true := by
          rw [bracketed, Bool.or_eq_true, Bool.and_eq_true, decide_eq_true_eq, decide_eq_true_eq] at pattern
          rcases pattern with ⟨rfl, closes⟩ | later
          · exact bracketed_of_start (fun member => mark (by simp [member])) found closes
          · exact later
        have := shorter later
        simp only [List.length_cons]
        omega
      · refine List.forall_mem_cons.mpr ⟨by simp [Marked.text], fun c member => ?_⟩
        exact List.mem_cons_of_mem _ (own c member)

theorem exists_expand (mark : (33, false) ∉ f) (clean : 0 ∉ f.text) (file : 47 ∉ f.text)
    (pattern : bracketed f = true) : ∃ directory name, expand listing directory f = some [name] ∧ name ≠ f.text := by
  obtain ⟨name, matched, -, shorter, own, some_byte⟩ := exists_match f mark
  have opens : (91, false) ∈ f := by
    clear mark clean file matched shorter own some_byte
    induction f with
    | nil => cases pattern
    | cons x s ih =>
      rw [bracketed, Bool.or_eq_true, Bool.and_eq_true, decide_eq_true_eq] at pattern
      rcases pattern with ⟨rfl, -⟩ | later
      · exact List.mem_cons_self
      · exact List.mem_cons_of_mem _ (ih later)
  refine ⟨⟨[name], by simp, ?_⟩, name, ?_, ?_⟩
  · intro one member
    rw [List.mem_singleton.mp member]
    exact ⟨some_byte (List.ne_nil_of_mem opens), fun zero => clean (own 0 zero), fun slash => file (own 47 slash)⟩
  · rw [expand, if_pos opens, if_neg file]
    simp [matched]
  · rintro rfl
    have := shorter pattern
    simp [Marked.text] at this

end CognitiveOs.Infra.Shell
