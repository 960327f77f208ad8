import CognitiveOs.Foundation.Borders
import CognitiveOs.Infra.Scan

/-!
# Searching a file

`grep_line` and `grep_file` of `action/tool_search.c`. The file is read in slices, and the state of
the search is carried from one slice to the next.
-/

namespace CognitiveOs.Action.Search

open Infra Foundation

/-! ### The search -/

inductive GrepMode where
  | filesWithMatches
  | content
  | count
  deriving DecidableEq

/-- What `grep_exec` has read from the arguments. -/
structure Query where
  needle : Text
  ignoreCase : Bool
  mode : GrepMode
  headLimit : Nat
  maxScanBytes : Nat
  maxFiles : Nat

def ciChar (c : UInt8) : UInt8 :=
  if 65 ≤ c ∧ c ≤ 90 then c + 32 else c

namespace Query

variable (q : Query)

def fold (c : UInt8) : UInt8 :=
  if q.ignoreCase then ciChar c else c

def folded : Text :=
  q.needle.map q.fold

/-- `g->prefix`, as `grep_exec` fills it. -/
def table : List Nat :=
  buildTable q.folded

end Query

structure Output where
  sb : Text := []
  outN : Nat := 0
  stopReason : Option Text := none

structure GrepState where
  out : Output := {}
  scannedBytes : Nat := 0
  scannedFiles : Nat := 0
  skippedBinary : Nat := 0
  cancelled : Bool := false
  /-- How often the search has asked whether to stop. -/
  polls : Nat := 0

inductive Halt where
  | cancelled
  | timeout

def Output.stop (out : Output) (reason : String) : Output :=
  { out with stopReason := some (ascii reason) }

/-- `grep_stop`; `halts` is what the caller and the clock say. -/
def grepStop (halts : Nat → Option Halt) (g : GrepState) : GrepState × Bool :=
  if g.out.stopReason.isSome then (g, true)
  else
    match halts g.polls with
    | some .cancelled =>
      ({ g with out := g.out.stop "search cancelled", cancelled := true, polls := g.polls + 1 }, true)
    | some .timeout =>
      ({ g with
          out := g.out.stop "search timeout; narrow the path or raise timeout_ms"
          polls := g.polls + 1 }, true)
    | none => ({ g with polls := g.polls + 1 }, false)

/-- The variables of `grep_file` that belong to the line. -/
structure LineScan where
  line : Text := []
  total : Nat := 0
  lineno : Nat := 1
  matched : Bool := false
  matchedLen : Nat := 0
  hits : Nat := 0
  done : Bool := false

def stepBack (line : Text) : Nat → Nat
  | 0 => 0
  | n + 1 => if (line.getD (n + 1) 0) &&& 0xC0 = 0x80 then stepBack line n else n + 1

def excerptLength (line : Text) : Nat :=
  stepBack line (min line.length 8192)

def excerpt (line : Text) (total : Nat) : Text :=
  line.take (excerptLength line) ++
    if excerptLength line < total then ascii " [line preview truncated; inspect file]" else []

def entry (rel : Text) (lineno : Nat) (line : Text) (total : Nat) : Text :=
  rel ++ 58 :: (decimal lineno ++ 58 :: (excerpt line total ++ [10]))

def headReached : String := "head_limit reached; results may be truncated"

def grepLine (q : Query) (rel : Text) (s : LineScan) (out : Output) : LineScan × Output × Bool :=
  if !s.matched then (s, out, false)
  else
    let s := { s with hits := s.hits + 1 }
    match q.mode with
    | .filesWithMatches => (s, out, true)
    | .content =>
      let out := { out with sb := out.sb ++ entry rel s.lineno s.line s.total, outN := out.outN + 1 }
      if q.headLimit ≤ out.outN then (s, out.stop headReached, true) else (s, out, false)
    | .count => (s, out, false)

def scanByte (q : Query) (rel : Text) (state : LineScan × Output) (c : UInt8) : LineScan × Output :=
  let (s, out) := state
  if s.done then (s, out)
  else if c = 10 then
    match grepLine q rel s out with
    | (s, out, true) => ({ s with done := true }, out)
    | (s, out, false) => ({ lineno := s.lineno + 1, hits := s.hits }, out)
  else
    let s := { s with total := s.total + 1, line := if s.line.length < 8196 then s.line ++ [c] else s.line }
    match searchStep q.folded q.table s.matchedLen (q.fold c) with
    | (m, false) => ({ s with matchedLen := m }, out)
    | (m, true) =>
      let s := { s with matched := true, matchedLen := m }
      if q.mode = .filesWithMatches then ({ s with hits := 1, done := true }, out) else (s, out)

def finishLine (q : Query) (rel : Text) (state : LineScan × Output) : LineScan × Output :=
  let (s, out) := state
  if !s.done && 0 < s.total then
    match grepLine q rel s out with
    | (s, out, _) => (s, out)
  else (s, out)

def grepLoop (q : Query) (rel : Text) (halts : Nat → Option Halt) (slice : Nat → Nat → Option (Text × Bool)) :
    Nat → Nat → LineScan → GrepState → LineScan × GrepState × Bool
  | 0, _, s, g => (s, g, false)
  | fuel + 1, offset, s, g =>
    if s.done then (s, g, false)
    else
      match grepStop halts g with
      | (g, true) => (s, g, false)
      | (g, false) =>
        if q.maxScanBytes ≤ g.scannedBytes then
          (s, { g with out := g.out.stop "byte budget exhausted; narrow the path or raise max_scan_bytes" }, false)
        else
          match slice offset (min (q.maxScanBytes - g.scannedBytes) 8192) with
          | none => (s, g, false)
          | some (chunk, more) =>
            let g := { g with scannedBytes := g.scannedBytes + chunk.length }
            if 0 ∈ chunk then (s, { g with skippedBinary := g.skippedBinary + 1 }, true)
            else
              let state := chunk.foldl (scanByte q rel) (s, g.out)
              if !more || chunk = [] then
                let state := finishLine q rel state
                (state.1, { g with out := state.2 }, false)
              else grepLoop q rel halts slice fuel (offset + chunk.length) state.1 { g with out := state.2 }

def fileEntry (q : Query) (rel : Text) (hits : Nat) (out : Output) : Output :=
  if hits ≠ 0 ∧ q.mode ≠ .content ∧ (out.stopReason = none ∨ q.mode = .filesWithMatches) then
    let text := if q.mode = .filesWithMatches then rel ++ [10] else rel ++ 58 :: (decimal hits ++ [10])
    let out := { out with sb := out.sb ++ text, outN := out.outN + 1 }
    if q.headLimit ≤ out.outN then out.stop headReached else out
  else out

/-- `grep_file`. Each slice but the last takes a byte of the budget, so the loop has rounds enough. -/
def grepFile (q : Query) (rel : Text) (halts : Nat → Option Halt) (slice : Nat → Nat → Option (Text × Bool))
    (g : GrepState) : GrepState :=
  match grepStop halts g with
  | (g, true) => g
  | (g, false) =>
    if q.maxFiles ≤ g.scannedFiles then
      { g with out := g.out.stop "file budget exhausted; narrow the path or raise max_files" }
    else
      match grepLoop q rel halts slice (q.maxScanBytes + 1) 0 {} { g with scannedFiles := g.scannedFiles + 1 } with
      | (_, g, true) => g
      | (s, g, false) => { g with out := fileEntry q rel s.hits g.out }

def fsReadFileSlice (content : Text) (offset maxBytes : Nat) : Option (Text × Bool) :=
  some ((content.drop offset).take maxBytes, maxBytes < (content.drop offset).length)

/-! ### Line by line -/

def lines (content : Text) : List Text :=
  if (content.splitOn 10).getLast? = some [] then (content.splitOn 10).dropLast else content.splitOn 10

def Query.contains (q : Query) (line : Text) : Bool :=
  decide (q.folded <:+: line.map q.fold)

def matching (q : Query) (lineno : Nat) (lines : List Text) : List (Text × Nat) :=
  (lines.zipIdx lineno).filter fun numbered => q.contains numbered.1

def report (q : Query) (rel : Text) (found : List (Text × Nat)) : Text :=
  match q.mode with
  | .content => found.flatMap fun numbered => entry rel numbered.2 numbered.1 numbered.1.length
  | .filesWithMatches => if found = [] then [] else rel ++ [10]
  | .count => if found = [] then [] else rel ++ 58 :: (decimal found.length ++ [10])

def entries (q : Query) (found : List (Text × Nat)) : Nat :=
  if q.mode = .content then found.length else if found = [] then 0 else 1

def Delivers (content : Text) (slice : Nat → Nat → Option (Text × Bool)) : Prop :=
  ∀ offset maxBytes, 0 < maxBytes → ∃ chunk, chunk <+: content.drop offset ∧ chunk.length ≤ maxBytes ∧
    (offset < content.length → chunk ≠ []) ∧
    slice offset maxBytes = some (chunk, decide (offset + chunk.length < content.length))

theorem delivers_fsReadFileSlice (content : Text) : Delivers content (fsReadFileSlice content) := by
  intro offset maxBytes positive
  refine ⟨(content.drop offset).take maxBytes, List.take_prefix _ _, List.length_take_le _ _, fun inside => ?_, ?_⟩
  · rw [ne_eq, List.take_eq_nil_iff, List.drop_eq_nil_iff]
    omega
  · unfold fsReadFileSlice
    congr 2
    rw [decide_eq_decide, List.length_take, List.length_drop]
    omega

/-! ### One line -/

variable {line : Text}

theorem stepBack_le (line : Text) (n : Nat) : stepBack line n ≤ n := by
  induction n with
  | zero => exact Nat.le_refl 0
  | succ n ih =>
    unfold stepBack
    split
    · exact ih.trans (Nat.le_succ n)
    · exact Nat.le_refl _

theorem stepBack_take {n k : Nat} (inside : n < k) : stepBack (line.take k) n = stepBack line n := by
  induction n with
  | zero => rfl
  | succ n ih =>
    have same : (line.take k).getD (n + 1) 0 = line.getD (n + 1) 0 := by
      rw [List.getD_eq_getElem?_getD, List.getD_eq_getElem?_getD, List.getElem?_take_of_lt inside]
    rw [stepBack, stepBack, same, ih (by omega)]

theorem entry_take (rel line : Text) (lineno total : Nat) :
    entry rel lineno (line.take 8196) total = entry rel lineno line total := by
  have size : min (line.take 8196).length 8192 = min line.length 8192 := by
    rw [List.length_take]
    omega
  have length : excerptLength (line.take 8196) = excerptLength line := by
    unfold excerptLength
    rw [size, stepBack_take (by omega)]
  have bound : excerptLength line ≤ 8192 := (stepBack_le line _).trans (Nat.min_le_right _ _)
  unfold entry excerpt
  rw [length, List.take_take, Nat.min_eq_left (by omega)]

variable {q : Query} {rel : Text}

variable {s : LineScan}

theorem scanByte_done (done : s.done = true) (out : Output) (rest : Text) :
    rest.foldl (scanByte q rel) (s, out) = (s, out) := by
  induction rest with
  | nil => rfl
  | cons c rest ih =>
    have same : scanByte q rel (s, out) c = (s, out) := by simp [scanByte, done]
    rw [List.foldl_cons, same, ih]

theorem folded_ne_nil (some' : q.needle ≠ []) : q.folded ≠ [] := by
  simpa [Query.folded] using some'

/-- The variables in the middle of a line that does not contain the needle, or that is not left
when it does. -/
def midLine (q : Query) (lineno hits : Nat) (line : Text) (m : Nat) : LineScan :=
  { line := line.take 8196, total := line.length, lineno, matched := q.contains line, matchedLen := m, hits }

def Left (s : LineScan) : Prop :=
  s.done = true ∧ s.hits = 1

theorem contains_concat (line : Text) (c : UInt8) :
    q.contains (line ++ [c]) = true ↔ q.folded <:+ line.map q.fold ++ [q.fold c] ∨ q.contains line = true := by
  unfold Query.contains
  rw [decide_eq_true_eq, decide_eq_true_eq, List.map_append, List.map_singleton, List.infix_concat_iff]

theorem take_push (cap : Nat) (line : Text) (c : UInt8) :
    (if (line.take cap).length < cap then line.take cap ++ [c] else line.take cap) = (line ++ [c]).take cap := by
  rw [List.take_append, List.length_take]
  split
  · obtain ⟨k, rest⟩ : ∃ k, cap - line.length = k + 1 := ⟨cap - line.length - 1, by omega⟩
    rw [rest, List.take_succ_cons, List.take_nil]
  · have long : cap - line.length = 0 := by omega
    rw [long, List.take_zero, List.append_nil]

theorem scan_line (rel : Text) (some' : q.needle ≠ []) (lineno hits : Nat) (out : Output) (text : (10 : UInt8) ∉ line) :
    (∃ s, line.foldl (scanByte q rel) ({ lineno, hits }, out) = (s, out) ∧ Left s ∧
      q.mode = .filesWithMatches ∧ q.contains line = true) ∨
    (∃ m, line.foldl (scanByte q rel) ({ lineno, hits }, out) = (midLine q lineno hits line m, out) ∧
      Tracks q.folded (line.map q.fold) (q.folded.length - 1) m ∧
      (q.mode = .filesWithMatches → q.contains line = false)) := by
  have pattern := folded_ne_nil some'
  induction line using List.reverseRecOn with
  | nil =>
    have none' : q.contains [] = false := by
      unfold Query.contains
      rw [decide_eq_false_iff_not, List.map_nil, List.infix_nil]
      exact pattern
    refine .inr ⟨0, ?_, tracks_empty (Nat.sub_le _ _), fun _ => none'⟩
    simp [midLine, none']
  | append_singleton line c ih =>
    rw [List.mem_append, not_or, List.mem_singleton] at text
    have other : c ≠ 10 := Ne.symm text.2
    rw [List.foldl_append]
    obtain ⟨s, run, left, files, found⟩ | ⟨m, run, tracks, files⟩ := ih text.1
    · rw [run]
      refine .inl ⟨s, scanByte_done left.1 out [c], left, files, ?_⟩
      exact (contains_concat line c).mpr (.inr found)
    · rw [run]
      obtain ⟨next, ends⟩ := tracks.searchStep pattern (buildTable_correct pattern) (q.fold c)
      have buffer := take_push 8196 line c
      have mapped : (line ++ [c]).map q.fold = line.map q.fold ++ [q.fold c] := by simp
      rw [← mapped] at next
      rcases step : searchStep q.folded q.table m (q.fold c) with ⟨m', hit⟩
      have step' : searchStep q.folded (buildTable q.folded) m (q.fold c) = (m', hit) := step
      rw [step'] at next ends
      have here := contains_concat (q := q) line c
      rw [← ends] at here
      cases hit with
      | false =>
        have same : q.contains (line ++ [c]) = q.contains line := by
          rw [Bool.eq_iff_iff, here]
          simp
        refine .inr ⟨m', ?_, next, fun mode => same ▸ files mode⟩
        simp only [List.foldl_cons, List.foldl_nil, scanByte, midLine, if_neg other, step, buffer, same,
          List.length_append, List.length_singleton]
        rfl
      | true =>
        have found : q.contains (line ++ [c]) = true := here.mpr (.inl rfl)
        by_cases mode : q.mode = .filesWithMatches
        · have left : scanByte q rel (midLine q lineno hits line m, out) c =
              ({ line := (line ++ [c]).take 8196, total := line.length + 1, lineno, matched := true,
                 matchedLen := m', hits := 1, done := true }, out) := by
            rw [← buffer]
            simp only [scanByte, midLine, if_neg other, step, mode, if_true]
            rfl
          exact .inl ⟨_, left, ⟨rfl, rfl⟩, mode, found⟩
        · refine .inr ⟨m', ?_, next, fun files => absurd files mode⟩
          simp only [List.foldl_cons, List.foldl_nil, scanByte, midLine, if_neg other, step, buffer, found,
            if_neg mode, List.length_append, List.length_singleton]
          rfl

/-! ### All lines -/

theorem lines_last (text : (10 : UInt8) ∉ line) : lines line = if line = [] then [] else [line] := by
  unfold lines
  rw [List.splitOn_eq_singleton text]
  simp

theorem splitOn_line (text : (10 : UInt8) ∉ line) (rest : Text) :
    (line ++ 10 :: rest).splitOn 10 = line :: rest.splitOn 10 := by
  induction line with
  | nil => rw [List.nil_append, List.splitOn_cons_eq_if_modifyHead, if_pos (by rfl)]
  | cons c line ih =>
    rw [List.mem_cons, not_or] at text
    have other : ¬(c == 10) = true := by simpa using Ne.symm text.1
    rw [List.cons_append, List.splitOn_cons_eq_if_modifyHead, if_neg other, ih text.2]
    rfl

theorem lines_line (text : (10 : UInt8) ∉ line) (rest : Text) : lines (line ++ 10 :: rest) = line :: lines rest := by
  obtain ⟨first, later, same⟩ := List.exists_cons_of_ne_nil (List.splitOn_ne_nil 10 rest)
  unfold lines
  rw [splitOn_line text, same, List.getLast?_cons_cons, List.dropLast_cons_cons]
  split <;> rfl

def tally (q : Query) (hits : Nat) (found : List (Text × Nat)) : Nat :=
  if q.mode = .filesWithMatches then if found = [] then hits else 1 else hits + found.length

def printed (q : Query) (rel : Text) (out : Output) (found : List (Text × Nat)) : Output :=
  if q.mode = .content then
    { out with
        sb := out.sb ++ found.flatMap fun numbered => entry rel numbered.2 numbered.1 numbered.1.length
        outN := out.outN + found.length }
  else out

theorem matching_cons (lineno : Nat) (line : Text) (rest : List Text) :
    matching q lineno (line :: rest) =
      if q.contains line then (line, lineno) :: matching q (lineno + 1) rest else matching q (lineno + 1) rest := by
  unfold matching
  rw [List.zipIdx_cons, List.filter_cons]

theorem grepLine_midLine (rel : Text) (lineno hits m : Nat) (out : Output)
    (files : q.mode = .filesWithMatches → q.contains line = false)
    (room : q.mode = .content → q.contains line = true → out.outN + 1 < q.headLimit) :
    ∃ s, grepLine q rel (midLine q lineno hits line m) out =
        (s, printed q rel out (matching q lineno [line]), false) ∧
      s.lineno = lineno ∧ s.hits = tally q hits (matching q lineno [line]) ∧ s.done = false := by
  rw [matching_cons]
  cases found : q.contains line with
  | false =>
    refine ⟨midLine q lineno hits line m, ?_, rfl, ?_, rfl⟩
    · simp [grepLine, midLine, found, printed, matching]
    · simp [tally, midLine, matching]
  | true =>
    cases mode : q.mode with
    | filesWithMatches => cases (files mode).symm.trans found
    | content =>
      have below : ¬q.headLimit ≤ out.outN + 1 := Nat.not_le.mpr (room mode found)
      refine ⟨{ midLine q lineno hits line m with hits := hits + 1 }, ?_, rfl, ?_, rfl⟩
      · simp [grepLine, midLine, found, printed, matching, mode, below, entry_take]
      · simp [tally, matching, mode]
    | count =>
      refine ⟨{ midLine q lineno hits line m with hits := hits + 1 }, ?_, rfl, ?_, rfl⟩
      · simp [grepLine, midLine, found, printed, mode]
      · simp [tally, matching, mode]

theorem matching_lines (lineno : Nat) (line : Text) (rest : List Text) :
    matching q lineno (line :: rest) = matching q lineno [line] ++ matching q (lineno + 1) rest := by
  unfold matching
  rw [List.zipIdx_cons, ← List.singleton_append, List.filter_append]
  rfl

theorem tally_append (hits : Nat) (first later : List (Text × Nat)) :
    tally q (tally q hits first) later = tally q hits (first ++ later) := by
  unfold tally
  split
  · cases later <;> cases first <;> simp
  · simp only [List.length_append]
    omega

theorem printed_append (out : Output) (first later : List (Text × Nat)) :
    printed q rel (printed q rel out first) later = printed q rel out (first ++ later) := by
  unfold printed
  split
  · simp [Nat.add_assoc]
  · rfl

theorem left_found (left : Left s) (out : Output) {lineno hits : Nat} {rest : List Text}
    (files : q.mode = .filesWithMatches) (found : q.contains line = true) :
    s.hits = tally q hits (matching q lineno (line :: rest)) ∧
      out = printed q rel out (matching q lineno (line :: rest)) := by
  rw [matching_cons, if_pos found]
  exact ⟨by simp [tally, files, left.2], by simp [printed, files]⟩

theorem scan_last (some' : q.needle ≠ []) {content : Text} {lineno hits : Nat} {out : Output}
    (text : (10 : UInt8) ∉ content)
    (room : q.mode = .content → out.outN + (matching q lineno (lines content)).length < q.headLimit) :
    (finishLine q rel (content.foldl (scanByte q rel) ({ lineno, hits }, out))).1.hits =
        tally q hits (matching q lineno (lines content)) ∧
      (finishLine q rel (content.foldl (scanByte q rel) ({ lineno, hits }, out))).2 =
        printed q rel out (matching q lineno (lines content)) := by
  rw [lines_last text] at room ⊢
  obtain ⟨s, run, left, files, found⟩ | ⟨m, run, -, files⟩ := scan_line rel some' lineno hits out text
  · have visible : content ≠ [] := by
      rintro rfl
      exact folded_ne_nil some' (List.infix_nil.mp (of_decide_eq_true found))
    rw [run, if_neg visible]
    simp only [finishLine, left.1, Bool.not_true, Bool.false_and, Bool.false_eq_true, if_false]
    exact left_found left out files found
  · rw [run]
    by_cases empty : content = []
    · subst empty
      simp [finishLine, midLine, matching, tally, printed]
    · rw [if_neg empty] at room ⊢
      have positive : 0 < content.length := List.length_pos_iff.mpr empty
      obtain ⟨s, ended, -, counted, -⟩ := grepLine_midLine rel lineno hits m out files
        fun mode found => by
          have bound := room mode
          rw [matching_cons, if_pos found] at bound
          simp only [List.length_cons] at bound
          omega
      have finish : finishLine q rel (midLine q lineno hits content m, out) =
          (s, printed q rel out (matching q lineno [content])) := by
        unfold finishLine
        simp only [ended]
        rw [if_pos (by simp [midLine, positive])]
      rw [finish]
      exact ⟨counted, rfl⟩

theorem scan_lines (some' : q.needle ≠ []) {content : Text} {lineno hits : Nat} {out : Output}
    (room : q.mode = .content → out.outN + (matching q lineno (lines content)).length < q.headLimit) :
    (finishLine q rel (content.foldl (scanByte q rel) ({ lineno, hits }, out))).1.hits =
        tally q hits (matching q lineno (lines content)) ∧
      (finishLine q rel (content.foldl (scanByte q rel) ({ lineno, hits }, out))).2 =
        printed q rel out (matching q lineno (lines content)) := by
  induction size : content.length using Nat.strong_induction_on generalizing content lineno hits out with
  | _ n ih =>
    by_cases text : (10 : UInt8) ∈ content
    · obtain ⟨line, rest, rfl, before⟩ := List.eq_append_cons_of_mem text
      rw [lines_line before] at room ⊢
      rw [List.foldl_append, List.foldl_cons]
      obtain ⟨s, run, left, files, found⟩ | ⟨m, run, -, files⟩ := scan_line rel some' lineno hits out before
      · have stays : scanByte q rel (s, out) 10 = (s, out) := scanByte_done left.1 out [10]
        rw [run, stays, scanByte_done left.1]
        simp only [finishLine, left.1, Bool.not_true, Bool.false_and, Bool.false_eq_true, if_false]
        exact left_found left out files found
      · rw [matching_lines] at room ⊢
        have one : q.contains line = true → 1 ≤ (matching q lineno [line]).length := fun found => by
          simp [matching_cons, found]
        obtain ⟨s, ended, number, counted, -⟩ := grepLine_midLine rel lineno hits m out files
          fun content found => by
            have bound := room content
            have one := one found
            rw [List.length_append] at bound
            omega
        have next : scanByte q rel (midLine q lineno hits line m, out) 10 =
            ({ lineno := lineno + 1, hits := tally q hits (matching q lineno [line]) },
              printed q rel out (matching q lineno [line])) := by
          have running : (midLine q lineno hits line m).done = false := rfl
          simp [scanByte, running, ended, number, counted]
        have shorter : rest.length < n := by
          rw [← size]
          simp only [List.length_append, List.length_cons]
          omega
        have later := @ih rest.length shorter rest (lineno + 1) (tally q hits (matching q lineno [line]))
          (printed q rel out (matching q lineno [line]))
          (fun content => by
            have bound := room content
            rw [List.length_append] at bound
            simp only [printed, content, if_true]
            omega) rfl
        rw [run, next, ← tally_append, ← printed_append]
        exact later
    · exact scan_last some' text room

/-! ### All slices -/

theorem grepLine_going {s : LineScan} {out : Output} (going : out.stopReason = none) :
    (grepLine q rel s out).2.2 = true ∨ (grepLine q rel s out).2.1.stopReason = none := by
  unfold grepLine
  split
  · exact .inr going
  · simp only
    split
    · exact .inl rfl
    · split
      · exact .inl rfl
      · exact .inr going
    · exact .inr going

theorem scanByte_going {state : LineScan × Output} (going : state.1.done = true ∨ state.2.stopReason = none)
    (c : UInt8) :
    (scanByte q rel state c).1.done = true ∨ (scanByte q rel state c).2.stopReason = none := by
  obtain ⟨s, out⟩ := state
  unfold scanByte
  simp only
  split
  · exact going
  · next running =>
    have going : out.stopReason = none := going.resolve_left running
    split
    · have line := @grepLine_going q rel s out going
      split
      · exact .inl rfl
      · next s' out' ended =>
        rw [ended] at line
        exact .inr (line.resolve_left Bool.false_ne_true)
    · split
      · exact .inr going
      · split
        · exact .inl rfl
        · exact .inr going

theorem foldl_going {state : LineScan × Output} (going : state.1.done = true ∨ state.2.stopReason = none)
    (chunk : Text) :
    (chunk.foldl (scanByte q rel) state).1.done = true ∨ (chunk.foldl (scanByte q rel) state).2.stopReason = none := by
  induction chunk generalizing state with
  | nil => exact going
  | cons c chunk ih => exact ih (scanByte_going going c)

theorem finishLine_done (done : s.done = true) (out : Output) : finishLine q rel (s, out) = (s, out) := by
  simp [finishLine, done]

section Slices

variable {halts : Nat → Option Halt} {slice : Nat → Nat → Option (Text × Bool)} {content : Text}

theorem grepLoop_eq (going : ∀ n, halts n = none) (clean : (0 : UInt8) ∉ content) (delivers : Delivers content slice)
    {fuel offset : Nat} {s : LineScan} {g : GrepState} (running : s.done = true ∨ g.out.stopReason = none)
    (inside : offset ≤ content.length) (enough : content.length - offset < fuel)
    (budget : g.scannedBytes + (content.length - offset) < q.maxScanBytes) :
    ∃ g', grepLoop q rel halts slice fuel offset s g =
        ((finishLine q rel ((content.drop offset).foldl (scanByte q rel) (s, g.out))).1, g', false) ∧
      g'.out = (finishLine q rel ((content.drop offset).foldl (scanByte q rel) (s, g.out))).2 ∧
      g'.skippedBinary = g.skippedBinary := by
  induction fuel generalizing offset s g with
  | zero => omega
  | succ fuel ih =>
    rw [grepLoop]
    by_cases done : s.done = true
    · rw [if_pos done, scanByte_done done, finishLine_done done]
      exact ⟨g, rfl, rfl, rfl⟩
    · have none' : g.out.stopReason = none := running.resolve_left done
      have poll : grepStop halts g = ({ g with polls := g.polls + 1 }, false) := by
        simp [grepStop, none', going]
      have below : ¬q.maxScanBytes ≤ g.scannedBytes := by omega
      obtain ⟨chunk, ⟨rest, split⟩, small, some', read⟩ := delivers offset (min (q.maxScanBytes - g.scannedBytes) 8192)
        (by omega)
      have text : (0 : UInt8) ∉ chunk := fun zero =>
        clean (List.mem_of_mem_drop (split ▸ List.mem_append_left rest zero))
      have length : content.length - offset = chunk.length + rest.length := by
        rw [← List.length_drop, ← split, List.length_append]
      rw [if_neg done, poll]
      simp only [if_neg below, read, if_neg text]
      have later : content.drop (offset + chunk.length) = rest := by
        rw [← List.drop_drop, ← split, List.drop_left]
      rw [← split, List.foldl_append]
      split_ifs with last
      · have end' : rest = [] := by
          have short : content.length ≤ offset + chunk.length := by
            rw [Bool.or_eq_true, Bool.not_eq_true', decide_eq_false_iff_not, decide_eq_true_eq] at last
            obtain more | empty := last
            · omega
            · by_contra more
              refine some' ?_ empty
              omega
          exact List.eq_nil_of_length_eq_zero (by omega)
        rw [end', List.foldl_nil]
        exact ⟨_, rfl, rfl, rfl⟩
      · rw [Bool.or_eq_true, not_or, Bool.not_eq_true', decide_eq_false_iff_not, decide_eq_true_eq, not_not] at last
        have positive : 0 < chunk.length := List.length_pos_iff.mpr last.2
        have next := @ih (offset + chunk.length) (chunk.foldl (scanByte q rel) (s, g.out)).1
          { g with
            polls := g.polls + 1
            scannedBytes := g.scannedBytes + chunk.length
            out := (chunk.foldl (scanByte q rel) (s, g.out)).2 }
          (foldl_going (.inr none') chunk) (by omega) (by omega) (by simp only; omega)
        rw [later] at next
        exact next

/-- Where no budget is reached, a search reports the lines that contain the needle, as a search of
each line would, however the file is cut into slices. -/
theorem grepFile_lines (some' : q.needle ≠ []) (clean : (0 : UInt8) ∉ content) (delivers : Delivers content slice)
    (going : ∀ n, halts n = none) {g : GrepState} (running : g.out.stopReason = none)
    (files : g.scannedFiles < q.maxFiles) (bytes : g.scannedBytes + content.length < q.maxScanBytes)
    (room : g.out.outN + entries q (matching q 1 (lines content)) < q.headLimit) :
    (grepFile q rel halts slice g).out =
        { sb := g.out.sb ++ report q rel (matching q 1 (lines content))
          outN := g.out.outN + entries q (matching q 1 (lines content)) } ∧
      (grepFile q rel halts slice g).skippedBinary = g.skippedBinary := by
  have poll : grepStop halts g = ({ g with polls := g.polls + 1 }, false) := by
    simp [grepStop, running, going]
  obtain ⟨g', loop, out, binary⟩ := @grepLoop_eq q rel halts slice content going clean delivers
    (q.maxScanBytes + 1) 0 {} { g with polls := g.polls + 1, scannedFiles := g.scannedFiles + 1 } (.inr running) (Nat.zero_le _)
    (by omega) (by simp only; omega)
  rw [List.drop_zero] at loop out
  have limit : q.mode = .content → g.out.outN + (matching q 1 (lines content)).length < q.headLimit := by
    intro mode
    rwa [entries, if_pos mode] at room
  obtain ⟨hits, shown⟩ := @scan_lines q rel some' content 1 0 g.out limit
  have whole : grepFile q rel halts slice g =
      { g' with out := fileEntry q rel (tally q 0 (matching q 1 (lines content)))
                  (printed q rel g.out (matching q 1 (lines content))) } := by
    unfold grepFile
    simp only [poll, if_neg (Nat.not_le.mpr files), loop, out]
    rw [hits, shown]
  rw [whole]
  refine ⟨?_, binary⟩
  generalize matching q 1 (lines content) = found at room
  have start : g.out = { sb := g.out.sb, outN := g.out.outN } := by rw [← running]
  cases mode : q.mode with
  | content => simp [fileEntry, printed, report, entries, mode, running]
  | filesWithMatches =>
    by_cases none' : found = []
    · simp only [none', fileEntry, printed, tally, report, entries, mode]
      simpa using start
    · have below : ¬q.headLimit ≤ g.out.outN + 1 := by simpa [entries, mode, none'] using room
      simp [fileEntry, printed, tally, report, entries, mode, running, none', below]
  | count =>
    by_cases none' : found = []
    · simp only [none', fileEntry, printed, tally, report, entries, mode]
      simpa using start
    · have below : ¬q.headLimit ≤ g.out.outN + 1 := by simpa [entries, mode, none'] using room
      simp [fileEntry, printed, tally, report, entries, mode, running, none', below]

end Slices

theorem delivers_short (content : Text) {k : Nat} (positive : 0 < k) :
    Delivers content fun offset n => fsReadFileSlice content offset (min n k) := by
  intro offset maxBytes some'
  obtain ⟨chunk, within, small, nonempty, read⟩ := delivers_fsReadFileSlice content offset (min maxBytes k) (by omega)
  exact ⟨chunk, within, by omega, nonempty, read⟩

def abQuery : Query :=
  { needle := ascii "ab", ignoreCase := false, mode := .content, headLimit := 250, maxScanBytes := 64, maxFiles := 10 }

def abFile : Text := ascii "xab\nb\nab"

/-- A match across two slices of two bytes, and a last line without an end. -/
theorem grepFile_straddles :
    (grepFile abQuery (ascii "f") (fun _ => none) (fun offset n => fsReadFileSlice abFile offset (min n 2)) {}).out =
        { sb := [] ++ report abQuery (ascii "f") (matching abQuery 1 (lines abFile))
          outN := 0 + entries abQuery (matching abQuery 1 (lines abFile)) } ∧
      (grepFile abQuery (ascii "f") (fun _ => none) (fun offset n => fsReadFileSlice abFile offset (min n 2))
        {}).skippedBinary = 0 :=
  @grepFile_lines abQuery (ascii "f") (fun _ => none) _ abFile (by decide) (by decide)
    (delivers_short abFile (by decide)) (fun _ => rfl) {} rfl (by decide) (by decide) (by decide)

example : matching abQuery 1 (lines abFile) = [(ascii "xab", 1), (ascii "ab", 3)] := by decide

end CognitiveOs.Action.Search
