import CognitiveOs.Infra.Scan
import CognitiveOs.Infra.Utf8

/-!
# The round log

`log_append` of `cognition/reasoning.c`: a long entry loses its middle, the buffer grows,
and a log past its budget loses its older half, at the end of a line if there is one. The
results of several tools are appended one by one.
-/

namespace CognitiveOs.Cognition.RoundLog

open Infra

def roundLogEntryCap : Nat := 6144
def roundLogHeadKeep : Nat := 4096
def roundLogTailKeep : Nat := 1536

/-- The first index from `start` on whose byte fails the test, or the end. -/
def scanWhile (p : UInt8 → Bool) (s : Text) (start : Nat) : Nat :=
  start + ((s.drop start).takeWhile p).length

def elisionMarker (mid : Nat) : Text :=
  ascii "\n...[" ++ decimal mid ++ ascii " bytes of output elided]...\n"

def tailStart (text : Text) : Nat :=
  scanWhile isContinuation text (text.length - roundLogTailKeep)

/-- What is appended for a text; `memory` is the outcome of the `malloc`. -/
def elided (text : Text) (memory : Bool) : Text :=
  if roundLogEntryCap < text.length ∧ memory then
    let head := utf8Prefix text roundLogHeadKeep
    head ++ elisionMarker (tailStart text - head.length) ++ text.drop (tailStart text)
  else text

def growCap (need : Nat) : (rounds : Nat) → (cap : Nat) → Nat
  | 0, cap => cap
  | rounds + 1, cap => if cap < need then growCap need rounds (cap * 2) else cap

def grown (cap need : Nat) : Nat :=
  growCap need need (if cap = 0 then 2048 else cap * 2)

/-- `half`: the end of the first line from the middle on, or else the next character. -/
def foldPoint (s : Text) : Nat :=
  let half := s.length / 2
  let lineEnd := scanWhile (· ≠ 10) s half
  if lineEnd < s.length then lineEnd + 1 else scanWhile isContinuation s half

def foldNote : Text :=
  ascii "(earlier action results were folded away to fit the budget)\n"

/-- `*buf` and `*bcap`; `*blen` is the length of the text. -/
structure Log where
  text : Text := []
  cap : Nat := 0

/-- The log after a call, what it returns, and how many bytes it took off the front. -/
structure Appended extends Log where
  folded : Bool := false
  dropped : Nat := 0

/-- `log_append`; the last arguments are the outcomes of its allocations. -/
def logAppend (log : Log) (text : Text) (budget : Nat) (elideMemory growMemory : Bool) : Appended :=
  if text = [] then { log with }
  else
    let added := elided text elideMemory
    let need := log.text.length + added.length + 1
    if log.cap < need ∧ ¬ growMemory then { log with }
    else
      let cap := if log.cap < need then grown log.cap need else log.cap
      let joined := log.text ++ added
      if budget < joined.length then
        let half := foldPoint joined
        let kept := joined.drop half
        { text := if foldNote.length + kept.length + 1 < cap then foldNote ++ kept else kept
          cap
          folded := true
          dropped := half }
      else { text := joined, cap }

def Log.Fits (log : Log) : Prop :=
  log.text.length < log.cap ∨ log.text = [] ∧ log.cap = 0

def Elides (text added : Text) : Prop :=
  added = text ∨ roundLogEntryCap < text.length ∧ ∃ head tail, head ≤ roundLogHeadKeep ∧
    text.length - roundLogTailKeep ≤ tail ∧ tail < text.length ∧
    added = text.take head ++ elisionMarker (tail - head) ++ text.drop tail

/-- The log kept what is newest: it is valid and inside its buffer, it holds all that was
appended, and only bytes in front of the old log are gone. -/
structure KeepsNewest (log : Log) (text added : Text) (r : Appended) : Prop where
  valid : strUtf8Valid r.text = true
  fits : r.toLog.Fits
  elision : Elides text added
  dropped : r.dropped ≤ log.text.length
  content : ∃ note, (note = [] ∨ note = foldNote) ∧ r.text = note ++ log.text.drop r.dropped ++ added
  ending : text ≠ [] → ∃ tail, tail ≠ [] ∧ tail <:+ text ∧ tail <:+ r.text

/-- The buffer can hold the text, and the joined text is within the budget or its fold point
is in the old log: the middle is, and a line of the old log ends behind it or the new text
has no line end either. -/
def FoldsBefore (log : Log) (added : Text) (budget : Nat) (growMemory : Bool) : Prop :=
  let size := log.text.length + added.length
  (size + 1 ≤ log.cap ∨ growMemory = true) ∧
    (size ≤ budget ∨ size / 2 ≤ log.text.length ∧ (10 ∈ log.text.drop (size / 2) ∨ 10 ∉ added))

/-! ### Scanning -/

theorem takeWhile_spec (p : UInt8 → Bool) (l : Text) :
    (l.takeWhile p).length ≤ l.length ∧ (∀ j < (l.takeWhile p).length, ∃ b, l[j]? = some b ∧ p b = true) ∧
      ∀ b ∈ l[(l.takeWhile p).length]?, p b = false := by
  induction l with
  | nil => simp
  | cons c l ih =>
    obtain ⟨bound, inside, stop⟩ := ih
    cases test : p c with
    | false => simp [test]
    | true =>
      rw [List.takeWhile_cons, test, if_pos rfl]
      refine ⟨by simpa using bound, ?_, by simpa using stop⟩
      intro j small
      cases j with
      | zero => exact ⟨c, rfl, test⟩
      | succ j => simpa using inside j (by simpa using small)

theorem le_scanWhile (p : UInt8 → Bool) (s : Text) (start : Nat) : start ≤ scanWhile p s start :=
  Nat.le_add_right _ _

theorem scanWhile_passed {p : UInt8 → Bool} {s : Text} {start j : Nat} (low : start ≤ j)
    (high : j < scanWhile p s start) : ∃ b, s[j]? = some b ∧ p b = true := by
  obtain ⟨k, rfl⟩ := Nat.exists_eq_add_of_le low
  unfold scanWhile at high
  obtain ⟨b, here, passed⟩ := (takeWhile_spec p (s.drop start)).2.1 k (by omega)
  rw [List.getElem?_drop] at here
  exact ⟨b, here, passed⟩

theorem scanWhile_stop {p : UInt8 → Bool} {s : Text} {start : Nat} :
    ∀ b ∈ s[scanWhile p s start]?, p b = false := by
  intro b here
  refine (takeWhile_spec p (s.drop start)).2.2 b ?_
  rw [List.getElem?_drop]
  exact here

theorem lineEnd_get {s : Text} {start : Nat} (inside : scanWhile (· ≠ 10) s start < s.length) :
    s[scanWhile (· ≠ 10) s start]? = some 10 := by
  have here := List.getElem?_eq_getElem inside
  have stop := @scanWhile_stop (· ≠ 10) s start _ here
  rw [here]
  simpa using stop

/-! ### The fold point -/

theorem strUtf8Valid_fold {s : Text} (valid : strUtf8Valid s = true) :
    strUtf8Valid (s.drop (foldPoint s)) = true := by
  unfold foldPoint
  simp only
  split
  next line => exact strUtf8Valid_drop_succ valid (lineEnd_get line) (by decide)
  next => exact strUtf8Valid_drop valid scanWhile_stop

theorem foldPoint_le_iff {l a : Text} (valid : strUtf8Valid a = true) (nonempty : a ≠ []) :
    foldPoint (l ++ a) ≤ l.length ↔
      (l.length + a.length) / 2 ≤ l.length ∧ (10 ∈ l.drop ((l.length + a.length) / 2) ∨ 10 ∉ a) := by
  have size : (l ++ a).length = l.length + a.length := List.length_append
  obtain ⟨first, rest, rfl⟩ := List.exists_cons_of_ne_nil nonempty
  have some' : 0 < (first :: rest).length := by simp
  have start : (l ++ first :: rest)[l.length]? = some first := by simp
  have plain := not_continuation_of_valid valid
  generalize first :: rest = a at *
  unfold foldPoint
  simp only [size]
  generalize middle : (l.length + a.length) / 2 = half
  have low := le_scanWhile (· ≠ 10) (l ++ a) half
  by_cases line : scanWhile (· ≠ 10) (l ++ a) half < l.length + a.length
  · rw [if_pos line]
    have feed := @lineEnd_get (l ++ a) half (by rw [size]; exact line)
    constructor
    · intro before
      refine ⟨by omega, .inl ?_⟩
      rw [List.getElem?_append_left (by omega)] at feed
      refine List.mem_iff_getElem?.mpr ⟨scanWhile (· ≠ 10) (l ++ a) half - half, ?_⟩
      rw [List.getElem?_drop, Nat.add_sub_cancel' low]
      exact feed
    · rintro ⟨inside, old | new⟩
      · obtain ⟨k, here⟩ := List.mem_iff_getElem?.mp old
        rw [List.getElem?_drop] at here
        by_contra later
        have bound := (List.getElem?_eq_some_iff.mp here).1
        obtain ⟨b, there, passed⟩ := @scanWhile_passed (· ≠ 10) (l ++ a) half (half + k) (by omega) (by omega)
        rw [List.getElem?_append_left bound, here] at there
        obtain rfl := Option.some.inj there
        simp at passed
      · by_contra later
        rw [List.getElem?_append_right (by omega)] at feed
        exact new (List.mem_of_getElem? feed)
  · rw [if_neg line]
    constructor
    · intro before
      have inside := (le_scanWhile isContinuation (l ++ a) half).trans before
      refine ⟨inside, .inr ?_⟩
      intro member
      obtain ⟨k, here⟩ := List.mem_iff_getElem?.mp member
      have bound := (List.getElem?_eq_some_iff.mp here).1
      obtain ⟨b, there, passed⟩ := @scanWhile_passed (· ≠ 10) (l ++ a) half (l.length + k) (by omega) (by omega)
      rw [List.getElem?_append_right (by omega), Nat.add_sub_cancel_left, here] at there
      obtain rfl := Option.some.inj there
      simp at passed
    · rintro ⟨inside, -⟩
      by_contra later
      obtain ⟨b, there, passed⟩ := @scanWhile_passed isContinuation (l ++ a) half l.length inside (by omega)
      rw [start] at there
      obtain rfl := Option.some.inj there
      rw [plain] at passed
      cases passed

/-! ### Elision -/

theorem elisionMarker_ascii (mid : Nat) : ∀ b ∈ elisionMarker mid, b < 128 := by
  have digit : ∀ b ∈ decimal mid, b < 128 := by
    intro b member
    have bounds := isDigit_decimal member
    unfold isDigit at bounds
    simp only [Bool.and_eq_true, decide_eq_true_eq] at bounds
    exact UInt8.lt_of_le_of_lt bounds.2 (by decide)
  have opening : ∀ b ∈ ascii "\n...[", b < 128 := by simp [ascii]
  have closing : ∀ b ∈ ascii " bytes of output elided]...\n", b < 128 := by simp [ascii]
  intro b member
  unfold elisionMarker at member
  rcases List.mem_append.mp member with front | back
  · rcases List.mem_append.mp front with left | digits
    · exact opening b left
    · exact digit b digits
  · exact closing b back

theorem tailStart_bounds {text : Text} (valid : strUtf8Valid text = true) (long : roundLogEntryCap < text.length) :
    text.length - roundLogTailKeep ≤ tailStart text ∧ tailStart text < text.length ∧
      strUtf8Valid (text.drop (tailStart text)) = true := by
  have sizes : roundLogEntryCap = 6144 ∧ roundLogTailKeep = 1536 := ⟨rfl, rfl⟩
  have low := le_scanWhile isContinuation text (text.length - roundLogTailKeep)
  refine ⟨low, ?_, strUtf8Valid_drop valid scanWhile_stop⟩
  by_contra none
  have run : ∀ b ∈ text.drop (text.length - roundLogTailKeep), isContinuation b = true := by
    intro b member
    obtain ⟨k, here⟩ := List.mem_iff_getElem?.mp member
    rw [List.getElem?_drop] at here
    have bound := (List.getElem?_eq_some_iff.mp here).1
    unfold tailStart at none
    obtain ⟨c, there, passed⟩ := @scanWhile_passed isContinuation text (text.length - roundLogTailKeep)
      (text.length - roundLogTailKeep + k) (by omega) (by omega)
    rw [here] at there
    obtain rfl := Option.some.inj there
    exact passed
  have short := length_le_of_continuations valid run
  omega

theorem elided_spec {text : Text} (valid : strUtf8Valid text = true) (nonempty : text ≠ []) (memory : Bool) :
    Elides text (elided text memory) ∧ strUtf8Valid (elided text memory) = true ∧ elided text memory ≠ [] ∧
      ∃ tail, tail ≠ [] ∧ tail <:+ text ∧ tail <:+ elided text memory := by
  unfold elided
  split
  next cut =>
    obtain ⟨low, inside, tailValid⟩ := tailStart_bounds valid cut.1
    obtain ⟨head, small, taken⟩ := utf8Prefix_eq text roundLogHeadKeep
    have sizes : roundLogEntryCap = 6144 ∧ roundLogHeadKeep = 4096 := ⟨rfl, rfl⟩
    have length : (utf8Prefix text roundLogHeadKeep).length = head := by
      rw [taken, List.length_take]
      omega
    have tail : text.drop (tailStart text) ≠ [] := by
      intro empty
      have size := congrArg List.length empty
      rw [List.length_drop, List.length_nil] at size
      omega
    refine ⟨.inr ⟨cut.1, head, tailStart text, small, low, inside, ?_⟩, ?_, ?_, text.drop (tailStart text), tail,
      List.drop_suffix _ _, List.suffix_append _ _⟩
    · simp only [length]
      rw [taken]
    · exact strUtf8Valid_append
        (strUtf8Valid_append (strUtf8Valid_utf8Prefix _ _) (strUtf8Valid_ascii (elisionMarker_ascii _))) tailValid
    · simp [tail]
  next => exact ⟨.inl rfl, valid, nonempty, text, nonempty, List.suffix_rfl, List.suffix_rfl⟩

/-! ### The buffer -/

theorem le_growCap {need rounds cap : Nat} (positive : 0 < cap) (enough : need ≤ rounds + cap) :
    need ≤ growCap need rounds cap := by
  induction rounds generalizing cap with
  | zero =>
    unfold growCap
    omega
  | succ rounds ih =>
    unfold growCap
    split
    · exact ih (by omega) (by omega)
    · omega

theorem le_grown (cap need : Nat) : need ≤ grown cap need := by
  unfold grown
  refine le_growCap ?_ (Nat.le_add_right _ _)
  split <;> omega

theorem cap_enough (cap need : Nat) : need ≤ if cap < need then grown cap need else cap := by
  split
  · exact le_grown cap need
  · omega

theorem foldNote_ascii : ∀ b ∈ foldNote, b < 128 := by simp [foldNote, ascii]

def SharesEnd (text added : Text) : Prop :=
  ∃ tail, tail ≠ [] ∧ tail <:+ text ∧ tail <:+ added

theorem keeps_joined {log : Log} {text added : Text} {cap : Nat} (valid : strUtf8Valid (log.text ++ added) = true)
    (elision : Elides text added) (shared : SharesEnd text added)
    (enough : log.text.length + added.length + 1 ≤ cap) :
    KeepsNewest log text added { text := log.text ++ added, cap } := by
  obtain ⟨tail, nonempty, ofText, ofAdded⟩ := shared
  exact
    { valid
      fits := .inl (by simp; omega)
      elision
      dropped := Nat.zero_le _
      content := ⟨[], .inl rfl, by simp⟩
      ending := fun _ => ⟨tail, nonempty, ofText, ofAdded.trans (List.suffix_append _ _)⟩ }

theorem keeps_folded {log : Log} {text added : Text} {cap : Nat} (valid : strUtf8Valid (log.text ++ added) = true)
    (elision : Elides text added) (shared : SharesEnd text added)
    (enough : log.text.length + added.length + 1 ≤ cap)
    (dropped : foldPoint (log.text ++ added) ≤ log.text.length) :
    let half := foldPoint (log.text ++ added)
    let kept := (log.text ++ added).drop half
    KeepsNewest log text added
      { text := if foldNote.length + kept.length + 1 < cap then foldNote ++ kept else kept
        cap
        folded := true
        dropped := half } := by
  obtain ⟨tail, nonempty, ofText, ofAdded⟩ := shared
  have folded := strUtf8Valid_fold valid
  have kept : (log.text ++ added).drop (foldPoint (log.text ++ added)) =
      log.text.drop (foldPoint (log.text ++ added)) ++ added :=
    List.drop_append_of_le_length dropped
  have size : ((log.text ++ added).drop (foldPoint (log.text ++ added))).length + 1 ≤ cap := by
    rw [List.length_drop, List.length_append]
    omega
  exact
    { valid := by
        simp only
        split
        · exact strUtf8Valid_append (strUtf8Valid_ascii foldNote_ascii) folded
        · exact folded
      fits := by
        left
        simp only
        split
        · rw [List.length_append]
          omega
        · omega
      elision
      dropped
      content := by
        simp only
        split
        · exact ⟨foldNote, .inr rfl, by rw [kept, List.append_assoc]⟩
        · exact ⟨[], .inl rfl, by rw [kept, List.nil_append]⟩
      ending := by
        intro _
        refine ⟨tail, nonempty, ofText, ?_⟩
        simp only
        rw [kept]
        split
        · exact (ofAdded.trans (List.suffix_append _ _)).trans (List.suffix_append _ _)
        · exact ofAdded.trans (List.suffix_append _ _) }

/-- `log_append` keeps what is newest exactly when it folds inside the old log. -/
theorem log_append_keeps_newest {log : Log} {text : Text} {budget : Nat} (elideMemory growMemory : Bool)
    (fits : log.Fits) (validLog : strUtf8Valid log.text = true) (validText : strUtf8Valid text = true)
    (short : (elided text elideMemory).length ≤ budget) :
    KeepsNewest log text (elided text elideMemory) (logAppend log text budget elideMemory growMemory) ↔
      text = [] ∨ FoldsBefore log (elided text elideMemory) budget growMemory := by
  by_cases empty : text = []
  · subst empty
    refine ⟨fun _ => .inl rfl, fun _ => ?_⟩
    unfold logAppend
    rw [if_pos rfl]
    exact
      { valid := validLog
        fits
        elision := .inl rfl
        dropped := Nat.zero_le _
        content := ⟨[], .inl rfl, by simp [elided, roundLogEntryCap]⟩
        ending := fun nonempty => absurd rfl nonempty }
  · obtain ⟨elision, validAdded, some', shared⟩ := elided_spec validText empty elideMemory
    unfold logAppend FoldsBefore
    rw [if_neg empty]
    simp only [empty, false_or]
    generalize elided text elideMemory = added at *
    have positive : 0 < added.length := List.length_pos_iff.mpr some'
    by_cases stuck : log.cap < log.text.length + added.length + 1 ∧ ¬ growMemory = true
    · rw [if_pos stuck]
      constructor
      · intro keeps
        obtain ⟨note, -, same⟩ := keeps.content
        have size := congrArg List.length same
        simp at size
        omega
      · rintro ⟨room | memory, -⟩
        · omega
        · exact absurd memory stuck.2
    · rw [if_neg stuck]
      have room : log.text.length + added.length + 1 ≤ log.cap ∨ growMemory = true := by
        by_contra neither
        exact stuck ⟨by omega, fun memory => neither (.inr memory)⟩
      have enough := cap_enough log.cap (log.text.length + added.length + 1)
      generalize (if log.cap < log.text.length + added.length + 1 then
        grown log.cap (log.text.length + added.length + 1) else log.cap) = cap at enough ⊢
      have validJoined := strUtf8Valid_append validLog validAdded
      rw [List.length_append]
      by_cases within : log.text.length + added.length ≤ budget
      · rw [if_neg (by omega)]
        exact ⟨fun _ => ⟨room, .inl within⟩, fun _ => keeps_joined validJoined elision shared enough⟩
      · rw [if_pos (by omega)]
        have point := foldPoint_le_iff (l := log.text) validAdded some'
        constructor
        · intro keeps
          exact ⟨room, .inr (point.mp keeps.dropped)⟩
        · rintro ⟨-, fit | before⟩
          · exact absurd fit within
          · exact keeps_folded validJoined elision shared enough (point.mpr before)

/-- The only line end behind the middle is the last byte: all that is left is the note. -/
theorem log_append_drops_newest :
    let log : Log := { text := ascii "aa", cap := 2048 }
    let r := logAppend log (ascii "bbb\n") 4 true true
    r.text = foldNote ∧ r.dropped = 6 ∧ ¬ KeepsNewest log (ascii "bbb\n") (ascii "bbb\n") r := by
  refine ⟨by decide +kernel, by decide +kernel, ?_⟩
  intro keeps
  have dropped := keeps.dropped
  revert dropped
  decide +kernel

theorem log_append_keeps_newest_line :
    KeepsNewest { text := ascii "one\ntwo\n", cap := 2048 } (ascii "three") (ascii "three")
      (logAppend { text := ascii "one\ntwo\n", cap := 2048 } (ascii "three") 8 true true) :=
  (@log_append_keeps_newest { text := ascii "one\ntwo\n", cap := 2048 } (ascii "three") 8 true true (.inl (by decide))
    (by decide +kernel) (by decide +kernel) (by decide +kernel)).mpr
    (.inr ⟨.inl (by decide +kernel), .inr (by decide +kernel)⟩)

/-! ### Entries -/

/-- The name of a tool, as `tool_find` knows it, stands here in brackets. -/
def toolHeader (known : Text → Bool) : Text → Bool
  | [] => false
  | c :: rest =>
    let name := rest.takeWhile (· ≠ 93)
    decide (c = 91 ∧ name.length < rest.length ∧ name.length ≤ 47) && known name

/-- The outcomes of the allocations for an entry. -/
structure Memory where
  copied : Bool
  elided : Bool
  grown : Bool

/-- `log_append_entries`, and whether the log was folded. `entry` reaches from `start` to `p`. -/
def logAppendEntries (known : Text → Bool) (budget : Nat) :
    (log : Log) → (memory : Nat → Memory) → (entry : Text) → Text → Log × Bool
  | log, memory, entry, [] =>
    let r := logAppend log entry budget (memory 0).elided (memory 0).grown
    (r.toLog, r.folded)
  | log, memory, entry, c :: rest =>
    if entry.getLast? = some 10 ∧ toolHeader known (c :: rest) = true then
      if (memory 0).copied then
        let r := logAppend log entry budget (memory 0).elided (memory 0).grown
        let after := logAppendEntries known budget r.toLog (fun k => memory (k + 1)) [c] rest
        (after.1, r.folded || after.2)
      else
        let r := logAppend log (entry ++ c :: rest) budget (memory 0).elided (memory 0).grown
        (r.toLog, r.folded)
    else logAppendEntries known budget log memory (entry ++ [c]) rest

/-- A call for a text that fits into memory, with `observation_budget_bytes`. -/
structure Call where
  text : Text
  valid : strUtf8Valid text = true
  small : text.length < 2 ^ 64
  observationBudget : Nat
  memory : Nat → Memory

def Call.budget (call : Call) : Nat :=
  if call.observationBudget = 0 then 65536 else call.observationBudget

def Log.append (known : Text → Bool) (log : Log) (call : Call) : Log :=
  (logAppendEntries known call.budget log call.memory [] call.text).1

/-- From this size on, a fold takes away as much as an entry and the note add. -/
def steadySize (most : Nat) : Nat :=
  max most (roundLogEntryCap + 2 * foldNote.length)

/-- The log is valid UTF-8 inside its buffer, and bounded if `fair`. -/
structure Steady (fair : Prop) (most : Nat) (log : Log) : Prop where
  valid : strUtf8Valid log.text = true
  fits : log.Fits
  bounded : fair → log.text.length ≤ steadySize most

theorem length_elided {text : Text} (valid : strUtf8Valid text = true) (small : text.length < 2 ^ 64) :
    (elided text true).length ≤ roundLogEntryCap := by
  unfold elided
  split
  next long =>
    obtain ⟨low, inside, -⟩ := tailStart_bounds valid long.1
    obtain ⟨head, cut, taken⟩ := utf8Prefix_eq text roundLogHeadKeep
    have digits := length_decimal (n := tailStart text - min head text.length) (k := 20) (by decide) (by omega)
    simp [taken, elisionMarker, ascii]
    unfold roundLogTailKeep roundLogHeadKeep roundLogEntryCap at *
    omega
  next short => simpa using short

/-- What a call leaves: the log as it was, the joined text, or past the budget its rest from the fold
point on, perhaps behind the note. -/
theorem logAppend_cases (log : Log) (text : Text) (budget : Nat) (elideMemory growMemory : Bool) :
    let r := logAppend log text budget elideMemory growMemory
    let joined := log.text ++ elided text elideMemory
    r.toLog = log ∨ text ≠ [] ∧ r.text.length < r.cap ∧ (r.text = joined ∧ joined.length ≤ budget ∨
      ∃ note, (note = [] ∨ note = foldNote) ∧ r.text = note ++ joined.drop (foldPoint joined)) := by
  unfold logAppend
  split
  · exact .inl rfl
  next some' =>
    have enough := cap_enough log.cap (log.text.length + (elided text elideMemory).length + 1)
    simp only
    generalize (if log.cap < log.text.length + (elided text elideMemory).length + 1 then
      grown log.cap (log.text.length + (elided text elideMemory).length + 1) else log.cap) = cap at enough ⊢
    rw [← List.length_append] at *
    generalize log.text ++ elided text elideMemory = joined at enough ⊢
    have kept : (joined.drop (foldPoint joined)).length ≤ joined.length := by simp
    split
    · exact .inl rfl
    · refine .inr ⟨some', ?_⟩
      split
      · split
        next room =>
          refine ⟨?_, .inr ⟨foldNote, .inr rfl, rfl⟩⟩
          rw [List.length_append]
          dsimp only
          omega
        next => exact ⟨Nat.lt_of_le_of_lt kept enough, .inr ⟨[], .inl rfl, rfl⟩⟩
      next short => exact ⟨enough, .inl ⟨rfl, Nat.le_of_not_lt short⟩⟩

theorem le_foldPoint (s : Text) : s.length / 2 ≤ foldPoint s := by
  have line := le_scanWhile (· ≠ 10) s (s.length / 2)
  have character := le_scanWhile isContinuation s (s.length / 2)
  unfold foldPoint
  simp only
  split <;> omega

variable {fair : Prop} {most : Nat} {log : Log}

theorem logAppend_steady (steady : Steady fair most log) {text : Text}
    (valid : strUtf8Valid text = true) (small : text.length < 2 ^ 64) {budget : Nat} {elideMemory : Bool}
    (within : fair → budget ≤ most ∧ elideMemory = true) (growMemory : Bool) :
    Steady fair most (logAppend log text budget elideMemory growMemory).toLog := by
  obtain same | ⟨some', fits, left⟩ := logAppend_cases log text budget elideMemory growMemory
  · rwa [same]
  · obtain ⟨-, validAdded, -⟩ := elided_spec valid some' elideMemory
    have joined := strUtf8Valid_append steady.valid validAdded
    rcases left with ⟨left, short⟩ | ⟨note, notes, left⟩
    · refine ⟨left ▸ joined, .inl fits, fun fair => ?_⟩
      have := within fair
      rw [left]
      unfold steadySize
      omega
    · have noteValid : strUtf8Valid note = true ∧ note.length ≤ foldNote.length := by
        rcases notes with rfl | rfl
        · exact ⟨rfl, Nat.zero_le _⟩
        · exact ⟨strUtf8Valid_ascii foldNote_ascii, Nat.le_refl _⟩
      refine ⟨left ▸ strUtf8Valid_append noteValid.1 (strUtf8Valid_fold joined), .inl fits, fun fair => ?_⟩
      obtain ⟨-, rfl⟩ := within fair
      have added := length_elided valid small
      have before := steady.bounded fair
      have point := le_foldPoint (log.text ++ elided text true)
      rw [left]
      unfold steadySize at *
      simp only [List.length_append, List.length_drop] at *
      omega

/-- An entry ends with a line, so that both parts are valid. -/
theorem valid_parts {entry rest : Text} (line : entry.getLast? = some 10)
    (valid : strUtf8Valid (entry ++ rest) = true) : strUtf8Valid entry = true ∧ strUtf8Valid rest = true := by
  obtain ⟨front, rfl⟩ := List.getLast?_eq_some_iff.mp line
  have size : (front ++ [10]).length = front.length + 1 := by simp
  have tail := strUtf8Valid_drop_succ valid (p := front.length) (b := 10) (by simp) (by decide)
  have head := strUtf8Valid_take valid (boundary_of_valid_drop tail)
  rw [List.drop_left' size] at tail
  rw [List.take_left' size] at head
  exact ⟨head, tail⟩

theorem logAppendEntries_steady (steady : Steady fair most log) (known : Text → Bool) {budget : Nat}
    {memory : Nat → Memory} {entry s : Text} (valid : strUtf8Valid (entry ++ s) = true)
    (small : (entry ++ s).length < 2 ^ 64)
    (within : fair → budget ≤ most ∧ ∀ k, (memory k).elided = true) :
    Steady fair most (logAppendEntries known budget log memory entry s).1 := by
  induction s generalizing log memory entry with
  | nil =>
    rw [List.append_nil] at valid small
    exact logAppend_steady steady valid small (fun holds => ⟨(within holds).1, (within holds).2 0⟩) _
  | cons c rest ih =>
    have first : fair → budget ≤ most ∧ (memory 0).elided = true := fun holds => ⟨(within holds).1, (within holds).2 0⟩
    unfold logAppendEntries
    split
    next cut =>
      obtain ⟨head, tail⟩ := valid_parts cut.1 valid
      rw [List.length_append] at small
      simp only
      split
      · exact ih (logAppend_steady steady head (by omega) first _) tail (by simp at small ⊢; omega)
          fun holds => ⟨(within holds).1, fun k => (within holds).2 _⟩
      · exact logAppend_steady steady valid (by rwa [List.length_append]) first _
    next => exact ih steady (by simpa using valid) (by simpa using small) within

/-- However often tool results are appended and folded, the log stays valid UTF-8 inside its buffer,
and where long results can be elided no budgets up to `most` let it grow past the steady size. -/
theorem round_log_steady (known : Text → Bool) (calls : List Call) (most : Nat) :
    Steady (∀ call ∈ calls, call.budget ≤ most ∧ ∀ k, (call.memory k).elided = true) most
      (calls.foldl (Log.append known) {}) := by
  refine List.foldlRecOn calls (Log.append known) ⟨rfl, .inr ⟨rfl, rfl⟩, fun _ => Nat.zero_le _⟩ ?_
  intro log steady call member
  exact logAppendEntries_steady steady known call.valid call.small fun fair => fair call member

end CognitiveOs.Cognition.RoundLog
