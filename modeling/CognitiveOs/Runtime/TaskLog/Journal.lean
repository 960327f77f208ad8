import CognitiveOs.Infra.Numerals

/-!
# The task journal

How `runtime/tasklog.c` appends a line to `tasks.jsonl` and what it reads from the file.
-/

namespace CognitiveOs.Runtime.TaskLog

open Infra Cjson

/-! ### Lines -/

/-- The end of `tasklog_record_access`: a line that was cut is closed first. -/
def appendLine (file line : Text) : Text :=
  (if file ≠ [] ∧ file.getLast? ≠ some 10 then file ++ [10] else file) ++ line ++ [10]

/-- The lines `journal_parse_session` comes to, with what its buffer holds. -/
def journalLines (used : Text) : Text → List Text
  | [] => if used = [] then [] else [used]
  | ch :: rest =>
    if ch ≠ 10 then journalLines (used ++ [ch]) rest
    else if used = [] then journalLines [] rest
    else used :: journalLines [] rest

def parseLine (line : Text) : Option Json :=
  parse (strUtf8Sanitize (cstr line))

/-! ### Records -/

def idOf (o : Json) : Option Rat :=
  match o.get? (ascii "id") with
  | some (.number value) => some value
  | _ => none

/-- `cJSON_GetStringValue` of a member. -/
def textOf (o : Json) (key : Text) : Option Text :=
  (o.get? key).bind Json.string?

def sessionOf (o : Json) : Text :=
  match textOf o (ascii "session") with
  | some tag => if tag ≠ [] then tag else ascii "default"
  | none => ascii "default"

def dropPrevious (id : Rat) (arr : List Json) : List Json :=
  (arr.reverse.eraseP fun o => idOf o = some id).reverse

def truncate (value : Rat) : Int :=
  if 0 ≤ value then value.floor else value.ceil

def keep (limit : Nat) (pickId : Option Int) (session : Option Text) (arr : List Json) (o : Json) : List Json :=
  if session.any fun session => sessionOf o ≠ session then arr
  else
    let arr :=
      match session, idOf o with
      | some _, some id => dropPrevious id arr
      | _, _ => arr
    if pickId.any fun pick => (idOf o).all fun id => truncate id ≠ pick then arr
    else
      let arr := arr ++ [o]
      if 0 < limit ∧ limit < arr.length then arr.drop 1 else arr

/-- `journal_parse_session` of a file. -/
def journalParse (limit : Nat) (pickId : Option Int) (session : Option Text) (file : Text) : List Json :=
  ((journalLines [] file).filterMap parseLine).foldl (keep limit pickId session) []

/-! ### Lines of a file -/

theorem journalLines_append (used file rest : Text) :
    journalLines used (file ++ 10 :: rest) = journalLines used file ++ journalLines [] rest := by
  induction file generalizing used with
  | nil =>
    simp only [List.nil_append, journalLines, ne_eq, not_true_eq_false, if_false]
    split <;> rfl
  | cons ch file ih =>
    simp only [List.cons_append, journalLines]
    split
    · exact ih _
    · split <;> simp [ih]

theorem journalLines_line {line : Text} (one : 10 ∉ line) (used : Text) :
    journalLines used line = if used ++ line = [] then [] else [used ++ line] := by
  induction line generalizing used with
  | nil => simp [journalLines]
  | cons ch line ih =>
    have other : ch ≠ 10 := fun same => one (by rw [same]; exact List.mem_cons_self)
    rw [journalLines, if_pos other, ih fun member => one (List.mem_cons_of_mem _ member)]
    simp

theorem journalLines_appendLine (file : Text) {line : Text} (visible : line ≠ []) (one : 10 ∉ line) :
    journalLines [] (appendLine file line) = journalLines [] file ++ [line] := by
  have last : journalLines [] (line ++ [10]) = [line] := by
    rw [journalLines_append, journalLines_line one, List.nil_append, if_neg visible]
    rfl
  unfold appendLine
  split
  · rw [List.append_assoc, List.append_assoc, List.singleton_append, journalLines_append, last]
  · rename_i closed
    rw [List.append_assoc]
    by_cases empty : file = []
    · rw [empty, List.nil_append, last]
      rfl
    · have ended : file.getLast? = some 10 := by
        by_contra other
        exact closed ⟨empty, other⟩
      obtain ⟨front, rfl⟩ := List.getLast?_eq_some_iff.mp ended
      have kept : journalLines [] (front ++ [10]) = journalLines [] front := by
        rw [journalLines_append]
        exact List.append_nil _
      rw [kept, List.append_assoc, List.singleton_append, journalLines_append, last]

/-! ### Complete records -/

structure Record where
  line : Text
  members : List (Text × Json)
  text : 0 ∉ line
  one : 10 ∉ line
  whole : ObjectText (strUtf8Sanitize line) members

def Record.json (r : Record) : Json :=
  .object r.members

theorem Record.visible (r : Record) : r.line ≠ [] := by
  intro empty
  have brace := r.whole.brace
  rw [empty] at brace
  cases brace

theorem Record.parseLine_eq (r : Record) : parseLine r.line = some r.json := by
  rw [parseLine, cstr_eq_self r.text, parse, r.whole.whole]
  rfl

theorem Record.parseLine_cut (r : Record) {cut rest : Text} (split : r.line = cut ++ rest) (short : rest ≠ []) :
    parseLine cut = none := by
  have text : 0 ∉ cut := fun member => r.text (by rw [split]; exact List.mem_append_left _ member)
  obtain ⟨a, b, q, whole, more, shown, marks⟩ := strUtf8Sanitize_cut cut rest
  have object := r.whole
  rw [split, whole] at object
  rw [parseLine, cstr_eq_self text, shown]
  exact parse_cut object (more short) marks

theorem exists_record {number : Rat → Text} (prints : PrintsNumbers number) {members : List (Text × Json)}
    (within : WithinMembers (nestingLimit - 1) members) :
    ∃ r : Record, r.line = Json.print number (.object members) ∧
      ∃ members', Json.RereadsMembers number (nestingLimit - 1) members members' ∧
        r.members = Json.repairedMembers members' := by
  obtain ⟨members', shown, -⟩ := prints.objectText within
  have object : Json.Rereads number (nestingLimit - 1 + 1) (.object members) (.object members') := .object shown
  have clean := print_clean number object
  have brace : (strUtf8Sanitize (Json.print number (.object members))).head? = some 123 := by
    have fixed := repairs_print object []
    rw [List.append_nil, strUtf8Sanitize_nil, List.append_nil] at fixed
    rw [fixed]
    exact print_brace _
  exact ⟨⟨_, _, clean.1, clean.2, not_mem_sanitize clean.1, brace, parseWithEnd_repaired object (by decide)⟩, rfl,
    members', shown, rfl⟩

def written (records : List Record) : Text :=
  records.flatMap fun r => r.line ++ [10]

def appended (file : Text) (records : List Record) : Text :=
  records.foldl (fun file r => appendLine file r.line) file

theorem journalLines_written (records : List Record) (rest : Text) :
    journalLines [] (written records ++ rest) = records.map Record.line ++ journalLines [] rest := by
  induction records with
  | nil => rfl
  | cons r records ih =>
    rw [written, List.flatMap_cons, List.append_assoc, List.append_assoc, List.singleton_append, journalLines_append,
      journalLines_line r.one, List.nil_append, if_neg r.visible]
    exact congrArg (r.line :: ·) ih

theorem journalLines_appended (file : Text) (records : List Record) :
    journalLines [] (appended file records) = journalLines [] file ++ records.map Record.line := by
  induction records generalizing file with
  | nil => simp [appended]
  | cons r records ih =>
    have step := ih (appendLine file r.line)
    rw [journalLines_appendLine file r.visible r.one] at step
    simpa [appended] using step

theorem filterMap_lines (records : List Record) :
    (records.map Record.line).filterMap parseLine = records.map Record.json := by
  induction records with
  | nil => rfl
  | cons r records ih => rw [List.map_cons, List.filterMap_cons, r.parseLine_eq, ih, List.map_cons]

/-! ### The newest records -/

/-- The newest `k`, all for 0. -/
def newest {α : Type} (k : Nat) (l : List α) : List α :=
  if k = 0 then l else l.drop (l.length - k)

theorem keep_newest (k : Nat) (l : List Json) (o : Json) :
    keep k none none (newest k l) o = newest k (l ++ [o]) := by
  simp only [keep, newest, Option.any_none, Bool.false_eq_true, if_false]
  by_cases all : k = 0
  · simp [all]
  · have pos : 0 < k := Nat.pos_of_ne_zero all
    simp only [if_neg all, pos, true_and, List.length_append, List.length_drop, List.length_singleton]
    split
    · rename_i full
      rw [← List.drop_append_of_le_length (by omega), List.drop_drop]
      congr 1
      omega
    · rename_i room
      rw [← List.drop_append_of_le_length (by omega)]
      congr 1
      omega

theorem foldl_newest (k : Nat) (l more : List Json) :
    more.foldl (keep k none none) (newest k l) = newest k (l ++ more) := by
  induction more generalizing l with
  | nil => simp
  | cons o more ih =>
    rw [List.foldl_cons, keep_newest, ih, List.append_assoc]
    rfl

theorem journalParse_eq (k : Nat) (file : Text) :
    journalParse k none none file = newest k ((journalLines [] file).filterMap parseLine) := by
  have start := foldl_newest k [] ((journalLines [] file).filterMap parseLine)
  have none_kept : newest k ([] : List Json) = [] := by simp [newest]
  rwa [none_kept, List.nil_append] at start

/-- After a crash in one record and any appends the complete records are read, and those that were
appended; the record the crash was in is read only if its text was complete. -/
theorem records_survive (earlier later : List Record) (torn : Record) {cut : Text} (part : cut <+: torn.line ++ [10])
    (short : cut ≠ torn.line ++ [10]) (k : Nat) :
    journalParse k none none (appended (written earlier ++ cut) later) =
      newest k ((earlier ++ (if cut = torn.line then [torn] else []) ++ later).map Record.json) := by
  obtain ⟨rest, split⟩ : ∃ rest, torn.line = cut ++ rest := by
    rcases List.prefix_concat_iff.mp part with same | ⟨rest, split⟩
    · exact absurd same short
    · exact ⟨rest, split.symm⟩
  have one : 10 ∉ cut := fun member => torn.one (by rw [split]; exact List.mem_append_left _ member)
  have left : (journalLines [] cut).filterMap parseLine =
      (if cut = torn.line then [torn] else []).map Record.json := by
    rw [journalLines_line one, List.nil_append]
    by_cases complete : cut = torn.line
    · rw [if_pos complete, complete, if_neg torn.visible]
      exact filterMap_lines [torn]
    · have more : rest ≠ [] := by
        rintro rfl
        exact complete (by rw [split, List.append_nil])
      rw [if_neg complete]
      split
      · rfl
      · rw [List.filterMap_cons, torn.parseLine_cut split more]
        rfl
  rw [journalParse_eq, journalLines_appended, journalLines_written, List.filterMap_append, List.filterMap_append,
    filterMap_lines, filterMap_lines, left]
  simp only [List.map_append]

/-- The second record is cut in front of its last byte, and the two newest are asked for. -/
theorem records_survive_cut : ∃ first torn later : Record,
    torn.line = ascii "\x7b\"id\":1,\"status\":\"RUNNING\"\x7d" ∧
      journalParse 2 none none (appended (written [first] ++ torn.line.dropLast) [later]) =
        [first.json, later.json] := by
  have members (id : Nat) (status : Text) (text : 0 ∉ status) :
      WithinMembers (nestingLimit - 1) [(ascii "id", .number id), (ascii "status", .string status)] :=
    .cons (by decide) (.number _) (.cons (by decide) (.string text) .nil)
  obtain ⟨first, -⟩ := exists_record printsNumbers_naturalText (members 0 (ascii "DONE") (by decide))
  obtain ⟨torn, line, -⟩ := exists_record printsNumbers_naturalText (members 1 (ascii "RUNNING") (by decide))
  obtain ⟨later, -⟩ := exists_record printsNumbers_naturalText (members 2 (ascii "RUNNING") (by decide))
  have shown : torn.line = ascii "\x7b\"id\":1,\"status\":\"RUNNING\"\x7d" := by
    rw [line]
    decide +kernel
  have cut : torn.line.dropLast ≠ torn.line ++ [10] := by
    rw [shown]
    simp [ascii]
  have part : torn.line.dropLast <+: torn.line ++ [10] :=
    (List.dropLast_prefix _).trans (List.prefix_append _ _)
  have read := records_survive [first] [later] torn part cut 2
  rw [if_neg (by rw [shown]; simp [ascii])] at read
  exact ⟨first, torn, later, shown, read⟩

end CognitiveOs.Runtime.TaskLog

/-!
## Records and checkpoints of tasks

`tasklog_record_access`, `tasklog_checkpoint` and `checkpoint_read` of `runtime/tasklog.c` on the
journal and the two checkpoint files of each task. `number` prints a double.
-/

namespace CognitiveOs.Runtime.TaskLog

open Infra Cjson

/-- `tasks.jsonl`, and the files `.<id>.progress.<slot>`. -/
structure Files where
  journal : Option Text
  slots : Int → Nat → Option Text

/-- The arguments of `tasklog_record_access`. -/
structure Entry where
  id : Int
  status : Option Text
  session : Option Text
  input : Option Text
  output : Option Text
  trace : Option Text
  spans : Option Text
  permissionMode : Int
  strings : ∀ s ∈ [status, session, input, output], ∀ text ∈ s, 0 ∉ text

def arrayMember (key : Text) (text : Option Text) : List (Text × Json) :=
  match text with
  | none => []
  | some text =>
    if text = [] then []
    else
      match parse text with
      | some (.array items) => [(key, .array items)]
      | _ => []

def outputMember (output : Option Text) : List (Text × Json) :=
  match output with
  | none => []
  | some output => if output = [] then [] else [(ascii "output", .string (strUtf8Sanitize output))]

def recordMembers (e : Entry) (now : Int) : List (Text × Json) :=
  [(ascii "id", .number (toDouble e.id)),
    (ascii "status", .string (e.status.getD (ascii "?"))),
    (ascii "permission_mode",
      .number (if 0 ≤ e.permissionMode ∧ e.permissionMode ≤ 2 then e.permissionMode else 1)),
    (ascii "session", .string (e.session.getD [])),
    (ascii "input", .string (e.input.getD []))] ++
    (outputMember e.output ++ (arrayMember (ascii "trace") e.trace ++ (arrayMember (ascii "spans") e.spans ++
      [(ascii "ts", .number (toDouble now * 1000))])))

def openStatus (status : Text) : Bool :=
  status = ascii "RUNNING" || status = ascii "QUEUED"

section

variable (number : Rat → Text)

def recordLine (e : Entry) (now : Int) : Text :=
  Json.print number (.object (recordMembers e now))

/-- `tasklog_record_access`. -/
def recordAccess (f : Files) (e : Entry) (now : Int) : Files :=
  if e.id < 0 then f
  else
    { journal := some (appendLine (f.journal.getD []) (recordLine number e now))
      slots := fun id slot =>
        if (e.status.any fun status => !openStatus status) ∧ id = e.id ∧ slot < 2 then none else f.slots id slot }

/-! ### Checkpoints -/

def checkpointMembers (id : Int) (seq : UInt32) (items : List Json) : List (Text × Json) :=
  [(ascii "id", .number (toDouble id)), (ascii "seq", .number seq.toNat), (ascii "trace", .array items)]

def checkpointText (id : Int) (seq : UInt32) (items : List Json) : Text :=
  Json.print number (.object (checkpointMembers id seq items))

/-- `checkpoint_path`. -/
def slotOf (seq : UInt32) : Nat :=
  seq.toNat % 2

def Files.setSlot (f : Files) (id : Int) (slot : Nat) (text : Text) : Files :=
  { f with slots := fun id' slot' => if id' = id ∧ slot' = slot then some text else f.slots id' slot' }

/-- `tasklog_checkpoint`, `none` for a failure. -/
def checkpoint (f : Files) (id : Int) (seq : UInt32) (trace : Text) : Option Files :=
  if id < 0 then none
  else
    match parse trace with
    | some (.array items) => some (f.setSlot id (slotOf seq) (checkpointText number id seq items))
    | _ => none

end

def slotRecord (id : Int) (text : Option Text) : Option (Rat × List Json) :=
  match text.bind parse with
  | none => none
  | some o =>
    match o.get? (ascii "id"), o.get? (ascii "seq"), o.get? (ascii "trace") with
    | some (.number key), some (.number version), some (.array items) =>
      if key = toDouble id then some (version, items) else none
    | _, _, _ => none

def better (best record : Option (Rat × List Json)) : Option (Rat × List Json) :=
  match record with
  | none => best
  | some (version, items) =>
    if best.elim (-1) Prod.fst < version then some (version, items) else best

def checkpointRead (number : Rat → Text) (f : Files) (id : Int) : Option Text :=
  ((List.range 2).foldl (fun best i => better best (slotRecord id (f.slots id i))) none).map fun best =>
    Json.print number (.array best.2)

end CognitiveOs.Runtime.TaskLog
