import CognitiveOs.Foundation.Machine
import CognitiveOs.Infra.Print

/-!
# Chat transcripts

The part of `cognition/reasoning.c` that keeps the turns of a chat session in a ring
and in `chat/<id>.jsonl`. A line of a transcript is the turn it was made from, with the
session it was recorded for.
-/

namespace CognitiveOs.Sessions

open Foundation Infra

def safeChar (ch : UInt8) : UInt8 :=
  if (97 ≤ ch ∧ ch ≤ 122) ∨ (65 ≤ ch ∧ ch ≤ 90) ∨ (48 ≤ ch ∧ ch ≤ 57) ∨
      ch = 45 ∨ ch = 95 ∨ ch = 46 then ch
  else 95

def safeName (sessionId : Text) : Text :=
  (sessionId.take 127).map safeChar

/-- `chat_file_path` into a buffer of 700 bytes. -/
def chatFilePath (stateRoot sessionId : Text) : Text :=
  pathJoin 700 (pathJoin 600 stateRoot (ascii "chat"))
    (snprintf 160 (safeName sessionId ++ ascii ".jsonl"))

structure Turn where
  session : Text
  q : Text
  a : Text
  deriving DecidableEq

structure Session where
  hist : List Turn := []
  histCap : Nat := 0
  loaded : Bool := false

structure Chat where
  stateRoot : Text
  /-- The transcripts, by path. -/
  file : Text → Option (List Turn) := fun _ => none
  live : Text → Option Session := fun _ => none

def wanted (sessionId : Text) : Text :=
  if sessionId = [] then ascii "default" else sessionId

def chatPersistMax : Nat := 200

def admitTurn (s : Session) (turn : Turn) : Session :=
  let histCap :=
    if s.histCap ≤ s.hist.length then if s.histCap = 0 then 16 else s.histCap * 2 else s.histCap
  { s with hist := s.hist ++ [turn], histCap }

def transcript (c : Chat) (id : Text) : Option (List Turn) :=
  c.file (chatFilePath c.stateRoot id)

def sessionLoadPersisted (c : Chat) (id : Text) (s : Session) : Session :=
  match transcript c id with
  | some turns => (turns.drop (turns.length - chatPersistMax)).foldl admitTurn s
  | none => s

def sessionLoaded (c : Chat) (id : Text) : Session :=
  let s := (c.live id).getD {}
  if s.loaded then s else sessionLoadPersisted c id { s with loaded := true }

def setLive (c : Chat) (id : Text) (s : Option Session) : Chat :=
  { c with live := Function.update c.live id s }

def setFile (c : Chat) (path : Text) (turns : Option (List Turn)) : Chat :=
  { c with file := Function.update c.file path turns }

def pushTurn (hist : List Turn) (histCap : Nat) (turn : Turn) : List Turn :=
  (if histCap ≤ hist.length then hist.drop 1 else hist) ++ [turn]

def compactHistory (hist : List Turn) (histCap : Nat) (compacts : Bool) : List Turn :=
  if histCap ≤ hist.length ∧ compacts then hist.drop (histCap / 2) else hist

/-- `record_turn`, up to the durable copy. -/
def recordRing (s : Session) (turn : Turn) (compacts : Bool) : Session :=
  let histCap := if s.histCap = 0 then 16 else s.histCap
  { hist := compactHistory (pushTurn s.hist histCap turn) histCap compacts, histCap, loaded := true }

def chatPersistAppend (c : Chat) (id : Text) (turn : Turn) : Chat :=
  let path := chatFilePath c.stateRoot id
  setFile c path (some ((c.file path).getD [] ++ [turn]))

def chatRemove (c : Chat) (id : Text) : Chat :=
  setFile c (chatFilePath c.stateRoot id) none

/-- `indexed` says whether the metadata index has a live entry for the id; `stored` and
`removed` whether the file operation succeeds. -/
inductive Action where
  | turn (sessionId q a : Text) (compacts stored : Bool)
  | history (sessionId : Text) (maxTurns : Int) (indexed : Bool)
  | lastInput (sessionId : Text) (indexed : Bool)
  | clear (sessionId : Text) (indexed removed : Bool)
  | delete (sessionId : Text) (indexed removed : Bool)
  | restart

def runTurn (c : Chat) (id q a : Text) (compacts stored : Bool) : Chat × List Turn :=
  let s := sessionLoaded c id
  let turn := { session := id, q, a }
  let c := setLive c id (some (recordRing s turn compacts))
  (if stored then chatPersistAppend c id turn else c, s.hist)

/-- `reasoning_history_json_ex`. -/
def historyJson (c : Chat) (id : Text) (maxTurns : Int) (indexed : Bool) : Chat × List Turn :=
  let limit := if maxTurns ≤ 0 then 20 else maxTurns.toNat
  if (c.live id).isNone && !indexed && (transcript c id).isNone then (c, [])
  else
    match if limit = 2147483647 then transcript c id else none with
    | some turns => (c, turns)
    | none =>
      let s := sessionLoaded c id
      (setLive c id (some s), s.hist.drop (s.hist.length - limit))

/-- `reasoning_session_last_input`. -/
def lastInput (c : Chat) (id : Text) (indexed : Bool) : Chat × List Turn :=
  if (c.live id).isNone && !indexed then (c, [])
  else
    let s := sessionLoaded c id
    (setLive c id (some s), s.hist.getLast?.toList)

/-- `reasoning_session_clear`. -/
def sessionClear (c : Chat) (id : Text) (indexed removed : Bool) : Chat :=
  if (c.live id).isNone && !indexed then c
  else
    let c := setLive c id (some { (c.live id).getD {} with hist := [] })
    if removed then chatRemove c id else c

/-- `reasoning_session_delete`, of a session without a run. -/
def sessionDelete (c : Chat) (id : Text) (indexed removed : Bool) : Chat :=
  if (c.live id).isNone && !indexed then c
  else
    let c := setLive c id none
    if removed then chatRemove c id else c

def Chat.step (c : Chat) : Action → Chat × List Turn
  | .turn sessionId q a compacts stored => runTurn c (wanted sessionId) q a compacts stored
  | .history sessionId maxTurns indexed => historyJson c (wanted sessionId) maxTurns indexed
  | .lastInput sessionId indexed =>
    if sessionId = [] then (c, []) else lastInput c sessionId indexed
  | .clear sessionId indexed removed => (sessionClear c (wanted sessionId) indexed removed, [])
  | .delete sessionId indexed removed => (sessionDelete c (wanted sessionId) indexed removed, [])
  | .restart => ({ c with live := fun _ => none }, [])

end CognitiveOs.Sessions

/-!
## Transcript files

The bytes of `chat/<id>.jsonl`: how a turn is appended, and how the file is replayed line by
line when the session is loaded again.
-/

namespace CognitiveOs.Sessions

open Infra Cjson

structure Exchange where
  q : Text
  a : Text
  q_text : 0 ∉ q
  a_text : 0 ∉ a

def Exchange.pair (e : Exchange) : Text × Text :=
  (e.q, e.a)

def printMember (key : UInt8) (value : Text) : Text :=
  34 :: key :: 34 :: 58 :: Json.printString value

/-- The line `cJSON_PrintUnformatted` makes of a turn. -/
def Exchange.record (e : Exchange) : Text :=
  123 :: (printMember 113 e.q ++ 44 :: (printMember 97 e.a ++ [125]))

/-- What `chat_persist_append` writes. -/
def Exchange.line (e : Exchange) : Text :=
  e.record ++ [10]

def persistAppend (file : Text) (e : Exchange) : Text :=
  file ++ e.line

/-- The lines that the loop over the buffer visits; `line` has been read of the first. -/
def bufferLines : Text → Text → List Text
  | [], line => if line = [] then [] else [line]
  | c :: rest, line => if c = 10 then line :: bufferLines rest [] else bufferLines rest (line ++ [c])

def readTurn (line : Text) : Option (Text × Text) :=
  match parse line with
  | none => none
  | some t =>
    match (t.get? [113]).bind Json.string? with
    | none => none
    | some q => some (q, ((t.get? [97]).bind Json.string?).getD [])

/-- `CHAT_PERSIST_MAX`. -/
def persistMax : Nat := 200

/-- `session_load_persisted` into an empty ring. -/
def loadPersisted (file : Text) : List (Text × Text) :=
  let buf := cstr file
  let total := buf.count 10
  ((bufferLines buf []).drop (total - persistMax)).filterMap readTurn

/-! ### A record is read back -/

variable {key : UInt8} {s : Text}

theorem parseString_key (quote : key ≠ 34) (slash : key ≠ 92) (nul : key ≠ 0) (s : Text) :
    parseString (34 :: key :: 34 :: s) = some ([key], s) := by
  simp [parseString, splitString_char quote slash, unescape, slash, cstr, nul]

theorem parseValue_string (fuel depth : Nat) (s : Text) :
    parseValue (fuel + 1) depth (34 :: s) =
      (parseString (34 :: s)).map fun (value, after) => (.string value, after) := by
  rfl

theorem parseMembers_one (depth : Nat) (s : Text) : parseMembers 1 depth s = none := by
  unfold parseMembers
  simp only [parseValue]
  split
  · rfl
  · split
    · rfl
    · split <;> rfl

theorem parse_printMember {fuel depth : Nat} {value : Text} (quote : key ≠ 34) (slash : key ≠ 92) (nul : key ≠ 0)
    (text : 0 ∉ value) :
    parseMembers (fuel + 2) depth (printMember key value ++ s) =
      match skipSpace s with
      | [] => none
      | c :: rest =>
        if c = 44 then (parseMembers (fuel + 1) depth rest).map fun (members, after) =>
          (([key], .string value) :: members, after)
        else if c = 125 then some ([([key], .string value)], rest)
        else none := by
  have name : parseString (skipSpace (printMember key value ++ s)) =
      some ([key], 58 :: (Json.printString value ++ s)) := by
    unfold printMember
    rw [List.cons_append, skipSpace_cons (by decide)]
    exact parseString_key quote slash nul _
  exact parseMembers_member name (skipSpace_printString value s) (parseValue_printString text s)

def Exchange.json (e : Exchange) : Json :=
  .object [([113], .string e.q), ([97], .string e.a)]

theorem parseMembers_record (fuel depth : Nat) (e : Exchange) (s : Text) :
    parseMembers (fuel + 3) depth (printMember 113 e.q ++ 44 :: (printMember 97 e.a ++ 125 :: s)) =
      some ([([113], .string e.q), ([97], .string e.a)], s) := by
  rw [parse_printMember (by decide) (by decide) (by decide) e.q_text, skipSpace_cons (by decide)]
  simp only [if_true]
  rw [parse_printMember (by decide) (by decide) (by decide) e.a_text, skipSpace_cons (by decide)]
  rfl

theorem parseValue_record {fuel depth : Nat} (shallow : depth < nestingLimit) (e : Exchange) (s : Text) :
    parseValue (fuel + 4) depth (e.record ++ s) = some (e.json, s) := by
  have members := parseMembers_record fuel (depth + 1) e s
  unfold Exchange.record
  unfold printMember at members ⊢
  simp only [List.cons_append, List.append_assoc, List.nil_append] at members ⊢
  rw [parseValue_object (by decide) (by decide) shallow, members]
  rfl

theorem parseValue_record_end (fuel depth : Nat) (e : Exchange) :
    parseValue fuel depth e.record = none ∨ ∃ json, parseValue fuel depth e.record = some (json, []) := by
  by_cases deep : nestingLimit ≤ depth
  · left
    cases fuel with
    | zero => rfl
    | succ fuel => exact if_pos deep
  · have shallow : depth < nestingLimit := Nat.lt_of_not_le deep
    have object (fuel : Nat) : parseValue (fuel + 1) depth e.record =
        (parseMembers fuel (depth + 1) (printMember 113 e.q ++ 44 :: (printMember 97 e.a ++ [125]))).map
          fun (members, after) => (.object members, after) :=
      parseValue_object (by decide) (by decide) shallow
    match fuel with
    | 0 => exact Or.inl rfl
    | 1 => exact Or.inl (object 0)
    | 2 =>
      left
      rw [object, parseMembers_one]
      rfl
    | 3 =>
      left
      rw [object, parse_printMember (by decide) (by decide) (by decide) e.q_text,
        skipSpace_cons (by decide)]
      simp only [if_true]
      rw [parseMembers_one]
      rfl
    | fuel + 4 =>
      right
      have read := @parseValue_record fuel _ shallow e []
      rw [List.append_nil] at read
      exact ⟨e.json, read⟩

/-! ### A record that is cut off is not read -/

variable {x : Text}

def After (x : Text) : Prop :=
  x = [] ∨ ∃ e : Exchange, x = e.record

theorem After.head (after : After x) : x = [] ∨ ∃ s, x = 123 :: 34 :: 113 :: s := by
  rcases after with rfl | ⟨e, rfl⟩
  · exact Or.inl rfl
  · exact Or.inr ⟨_, rfl⟩

theorem After.skipSpace (after : After x) : skipSpace x = x := by
  rcases after.head with rfl | ⟨s, rfl⟩
  · rfl
  · exact skipSpace_cons (by decide)

theorem After.parseString (after : After x) : parseString x = none := by
  rcases after.head with rfl | ⟨s, rfl⟩ <;> rfl

theorem After.parseValue (after : After x) (fuel depth : Nat) :
    parseValue fuel depth x = none ∨ ∃ json, parseValue fuel depth x = some (json, []) := by
  rcases after with rfl | ⟨e, rfl⟩
  · left
    cases fuel <;> rfl
  · exact parseValue_record_end fuel depth e

theorem parseString_cut {part : Text} (cut : Open part) (after : After x) :
    parseString (34 :: (part ++ x)) = none ∨
      ∃ value s, parseString (34 :: (part ++ x)) = some (value, 113 :: s) := by
  rcases after.head with rfl | ⟨s, rfl⟩
  · left
    rw [List.append_nil]
    simp only [Cjson.parseString, cut.1]
  · rcases cut.2 123 (34 :: 113 :: s) [] (113 :: s) (by decide) (by decide) (splitString_quote _) with
      ⟨raw, split⟩
    simp only [Cjson.parseString, split]
    cases unescape raw.length raw with
    | none => exact Or.inl rfl
    | some value => exact Or.inr ⟨cstr value, s, rfl⟩

theorem parseMembers_key (keys : ∀ key rest, parseString (skipSpace s) = some (key, rest) →
    (skipSpace rest).head? ≠ some 58) (fuel depth : Nat) : parseMembers fuel depth s = none := by
  cases fuel with
  | zero => rfl
  | succ fuel =>
    unfold parseMembers
    split
    · rfl
    · rename_i key rest read
      have colon := keys key rest read
      split
      · rfl
      · rename_i c rest' found
        rw [found] at colon
        rw [if_pos fun same => colon (congrArg some same)]

theorem parseMembers_value {key t : Text} (read : parseString (skipSpace s) = some (key, 58 :: t))
    (values : ∀ fuel depth value rest, parseValue fuel depth (skipSpace t) = some (value, rest) →
      (skipSpace rest).head? ≠ some 44 ∧ (skipSpace rest).head? ≠ some 125) (fuel depth : Nat) :
    parseMembers fuel depth s = none := by
  cases fuel with
  | zero => rfl
  | succ fuel =>
    unfold parseMembers
    rw [read]
    simp only
    rw [skipSpace_cons (by decide)]
    simp only [ne_eq, not_true_eq_false, if_false]
    split
    · rfl
    · rename_i value rest found
      rcases values fuel depth value rest found with ⟨comma, brace⟩
      split
      · rfl
      · rename_i c rest' next
        rw [next] at comma brace
        rw [if_neg fun same => comma (congrArg some same), if_neg fun same => brace (congrArg some same)]

theorem After.value {x rest : Text} {json : Json} (after : After x) {fuel depth : Nat}
    (read : Cjson.parseValue fuel depth x = some (json, rest)) : rest = [] := by
  rcases after.parseValue fuel depth with none' | ⟨other, found⟩
  · rw [none'] at read
    cases read
  · rw [found] at read
    exact (Prod.mk.inj (Option.some.inj read)).2.symm

theorem After.next {x : Text} (after : After x) (c : UInt8) (other : c ≠ 123) :
    (Cjson.skipSpace x).head? ≠ some c := by
  rw [after.skipSpace]
  rcases after.head with rfl | ⟨s, rfl⟩
  · exact fun same => nomatch same
  · exact fun same => other (Option.some.inj same).symm

theorem parseMembers_cut {value part : Text} (quote : key ≠ 34) (slash : key ≠ 92) (nul : key ≠ 0) (text : 0 ∉ value)
    (cut : part <+: printMember key value) (after : After x) (fuel depth : Nat) :
    parseMembers fuel depth (part ++ x) = none := by
  -- a key that is cut off runs into the next record
  have openKey {part : Text} (cut : Open part) : parseMembers fuel depth (34 :: (part ++ x)) = none := by
    apply parseMembers_key
    intro found rest read
    rw [skipSpace_cons (by decide)] at read
    rcases parseString_cut cut after with none' | ⟨found', s, read'⟩
    · rw [none'] at read
      cases read
    · rw [read'] at read
      rw [← (Prod.mk.inj (Option.some.inj read)).2, skipSpace_cons (by decide)]
      simp
  rcases List.prefix_cons_iff.mp cut with rfl | ⟨one, rfl, cut₁⟩
  · apply parseMembers_key
    intro found rest read
    rw [List.nil_append, after.skipSpace, after.parseString] at read
    cases read
  rcases List.prefix_cons_iff.mp cut₁ with rfl | ⟨two, rfl, cut₂⟩
  · exact openKey Open.nil
  rcases List.prefix_cons_iff.mp cut₂ with rfl | ⟨three, rfl, cut₃⟩
  · exact openKey (Open.nil.char quote slash)
  have whole (s : Text) : parseString (skipSpace (34 :: key :: 34 :: s)) = some ([key], s) := by
    rw [skipSpace_cons (by decide), parseString_key quote slash nul]
  rcases List.prefix_cons_iff.mp cut₃ with rfl | ⟨four, rfl, cut₄⟩
  · apply parseMembers_key
    intro found rest read
    rw [show [34, key, 34] ++ x = 34 :: key :: 34 :: x from rfl, whole] at read
    rw [← (Prod.mk.inj (Option.some.inj read)).2]
    exact after.next 58 (by decide)
  apply parseMembers_value (whole (58 :: (four ++ x)))
  intro fuel depth json rest read
  rcases List.prefix_cons_iff.mp cut₄ with rfl | ⟨string, rfl, cut₅⟩
  · rw [List.nil_append, after.skipSpace] at read
    rw [after.value read]
    simp [Cjson.skipSpace]
  rw [List.cons_append, skipSpace_cons (by decide)] at read
  cases fuel with
  | zero => cases read
  | succ fuel =>
    rw [parseValue_string] at read
    rcases Option.map_eq_some_iff.mp read with ⟨⟨value', after'⟩, found, pair⟩
    obtain rfl := (Prod.mk.inj pair).2
    have openString {part : Text} (cut : Open part)
        (found : parseString (34 :: (part ++ x)) = some (value', after')) :
        (Cjson.skipSpace after').head? ≠ some 44 ∧ (Cjson.skipSpace after').head? ≠ some 125 := by
      rcases parseString_cut cut after with none' | ⟨value'', s, read'⟩
      · rw [none'] at found
        cases found
      · rw [read'] at found
        rw [← (Prod.mk.inj (Option.some.inj found)).2, skipSpace_cons (by decide)]
        simp
    rcases prefix_append_cases cut₅ with within | ⟨last, rfl, end'⟩
    · exact openString (open_print within) found
    · rcases List.prefix_cons_iff.mp end' with rfl | ⟨nothing, rfl, end''⟩
      · rw [List.append_nil] at found
        exact openString (open_print (List.prefix_refl _)) found
      · obtain rfl := List.prefix_nil.mp end''
        have read' := parseString_print text x
        unfold Json.printString at read'
        rw [show (34 :: List.flatMap Json.escapeByte value ++ [34]) ++ x =
          34 :: (List.flatMap Json.escapeByte value ++ [34] ++ x) from rfl] at read'
        rw [read'] at found
        rw [← (Prod.mk.inj (Option.some.inj found)).2]
        exact ⟨after.next 44 (by decide), after.next 125 (by decide)⟩

theorem parseValue_cut {e : Exchange} {cut : Text} (within : cut <+: e.record) (some' : cut ≠ [])
    (proper : cut ≠ e.record) (after : After x) (fuel depth : Nat) : parseValue fuel depth (cut ++ x) = none := by
  rcases List.prefix_cons_iff.mp within with rfl | ⟨body, rfl, inside⟩
  · exact absurd rfl some'
  have more : (skipSpace (body ++ x)).head? ≠ some 125 := by
    rcases List.prefix_cons_iff.mp inside with rfl | ⟨rest, rfl, -⟩
    · exact after.next 125 (by decide)
    · rw [List.cons_append, skipSpace_cons (by decide)]
      simp
  have members (fuel depth : Nat) : parseMembers fuel depth (body ++ x) = none := by
    rcases prefix_append_cases inside with first | ⟨rest, rfl, beyond⟩
    · exact parseMembers_cut (by decide) (by decide) (by decide) e.q_text first after fuel depth
    rcases List.prefix_cons_iff.mp beyond with rfl | ⟨second, rfl, beyond'⟩
    · rw [List.append_nil]
      exact parseMembers_cut (by decide) (by decide) (by decide) e.q_text (List.prefix_refl _) after fuel depth
    have later (fuel depth : Nat) : parseMembers fuel depth (second ++ x) = none := by
      rcases prefix_append_cases beyond' with within | ⟨last, rfl, end'⟩
      · exact parseMembers_cut (by decide) (by decide) (by decide) e.a_text within after fuel depth
      · rcases List.prefix_cons_iff.mp end' with rfl | ⟨nothing, rfl, end''⟩
        · rw [List.append_nil]
          exact parseMembers_cut (by decide) (by decide) (by decide) e.a_text (List.prefix_refl _) after fuel depth
        · obtain rfl := List.prefix_nil.mp end''
          exact absurd rfl proper
    rw [List.append_assoc]
    match fuel with
    | 0 => rfl
    | 1 => exact parseMembers_one depth _
    | fuel + 2 =>
      rw [parse_printMember (by decide) (by decide) (by decide) e.q_text, List.cons_append,
        skipSpace_cons (by decide)]
      simp only [if_true, later, Option.map_none]
  cases fuel with
  | zero => rfl
  | succ fuel =>
    show (if nestingLimit ≤ depth then none else if (skipSpace (body ++ x)).head? = some 125 then _ else
      (parseMembers fuel (depth + 1) (body ++ x)).map _) = none
    rw [if_neg more, members]
    split <;> rfl

/-! ### Lines -/

theorem Exchange.record_clean (e : Exchange) : 0 ∉ e.record ∧ 10 ∉ e.record := by
  have q := printString_clean e.q
  have a := printString_clean e.a
  unfold record printMember
  simp [q, a]

theorem bufferLines_line {line before rest : Text} (oneLine : 10 ∉ line) :
    bufferLines (line ++ 10 :: rest) before = (before ++ line) :: bufferLines rest [] := by
  induction line generalizing before with
  | nil => simp [bufferLines]
  | cons c line ih =>
    rw [List.mem_cons, not_or] at oneLine
    rw [List.cons_append, bufferLines, if_neg (Ne.symm oneLine.1), ih oneLine.2]
    simp

theorem bufferLines_last {line before : Text} (oneLine : 10 ∉ line) :
    bufferLines line before = if before ++ line = [] then [] else [before ++ line] := by
  induction line generalizing before with
  | nil => simp [bufferLines]
  | cons c line ih =>
    rw [List.mem_cons, not_or] at oneLine
    rw [bufferLines, if_neg (Ne.symm oneLine.1), ih oneLine.2]
    simp

theorem bufferLines_records (turns : List Exchange) (rest : Text) :
    bufferLines (turns.flatMap Exchange.line ++ rest) [] = turns.map Exchange.record ++ bufferLines rest [] := by
  induction turns with
  | nil => rfl
  | cons e turns ih =>
    rw [List.flatMap_cons, Exchange.line, List.append_assoc, List.append_assoc, List.singleton_append,
      bufferLines_line e.record_clean.2, ih]
    rfl

theorem count_records (turns : List Exchange) : (turns.flatMap Exchange.line).count 10 = turns.length := by
  induction turns with
  | nil => rfl
  | cons e turns ih =>
    rw [List.flatMap_cons, List.count_append, ih, Exchange.line, List.count_append,
      List.count_eq_zero_of_not_mem e.record_clean.2, List.length_cons, Nat.add_comm]
    rfl

theorem lines_clean (turns : List Exchange) : 0 ∉ turns.flatMap Exchange.line := by
  intro member
  rcases List.mem_flatMap.mp member with ⟨e, -, found⟩
  rcases List.mem_append.mp found with first | last
  · exact e.record_clean.1 first
  · exact absurd (List.mem_singleton.mp last) (by decide)

/-! ### What a line holds -/

theorem parse_of_brace {rest : Text} (text : 0 ∉ 123 :: rest) :
    parse (123 :: rest) = (parseValue (2 * rest.length + 4) 0 (123 :: rest)).map Prod.fst := by
  have bom : skipBom (123 :: rest) = 123 :: rest := by simp [skipBom]
  unfold parse parseWithEnd
  rw [cstr_eq_self text, bom, skipSpace_cons (by decide)]
  rfl

theorem readTurn_record (e : Exchange) (s : Text) (text : 0 ∉ s) : readTurn (e.record ++ s) = some e.pair := by
  have clean : 0 ∉ e.record ++ s := by
    rw [List.mem_append, not_or]
    exact ⟨e.record_clean.1, text⟩
  have read : parse (e.record ++ s) = some e.json := by
    unfold Exchange.record at clean ⊢
    rw [List.cons_append] at clean ⊢
    rw [parse_of_brace clean]
    have value := @parseValue_record (2 * (printMember 113 e.q ++ 44 :: (printMember 97 e.a ++ [125]) ++ s).length)
      0 (by decide) e s
    unfold Exchange.record at value
    rw [List.cons_append] at value
    rw [value]
    rfl
  unfold readTurn
  rw [read]
  rfl

theorem readTurn_cut {e : Exchange} {cut : Text} (within : cut <+: e.record) (some' : cut ≠ [])
    (proper : cut ≠ e.record) (after : After x) : readTurn (cut ++ x) = none := by
  have clean : 0 ∉ cut ++ x := by
    rw [List.mem_append, not_or]
    refine ⟨fun member => e.record_clean.1 (within.subset member), ?_⟩
    rcases after with rfl | ⟨next, rfl⟩
    · exact List.not_mem_nil
    · exact next.record_clean.1
  have read : parse (cut ++ x) = none := by
    rcases List.prefix_cons_iff.mp within with rfl | ⟨body, rfl, -⟩
    · exact absurd rfl some'
    rw [List.cons_append] at clean ⊢
    rw [parse_of_brace clean]
    have value := parseValue_cut within some' proper after (2 * (body ++ x).length + 4) 0
    rw [List.cons_append] at value
    rw [value]
    rfl
  unfold readTurn
  rw [read]

end CognitiveOs.Sessions
