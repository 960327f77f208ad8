import CognitiveOs.Foundation.Upsert
import CognitiveOs.Infra.Rereads
import CognitiveOs.Runtime.TaskLog.Recovery

/-!
# The states of the sessions

`tasklog_session_states_json` of `runtime/tasklog.c`: the id and the status of the last record of
each session. They are read from the journal once, and then kept up by every append.
-/

namespace CognitiveOs.Runtime.TaskLog

open Foundation.Upsert Infra Cjson

/-- The states of the sessions, as an object. -/
abbrev States :=
  List (Text × Json)

def sessionKey (session : Option Text) : Text :=
  match session with
  | some tag => if tag ≠ [] then tag else ascii "default"
  | none => ascii "default"

def stateOf (id : Int) (status : Option Text) : Json :=
  .object [(ascii "id", .number (toDouble id)), (ascii "status", .string (status.getD (ascii "?")))]

def sessionStateSet (states : States) (id : Int) (session status : Option Text) : States :=
  eraseKey Prod.fst (sessionKey session) states ++ [(sessionKey session, stateOf id status)]

/-- `(int64_t)` of a double; one that does not fit becomes `outside`. -/
def toInt64 (outside : Rat → Int) (value : Rat) : Int :=
  if -(2 ^ 63) ≤ value ∧ value < 2 ^ 63 then truncate value else outside value

section

variable (number : Rat → Text) (outside : Rat → Int)

def replayRecord (states : States) (o : Json) : States :=
  match idOf o with
  | some id => sessionStateSet states (toInt64 outside id) (textOf o (ascii "session")) (textOf o (ascii "status"))
  | none => states

def replay (files : Files) : States :=
  files.records.foldl (replayRecord outside) []

structure Log where
  files : Files
  states : Option States

def Log.start (files : Files) : Log where
  files := files
  states := none

def Log.answer (tl : Log) : States :=
  tl.states.getD (replay outside tl.files)

/-- A call of `tasklog_record_access` or of `tasklog_session_states_json`. -/
inductive Call
  | append (e : Entry) (now : Int)
  | read

def Call.step (tl : Log) : Call → Log
  | append e now =>
    { files := recordAccess number tl.files e now
      states := if e.id < 0 then tl.states else tl.states.map fun s => sessionStateSet s e.id e.session e.status }
  | read => { tl with states := some (tl.answer outside) }

def runCalls (tl : Log) (calls : List Call) : Log :=
  calls.foldl (Call.step number outside) tl

/-- `tasklog_session_states_json`. -/
def sessionStatesJson (tl : Log) : Text :=
  Json.print number (.object (tl.answer outside))

def lastState (records : List Json) (session : Text) : Option Json :=
  (records.reverse.find? fun o => (idOf o).isSome && sessionOf o = session).bind fun o =>
    (idOf o).map fun id => stateOf (toInt64 outside id) (textOf o (ascii "status"))

/-- Every answer is the one of a process that starts then, and is of the last records. -/
def Transparent (files : Files) (calls : List Call) : Prop :=
  ∀ made, made <+: calls →
    let tl := runCalls number outside (Log.start files) made
    sessionStatesJson number outside tl = sessionStatesJson number outside (Log.start tl.files) ∧
      ∀ session, (Json.object (tl.answer outside)).get? session = lastState outside tl.files.records session

/-- A record that is read back as it was given: its texts are valid, its id is printed and read as a number of 64
bits, and its trace and its spans leave room for the record around them. -/
structure Kept (e : Entry) : Prop where
  status : ∀ text ∈ e.status, strUtf8Valid text = true
  session : ∀ text ∈ e.session, strUtf8Valid text = true
  id : Json.NumberReads number (toDouble e.id) (.number (toDouble e.id))
  fits : toDouble e.id < 2 ^ 63
  room : ∀ text, e.trace = some text ∨ e.spans = some text → Shallow text

/-- Once the states have been read, only records that are read back as they were given are appended. -/
def Keeps (files : Files) (calls : List Call) : Prop :=
  ∀ made e now, made ++ [.append e now] <+: calls →
    (runCalls number outside (Log.start files) made).states ≠ none → 0 ≤ e.id → Kept number e

end

/-! ### The cast of an id -/

theorem toDouble_multiple {u e : Nat} (small : u ≤ 2 ^ 53) : toDouble (u * 2 ^ e : Nat) = (u * 2 ^ e : Nat) := by
  have whole : 2 ^ ((u * 2 ^ e).log2 - 52) ∣ u * 2 ^ e := by
    rcases Nat.eq_zero_or_pos u with rfl | positive
    · simp
    · have pos : u * 2 ^ e ≠ 0 := (Nat.mul_pos positive (Nat.two_pow_pos e)).ne'
      rcases Nat.lt_or_eq_of_le small with less | rfl
      · have below : u * 2 ^ e < 2 ^ (53 + e) := by
          rw [pow_add]
          exact Nat.mul_lt_mul_of_pos_right less (Nat.two_pow_pos e)
        have log := (Nat.log2_lt pos).mpr below
        exact (Nat.pow_dvd_pow 2 (by omega)).mul_left u
      · rw [← pow_add]
        refine Nat.pow_dvd_pow 2 ?_
        rw [Nat.log2_two_pow]
        omega
  have positive : ¬((u * 2 ^ e : Nat) : Int) < 0 := Int.not_lt.mpr (Int.natCast_nonneg _)
  have unit := Nat.two_pow_pos ((u * 2 ^ e).log2 - 52)
  simp only [toDouble, Int.natAbs_natCast, Nat.mod_eq_zero_of_dvd whole, if_neg positive]
  rw [if_neg (by omega), Nat.div_mul_cancel whole]

theorem exists_toDouble {id : Int} (valid : 0 ≤ id) :
    ∃ n : Nat, toDouble id = (n : Rat) ∧ toDouble (n : Int) = (n : Rat) := by
  obtain ⟨m, rfl⟩ := Int.eq_ofNat_of_zero_le valid
  have size : m / 2 ^ (m.log2 - 52) < 2 ^ 53 := by
    rw [Nat.div_lt_iff_lt_mul (Nat.two_pow_pos _), ← pow_add]
    exact Nat.lt_log2_self.trans_le (Nat.pow_le_pow_right (by decide) (by omega))
  have positive : ¬(m : Int) < 0 := Int.not_lt.mpr (Int.natCast_nonneg _)
  unfold toDouble
  simp only [Int.natAbs_natCast, if_neg positive]
  refine ⟨_, rfl, ?_⟩
  split
  · exact toDouble_multiple size
  · exact toDouble_multiple size.le

theorem toDouble_toInt64 (outside : Rat → Int) {id : Int} (valid : 0 ≤ id) (fits : toDouble id < 2 ^ 63) :
    toDouble (toInt64 outside (toDouble id)) = toDouble id := by
  obtain ⟨n, double, own⟩ := exists_toDouble valid
  have low : (-(2 ^ 63) : Rat) ≤ toDouble id := by
    have positive : (0 : Rat) ≤ toDouble id := by
      rw [double]
      exact_mod_cast Nat.zero_le n
    exact le_trans (by norm_num) positive
  rw [toInt64, if_pos ⟨low, fits⟩, double, truncate_natCast, own]

/-! ### A record is read back -/

variable {number : Rat → Text} {outside : Rat → Int}

theorem read_entry {e : Entry} {now : Int} {height : Nat} {members' : List (Text × Json)} {r : Record}
    (id : Json.NumberReads number (toDouble e.id) (.number (toDouble e.id)))
    (shown : Json.RereadsMembers number height (recordMembers e now) members')
    (members : r.members = Json.repairedMembers members') :
    idOf r.json = some (toDouble e.id) ∧
      textOf r.json (ascii "status") = some (strUtf8Sanitize (e.status.getD (ascii "?"))) ∧
      textOf r.json (ascii "session") = some (strUtf8Sanitize (e.session.getD [])) := by
  have keys : strUtf8Sanitize (ascii "id") = ascii "id" ∧ strUtf8Sanitize (ascii "status") = ascii "status" ∧
      strUtf8Sanitize (ascii "permission_mode") = ascii "permission_mode" ∧
      strUtf8Sanitize (ascii "session") = ascii "session" ∧ ascii "id" ≠ ascii "status" ∧
      ascii "id" ≠ ascii "session" ∧ ascii "status" ≠ ascii "session" ∧
      ascii "permission_mode" ≠ ascii "session" := by
    decide
  obtain ⟨idKey, statusKey, modeKey, sessionKey, first, second, third, fourth⟩ := keys
  cases shown with
  | cons _ idRead shown =>
    cases shown with
    | cons _ statusRead shown =>
      cases shown with
      | cons _ modeRead shown =>
        cases shown with
        | cons _ sessionRead shown =>
          cases idRead with
          | number idRead =>
            cases statusRead with
            | string _ =>
              cases sessionRead with
              | string _ =>
                obtain rfl := numberReads_unique idRead id
                simp only [Json.repairedMembers, Json.repaired, idKey, statusKey, modeKey, sessionKey] at members
                refine ⟨by simp only [idOf, Record.json, members, get?_cons_self], ?_, ?_⟩
                · simp only [textOf, Record.json, members, get?_cons_of_ne first, get?_cons_self]
                  rfl
                · simp only [textOf, Record.json, members, get?_cons_of_ne second, get?_cons_of_ne third,
                    get?_cons_of_ne fourth, get?_cons_self]
                  rfl

theorem records_recordAccess (number : Rat → Text) (f : Files) {e : Entry} (valid : 0 ≤ e.id) {now : Int} {r : Record}
    (line : r.line = recordLine number e now) : (recordAccess number f e now).records = f.records ++ [r.json] := by
  rw [recordAccess, if_neg (Int.not_lt.mpr valid), ← line]
  have parsed (file : Text) : journalParse 0 none none (appendLine file r.line) =
      journalParse 0 none none file ++ [r.json] := by
    simp only [journalParse_eq, newest, if_true, journalLines_appendLine file r.visible r.one, List.filterMap_append]
    exact congrArg _ (filterMap_lines [r])
  cases journal : f.journal with
  | none =>
    have first := parsed []
    rw [show journalParse 0 none none [] = [] from rfl] at first
    simpa [Files.records, journal] using first
  | some file => simpa [Files.records, journal] using parsed file

theorem replay_append (files files' : Files) (o : Json) (more : files'.records = files.records ++ [o]) :
    replay outside files' = replayRecord outside (replay outside files) o := by
  rw [replay, more, List.foldl_append]
  rfl

theorem replay_recordAccess (prints : PrintsNumbers number) (f : Files) {e : Entry} (valid : 0 ≤ e.id)
    (kept : Kept number e) (now : Int) :
    replay outside (recordAccess number f e now) =
      sessionStateSet (replay outside f) e.id e.session e.status := by
  obtain ⟨r, line, members', shown, members⟩ := exists_record prints (within_record now kept.room)
  obtain ⟨id, status, session⟩ := read_entry kept.id shown members
  have statusText : strUtf8Valid (e.status.getD (ascii "?")) = true := by
    cases given : e.status with
    | none => decide
    | some text => exact kept.status text given
  have sessionText : strUtf8Valid (e.session.getD []) = true := by
    cases given : e.session with
    | none => rfl
    | some text => exact kept.session text given
  have named : sessionKey (some (e.session.getD [])) = sessionKey e.session := by
    cases e.session <;> rfl
  rw [replay_append f _ _ (records_recordAccess number f valid line), replayRecord, id]
  simp only
  rw [status, session, strUtf8Sanitize_of_valid statusText, strUtf8Sanitize_of_valid sessionText, sessionStateSet,
    named, stateOf, toDouble_toInt64 outside valid kept.fits]
  rfl

/-! ### The last record of a session -/

theorem distinct_sessionStateSet {states : States} (distinct : (states.map Prod.fst).Nodup) (id : Int)
    (session status : Option Text) : ((sessionStateSet states id session status).map Prod.fst).Nodup := by
  rw [sessionStateSet, List.map_append, List.nodup_append]
  refine ⟨eraseKey_distinct _ distinct, List.nodup_singleton _, fun a left b right same => ?_⟩
  obtain ⟨x, member, rfl⟩ := List.mem_map.mp left
  obtain rfl := List.mem_singleton.mp right
  exact ((mem_eraseKey distinct).mp member).2 same

theorem get?_eq_lookup (states : States) (key : Text) :
    (Json.object states).get? key = (lookup Prod.fst key states).map Prod.snd :=
  rfl

theorem get?_sessionStateSet {states : States} (distinct : (states.map Prod.fst).Nodup) (id : Int)
    (session status : Option Text) (key : Text) :
    (Json.object (sessionStateSet states id session status)).get? key =
      if key = sessionKey session then some (stateOf id status) else (Json.object states).get? key := by
  rw [get?_eq_lookup, get?_eq_lookup, sessionStateSet, lookup, List.find?_append, ← lookup, ← lookup,
    lookup_eraseKey distinct, lookup_cons]
  by_cases own : key = sessionKey session
  · rw [if_pos own, if_pos own, if_pos own.symm]
    rfl
  · rw [if_neg own, if_neg own, if_neg (Ne.symm own)]
    cases lookup Prod.fst key states <;> rfl

theorem foldl_replayRecord (records : List Json) :
    ((records.foldl (replayRecord outside) []).map Prod.fst).Nodup ∧ ∀ session,
      (Json.object (records.foldl (replayRecord outside) [])).get? session = lastState outside records session := by
  induction records using List.reverseRecOn with
  | nil => exact ⟨List.nodup_nil, fun _ => rfl⟩
  | append_singleton records o ih =>
    obtain ⟨distinct, last⟩ := ih
    rw [List.foldl_append, List.foldl_cons, List.foldl_nil]
    generalize records.foldl (replayRecord outside) [] = states at distinct last ⊢
    unfold replayRecord
    cases id : idOf o with
    | none =>
      refine ⟨distinct, fun session => (last session).trans ?_⟩
      simp [lastState, id]
    | some id' =>
      refine ⟨distinct_sessionStateSet distinct _ _ _, fun session => ?_⟩
      have key : sessionKey (textOf o (ascii "session")) = sessionOf o := rfl
      simp only
      rw [get?_sessionStateSet distinct, last, key]
      by_cases own : session = sessionOf o
      · simp [lastState, id, own]
      · simp [lastState, id, own, Ne.symm own]

/-! ### Runs -/

theorem runCalls_append (tl : Log) (calls : List Call) (call : Call) :
    runCalls number outside tl (calls ++ [call]) = call.step number outside (runCalls number outside tl calls) := by
  simp [runCalls]

def Log.Current (outside : Rat → Int) (tl : Log) : Prop :=
  ∀ states, tl.states = some states → states = replay outside tl.files

theorem Log.Current.answer {tl : Log} (current : tl.Current outside) : tl.answer outside = replay outside tl.files := by
  unfold Log.answer
  cases read : tl.states with
  | none => rfl
  | some states => exact current states read

theorem Log.Current.step (prints : PrintsNumbers number) {tl : Log} (current : tl.Current outside) {call : Call}
    (keeps : ∀ e now, call = .append e now → tl.states ≠ none → 0 ≤ e.id → Kept number e) :
    (call.step number outside tl).Current outside := by
  intro states read
  cases call with
  | read =>
    obtain rfl : tl.answer outside = states := Option.some.inj read
    exact current.answer
  | append e now =>
    simp only [Call.step] at read ⊢
    by_cases invalid : e.id < 0
    · rw [if_pos invalid] at read
      rw [recordAccess, if_pos invalid]
      exact current states read
    · rw [if_neg invalid, Option.map_eq_some_iff] at read
      obtain ⟨before, known, rfl⟩ := read
      have valid := Int.not_lt.mp invalid
      have kept := keeps e now rfl (by rw [known]; exact Option.some_ne_none _) valid
      rw [replay_recordAccess prints tl.files valid kept now, current before known]

theorem current_run (prints : PrintsNumbers number) {files : Files} {calls : List Call}
    (keeps : Keeps number outside files calls) : (runCalls number outside (Log.start files) calls).Current outside := by
  induction calls using List.reverseRecOn with
  | nil => exact nofun
  | append_singleton calls call ih =>
    rw [runCalls_append]
    refine (ih fun made e now part => keeps made e now (part.trans (List.prefix_append _ _))).step prints ?_
    rintro e now rfl read valid
    exact keeps calls e now (List.prefix_refl _) read valid

def runningIn (session : Text) (text : 0 ∉ session) : Entry where
  id := 3
  status := some (ascii "RUNNING")
  session := some session
  input := none
  output := none
  trace := none
  spans := none
  permissionMode := 0
  strings := by
    intro s listed t given
    simp only [List.mem_cons, List.not_mem_nil, or_false] at listed
    rcases listed with rfl | rfl | rfl | rfl
    · cases given
      decide
    · cases given
      exact text
    · cases given
    · cases given

theorem kept_runningIn {session : Text} (text : 0 ∉ session) (valid : strUtf8Valid session = true) :
    Kept naturalText (runningIn session text) := by
  have double : toDouble (runningIn session text).id = ((3 : Nat) : Rat) := toDouble_of_small (n := 3) (by decide)
  refine ⟨fun s given => ?_, fun s given => ?_, ?_, ?_, fun s given => ?_⟩
  · cases given
    decide
  · cases given
    exact valid
  · rw [double]
    exact reads_of_text (.inl ⟨naturalText_natCast 3, rfl⟩)
  · rw [double]
    norm_num
  · rcases given with given | given <;> cases given

end CognitiveOs.Runtime.TaskLog
