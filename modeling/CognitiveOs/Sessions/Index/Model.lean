import CognitiveOs.Sessions.Transcript
import Mathlib.Algebra.GroupWithZero.Nat

/-!
# The index of chat sessions

The part of `cognition/reasoning.c` that keeps the metadata of the sessions in memory
and in the chat directory: a small JSON index rewritten on every change, and past 128
entries a journal of changed records. File operations succeed, JSON texts read back as
the values they were written from, and the state root leaves room for the file names.
-/

namespace CognitiveOs.SessionIndex

open Foundation Infra Sessions

/-- `struct sess_meta`, without the flag of shared memory. -/
structure Meta where
  id : Text
  title : Text := []
  createdMs : Int := 0
  totalMs : Int := 0
  lastActiveMs : Int := 0
  deleted : Bool := false
  deriving DecidableEq

/-- `struct session`: what a live session adds to its metadata. -/
structure Live where
  title : Text := []
  createdMs : Int
  totalMs : Int := 0
  lastActiveMs : Int
  /-- `hist_n == 0`. -/
  histEmpty : Bool := true
  loaded : Bool := false
  inRun : Bool := false

/-- The chat directory. A transcript is its name without `.jsonl`, with the title that can
be recovered from its first line; a journal line without an id is `none`. -/
structure Files where
  index : Option (List Meta) := none
  journal : Option (List (Option Meta)) := none
  transcripts : List (Text × Text) := []

/-- `struct sess_store`. The recency list holds positions in the array, latest first. -/
structure Store where
  files : Files := {}
  metas : List Meta := []
  recency : List Nat := []
  metaLog : Bool := false
  live : Text → Option Live := fun _ => none

def journalName : Text := ascii "sessions-index"

instance hexadecimal : NeZero 16 := inferInstance

/-- `session_uuid` of a random token of hexadecimal digits. -/
def sessionUuid (token : List (Fin 16)) : Text :=
  let hex := ((token.set 12 4).modify 16 fun variant => 8 + variant % 4).map fun d =>
    hexDigit d.val.toUInt64
  hex.take 8 ++ 45 :: (hex.drop 8).take 4 ++ 45 :: (hex.drop 12).take 4 ++
    45 :: (hex.drop 16).take 4 ++ 45 :: (hex.drop 20).take 12

def metaFind (s : Store) (id : Text) : Option Nat :=
  s.metas.findIdx? fun m => m.id = id

def metaTouch (s : Store) (i : Nat) : Store :=
  { s with recency := i :: s.recency.erase i }

def metaEnsure (s : Store) (id : Text) : Nat × Store :=
  match metaFind s id with
  | some i => (i, s)
  | none => (s.metas.length, { s with metas := s.metas ++ [{ id := id.take 63 }] })

/-- Find or make the entry, fill it with `fill` and move it to the front. -/
def metaPlace (s : Store) (id : Text) (fill : Meta → Meta) : Store :=
  let (i, s) := metaEnsure s id
  metaTouch { s with metas := s.metas.modify i fill } i

def metaLogChange (s : Store) (m : Meta) : Store :=
  if s.metaLog then
    { s with files.journal := s.files.journal.map fun lines => lines ++ [some m] }
  else s

def live (metas : List Meta) : List Meta :=
  metas.filter fun m => !m.deleted

/-- `meta_save_locked`. -/
def metaSave (s : Store) : Store :=
  if s.metaLog then s
  else if 128 < s.metas.length then
    { s with files.journal := some (s.metas.map some), metaLog := true }
  else { s with files.index := some (live s.metas) }

def fillFrom (l : Live) (m : Meta) : Meta :=
  { id := m.id, title := l.title.take 127, createdMs := l.createdMs, totalMs := l.totalMs,
    lastActiveMs := l.lastActiveMs }

/-- `meta_upsert_locked`, which logs the entry as it is now. -/
def metaUpsert (s : Store) (id : Text) (l : Live) : Store :=
  let s := metaPlace s id (fillFrom l)
  match s.recency.head?.bind fun i => s.metas[i]? with
  | some m => metaLogChange s m
  | none => s

def metaDelete (s : Store) (id : Text) : Store × Bool :=
  match (metaFind s id).bind fun i => (s.metas[i]?).map fun m => (i, m) with
  | some (i, m) =>
    if m.deleted then (s, false)
    else
      let m := { m with deleted := true }
      (metaLogChange { s with metas := s.metas.set i m } m, true)
  | none => (s, false)

/-- The position of the byte before which the text is cut, moved to a character start. -/
def cutBack (s : Text) : Nat → Nat
  | 0 => 0
  | n + 1 => if (s[n + 1]?.map fun byte => byte &&& 0xC0) = some 0x80 then cutBack s n else n + 1

def strHead (cap : Nat) (s : Text) : Text :=
  if s.length ≤ cap then s else s.take (cutBack s cap) ++ [0xE2, 0x80, 0xA6]

/-- The title recovered from a first line with this question, which is read into a
buffer of 16384 bytes. -/
def recoveredTitle (q : Text) (fits : Bool) : Text :=
  if fits then (strHead 60 q).take 127 else []

def transcriptAppend (f : Files) (id q : Text) (fits : Bool) : Files :=
  if safeName id = journalName then { f with journal := some (f.journal.getD [] ++ [none]) }
  else if f.transcripts.any fun t => t.1 = safeName id then f
  else { f with transcripts := f.transcripts ++ [(safeName id, recoveredTitle q fits)] }

def transcriptRemove (f : Files) (id : Text) : Files :=
  if safeName id = journalName then { f with journal := none }
  else { f with transcripts := f.transcripts.filter fun t => t.1 ≠ safeName id }

def setLive (s : Store) (id : Text) (l : Option Live) : Store :=
  { s with live := Function.update s.live id l }

/-- `session_get_locked`: a new session takes its metadata from a live entry. -/
def sessionGet (s : Store) (id : Text) (now : Int) : Live :=
  match s.live id with
  | some l => l
  | none =>
    match (metaFind s id).bind fun i => s.metas[i]? with
    | some m =>
      if m.deleted then { createdMs := now, lastActiveMs := now }
      else { title := m.title, createdMs := m.createdMs, totalMs := m.totalMs,
             lastActiveMs := m.lastActiveMs }
    | none => { createdMs := now, lastActiveMs := now }

def publish (s : Store) (id : Text) (l : Live) : Store :=
  metaSave (metaUpsert (setLive s id (some l)) id l)

def replayLine (s : Store) : Option Meta → Store
  | none => s
  | some m =>
    if m.id = [] ∨ 64 ≤ m.id.length then s
    else metaPlace s m.id fun old => { m with id := old.id, title := m.title.take 127 }

def activity (m : Meta) : Int :=
  if m.lastActiveMs ≠ 0 then m.lastActiveMs else m.createdMs

/-- `meta_activity_compare`, with `strcmp` on the ids. -/
def activityLe (x y : Meta) : Bool :=
  activity x < activity y || (activity x = activity y && decide (x.id ≤ y.id))

/-- One transcript of the chat directory: recover a missing title or a missing entry. -/
def healTranscript : List Meta × Bool → Text × Text → List Meta × Bool
  | (metas, healed), (sid, title) =>
    match metas.findIdx? fun m => m.id = sid with
    | some i =>
      if (metas[i]?.any fun m => m.title = []) ∧ title ≠ [] then
        (metas.modify i fun m => { m with title }, true)
      else (metas, healed)
    | none => (metas ++ [{ id := sid.take 63, title }], true)

/-- `meta_load_legacy`; nothing is recovered without an index. -/
def metaLoadLegacy (f : Files) : Store :=
  match f.index with
  | none => { files := f }
  | some entries =>
    let read := (entries.filter fun m => m.id ≠ []).map fun m =>
      { m with id := m.id.take 63, title := m.title.take 127, deleted := false }
    let (metas, healed) := f.transcripts.foldl healTranscript (read, false)
    if healed then metaSave { files := f, metas } else { files := f, metas }

/-- `meta_load` in a new process. -/
def metaLoad (f : Files) : Store :=
  match f.journal with
  | some lines => lines.foldl replayLine { files := f, metaLog := true }
  | none =>
    let s := metaLoadLegacy f
    let metas := s.metas.mergeSort activityLe
    { s with metas, recency := (List.range metas.length).reverse }

/-- The live sessions as `reasoning_sessions_page_json` lists them, page after page. -/
def listing (s : Store) : List Meta :=
  live (s.recency.filterMap fun i => s.metas[i]?)

/-- The steps a run takes on the index are its parts between two locks. -/
inductive Action where
  | new (token : List (Fin 16)) (now : Int)
  | notePrompt (sessionId prompt : Text) (now : Int)
  | runStart (sessionId : Text) (now : Int)
  | runEnd (sessionId : Text) (elapsed : Int)
  | recordTurn (sessionId q : Text) (fits : Bool)
  | runDone (sessionId : Text)
  | setTitle (sessionId title : Text)
  | delete (sessionId : Text)
  | restart

/-- `reasoning_session_new`; a used uuid is drawn again. -/
def sessionNew (s : Store) (uuid : Text) (now : Int) : Store :=
  if (metaFind s uuid).isSome then s
  else metaSave (metaUpsert s uuid { createdMs := now, lastActiveMs := now })

/-- `reasoning_session_note_prompt`. -/
def notePrompt (s : Store) (id prompt : Text) (now : Int) : Store :=
  if prompt = [] then s
  else
    let l := sessionGet s id now
    publish s id { l with title := if l.title = [] then (strHead 60 prompt).take 127 else l.title }

/-- The start of `reasoning_run_ex`. -/
def runStart (s : Store) (id : Text) (now : Int) : Store :=
  let l := sessionGet s id now
  if l.inRun then s
  else
    let found := s.files.transcripts.any fun t => t.1 = safeName id
    setLive s id (some { l with
      inRun := true
      lastActiveMs := now
      loaded := true
      histEmpty := if l.loaded then l.histEmpty else l.histEmpty && !found })

/-- The running session, when `id` has one. -/
def running (s : Store) (id : Text) : Option Live :=
  (s.live id).filter fun l => l.inRun

def recordTurn (s : Store) (id : Text) (l : Live) (q : Text) (fits : Bool) : Store :=
  let title := if l.histEmpty && decide (l.title = []) then (strHead 60 q).take 127 else l.title
  let s := { s with files := transcriptAppend s.files id (strHead 4000 q) fits }
  publish s id { l with title, histEmpty := false, loaded := true }

/-- `reasoning_session_set_title`. -/
def setTitle (s : Store) (id title : Text) : Store :=
  if title = [] ∨ 128 ≤ title.length then s
  else
    match (metaFind s id).bind fun i => (s.metas[i]?).map fun m => (i, m) with
    | none => s
    | some (i, m) =>
      if m.deleted then s
      else
        let s := setLive s id ((s.live id).map fun l => { l with title })
        metaSave { s with metas := s.metas.set i { m with title } }

/-- `reasoning_session_delete`. -/
def sessionDelete (s : Store) (id : Text) : Store :=
  match s.live id with
  | none =>
    let (s, removed) := metaDelete s id
    let s := metaSave s
    if removed then { s with files := transcriptRemove s.files id } else s
  | some l =>
    if l.inRun then s
    else
      let s := metaSave (metaDelete (setLive s id none) id).1
      { s with files := transcriptRemove s.files id }

def Store.step (s : Store) : Action → Store
  | .new token now => sessionNew s (sessionUuid token) now
  | .notePrompt sessionId prompt now => notePrompt s (wanted sessionId) prompt now
  | .runStart sessionId now => runStart s (wanted sessionId) now
  | .runEnd sessionId elapsed =>
    match running s (wanted sessionId) with
    | some l => publish s (wanted sessionId) { l with totalMs := l.totalMs + elapsed }
    | none => s
  | .recordTurn sessionId q fits =>
    match running s (wanted sessionId) with
    | some l => recordTurn s (wanted sessionId) l q fits
    | none => s
  | .runDone sessionId =>
    match running s (wanted sessionId) with
    | some l => setLive s (wanted sessionId) (some { l with inRun := false })
    | none => s
  | .setTitle sessionId title => setTitle s sessionId title
  | .delete sessionId => sessionDelete s (wanted sessionId)
  | .restart => metaLoad s.files

end CognitiveOs.SessionIndex
