import CognitiveOs.Foundation.Upsert
import CognitiveOs.Os.World
import Mathlib.Data.List.Induction

/-!
# Snapshots

`snapshot/cow.c` and `snapshot/snapshot.c`: file contents kept by their hash, the
captures that name them, and the two ways of putting captured files back. The block
directory is apart from the files that are captured.
-/

namespace CognitiveOs.Snapshots

open Infra Os

structure Cow where
  block : Text → Option Text := fun _ => none
  /-- A new block may be written under the name. -/
  storable : Text → Bool := fun _ => true

def hashOf (data : Text) : Text :=
  hashHex (hash64 data)

@[simp] theorem hashOf_ne_nil (data : Text) : hashOf data ≠ [] :=
  hashHex_ne_nil _

/-- The hash of the data, or `none` where the source returns NULL. -/
def cowPut (c : Cow) (data : Text) : Option Text × Cow :=
  if (c.block (hashOf data)).isSome then (some (hashOf data), c)
  else if c.storable (hashOf data) then
    (some (hashOf data), { c with block := Function.update c.block (hashOf data) (some data) })
  else (none, c)

/-- The length of a block is taken with `strlen`. -/
def cowGet (c : Cow) (hash : Text) : Option Text :=
  (c.block hash).map cstr

structure Captured where
  path : Text
  /-- Empty if the file did not exist or its content could not be kept. -/
  hash : Text := []
  existed : Bool
  skipped : Bool := false
  deriving DecidableEq

structure SnapshotEntry where
  id : Text
  files : List Captured

def snapshotDefaultMaxFile : Nat := 64 * 1024 * 1024

structure Snapshot where
  /-- Zero turns the limit off. -/
  maxFile : Nat := snapshotDefaultMaxFile
  pending : List Captured := []
  committed : List SnapshotEntry := []

def captureFile (maxFile : Nat) (d : Disk) (c : Cow) (path : Text) : Captured × Cow :=
  if fsExists d path ∧ fsIsDir d path then ({ path, existed := true, skipped := true }, c)
  else if fsExists d path then
    if 0 < maxFile ∧ maxFile < fsFileSize d path then
      ({ path, existed := true, skipped := true }, c)
    else
      match fsReadFile d path with
      | some content =>
        let (hash, c) := cowPut c (cstr content)
        ({ path, hash := hash.getD [], existed := true }, c)
      | none => ({ path, existed := true }, c)
  else ({ path, existed := false }, c)

def snapshotCapture (s : Snapshot) (d : Disk) (c : Cow) (path : Text) : Snapshot × Cow :=
  let (captured, c) := captureFile s.maxFile d c path
  ({ s with pending := s.pending ++ [captured] }, c)

/-- `id` is the fresh identifier made from the clock. -/
def snapshotCommit (s : Snapshot) (id : Text) : Snapshot :=
  if s.pending = [] then s
  else { s with committed := s.committed ++ [{ id, files := s.pending }], pending := [] }

def snapshotAbort (s : Snapshot) : Snapshot :=
  { s with pending := [] }

def restoreFile (c : Cow) (d : Disk) (cap : Captured) : Option Disk :=
  if cap.existed ∧ cap.hash ≠ [] then
    (cowGet c cap.hash).bind fun blob => fsWriteFile d cap.path blob
  else fsRemove d cap.path

/-- The loop body of `restore_entry`, which ignores failures. -/
def restoreCaptured (c : Cow) (d : Disk) (cap : Captured) : Disk :=
  if cap.existed ∧ cap.skipped then d else (restoreFile c d cap).getD d

def restoreEntry (c : Cow) (d : Disk) (files : List Captured) : Disk :=
  files.foldl (restoreCaptured c) d

def findEntry (s : Snapshot) (id : Text) : Option SnapshotEntry :=
  s.committed.find? fun entry => entry.id = id

def snapshotRestore (s : Snapshot) (c : Cow) (d : Disk) (id : Text) : Int × Disk :=
  match findEntry s id with
  | some entry => (0, restoreEntry c d entry.files)
  | none => (-1, d)

def findFile (entry : SnapshotEntry) (path : Text) : Option Captured :=
  entry.files.find? fun cap => cap.path = path

/-- The first loop of `snapshot_restore_files` lets the path pass. -/
def restorable (entry : SnapshotEntry) (path : Text) : Bool :=
  path ≠ [] && (findFile entry path).any fun cap => !(cap.existed && cap.skipped)

/-- The second loop of `snapshot_restore_files`. -/
def restoreListed (c : Cow) (entry : SnapshotEntry) : List Text → Disk → Int → Int × Disk
  | [], d, restored => (restored, d)
  | path :: paths, d, restored =>
    match findFile entry path with
    | none => restoreListed c entry paths d restored
    | some cap =>
      match restoreFile c d cap with
      | none => (-1, d)
      | some d => restoreListed c entry paths d (restored + 1)

/-- An empty `id` names the latest entry. -/
def snapshotRestoreFiles (s : Snapshot) (c : Cow) (d : Disk) (id : Text) (paths : List Text) :
    Int × Disk :=
  match if id ≠ [] then findEntry s id else s.committed.getLast? with
  | none => (-1, d)
  | some entry =>
    if paths = [] ∨ ∃ path ∈ paths, !restorable entry path then (-1, d)
    else restoreListed c entry paths d 0

def snapshotRestorePending (s : Snapshot) (c : Cow) (d : Disk) : Snapshot × Disk :=
  (snapshotAbort s, restoreEntry c d s.pending)

end CognitiveOs.Snapshots

/-!
## What replaying captures leaves

A capture says a content, an absence, or nothing that can be put back. Replaying a
list of captures leaves, under each path, what the last of them said about it, where
the path can take it.
-/

namespace CognitiveOs.Snapshots

open Foundation Infra Os

/-- What a capture can put back: a content, or an absence (`some none`). -/
def said (c : Cow) (cap : Captured) : Option (Option Text) :=
  if cap.existed && cap.skipped then none
  else if cap.existed ∧ cap.hash ≠ [] then (cowGet c cap.hash).map some
  else some none

def nodeOf (state : Option Text) : Option Node :=
  state.map Node.file

/-- `node` can be replaced by `state`: nothing is written over a directory, and only
files and empty directories are removed. -/
def accepts (writable : Bool) (node : Option Node) (state : Option Text) : Bool :=
  writable &&
    match node, state with
    | some (.dir empty), none => empty
    | some (.dir _), some _ => false
    | none, none => false
    | _, _ => true

def settled (writable : Bool) (node : Option Node) (states : List (Option Text)) : Option Node :=
  match writable, node with
  | false, _ | true, some (.dir false) => node
  | true, some (.dir true) => if none ∈ states then (states.getLast?.map nodeOf).getD node else node
  | true, _ => (states.getLast?.map nodeOf).getD node

@[simp] theorem setNode_node (d : Disk) (path : Text) (node : Option Node) :
    (setNode d path node).node = Function.update d.node path node := rfl

@[simp] theorem setNode_writable (d : Disk) (path : Text) (node : Option Node) :
    (setNode d path node).writable = d.writable := rfl

theorem fsWriteFile_eq (d : Disk) (path bytes : Text) :
    fsWriteFile d path bytes =
      if accepts (d.writable path) (d.node path) (some bytes) then
        some (setNode d path (nodeOf (some bytes)))
      else none := by
  unfold fsWriteFile fsIsDir accepts
  cases d.writable path <;> rcases d.node path with _ | ⟨bytes⟩ | ⟨_ | _⟩ <;> simp [nodeOf]

theorem fsRemove_eq (d : Disk) (path : Text) :
    fsRemove d path =
      if accepts (d.writable path) (d.node path) none then some (setNode d path (nodeOf none))
      else none := by
  unfold fsRemove accepts
  cases d.writable path <;> rcases d.node path with _ | ⟨bytes⟩ | ⟨_ | _⟩ <;> simp [nodeOf]

theorem restoreFile_eq {c : Cow} {d : Disk} {cap : Captured}
    (usable : (cap.existed && cap.skipped) = false) :
    restoreFile c d cap = (said c cap).bind fun state =>
      if accepts (d.writable cap.path) (d.node cap.path) state then
        some (setNode d cap.path (nodeOf state))
      else none := by
  unfold restoreFile said
  rw [usable]
  split
  · simp [fsWriteFile_eq, Option.bind_map, Function.comp_def]
  · simp [fsRemove_eq]

def attempt (c : Cow) (writable : Bool) (cap : Captured) (node : Option Node) : Option Node :=
  match said c cap with
  | some state => if accepts writable node state then nodeOf state else node
  | none => node

theorem restoreCaptured_node (c : Cow) (d : Disk) (cap : Captured) :
    (restoreCaptured c d cap).node =
      Keyed.apply Captured.path (fun cap => attempt c (d.writable cap.path) cap) d.node cap := by
  unfold restoreCaptured Keyed.apply attempt
  by_cases skipped : (cap.existed && cap.skipped) = true
  · have left : cap.existed = true ∧ cap.skipped = true := by simpa using skipped
    simp [said, left]
  · have usable : (cap.existed && cap.skipped) = false := by simpa using skipped
    have kept : ¬ (cap.existed = true ∧ cap.skipped = true) := by simpa using skipped
    rw [if_neg kept, restoreFile_eq usable]
    cases spoken : said c cap with
    | none => simp [spoken]
    | some state =>
      by_cases accepted : accepts (d.writable cap.path) (d.node cap.path) state = true <;>
        simp [spoken, accepted]

theorem restoreCaptured_writable (c : Cow) (d : Disk) (cap : Captured) :
    (restoreCaptured c d cap).writable = d.writable := by
  unfold restoreCaptured
  split
  · rfl
  · next kept =>
    have usable : (cap.existed && cap.skipped) = false := by simpa using kept
    rw [restoreFile_eq usable]
    cases said c cap with
    | none => rfl
    | some state =>
      simp only [Option.bind_some]
      split <;> rfl

theorem settled_append (writable : Bool) (node : Option Node) (states : List (Option Text))
    (state : Option Text) :
    settled writable node (states ++ [state]) =
      if accepts writable (settled writable node states) state then nodeOf state
      else settled writable node states := by
  cases writable with
  | false => simp [settled, accepts]
  | true =>
    rcases last : states.getLast? with _ | _ | before
    · obtain rfl : states = [] := by simpa using last
      cases state <;> rcases node with _ | ⟨bytes⟩ | ⟨_ | _⟩ <;> simp [settled, accepts, nodeOf]
    · have removed := List.mem_of_getLast? last
      cases state <;> rcases node with _ | ⟨bytes⟩ | ⟨_ | _⟩ <;>
        simp [settled, accepts, nodeOf, last, removed]
    · by_cases removed : none ∈ states <;> cases state <;>
        rcases node with _ | ⟨bytes⟩ | ⟨_ | _⟩ <;> simp [settled, accepts, nodeOf, last, removed]

theorem foldl_attempt (c : Cow) (writable : Bool) (caps : List Captured) (node : Option Node) :
    caps.foldl (fun node cap => attempt c writable cap node) node =
      settled writable node (caps.filterMap (said c)) := by
  induction caps using List.reverseRecOn with
  | nil => cases writable <;> rcases node with _ | ⟨bytes⟩ | ⟨_ | _⟩ <;> rfl
  | append_singleton caps cap ih =>
    rw [List.foldl_append, List.filterMap_append, ih]
    cases spoken : said c cap with
    | none => simp [attempt, spoken]
    | some state =>
      simp only [List.foldl_cons, List.foldl_nil, attempt, spoken, List.filterMap_cons,
        List.filterMap_nil]
      exact (settled_append writable node _ state).symm

def statements (c : Cow) (files : List Captured) (path : Text) : List (Option Text) :=
  (files.filter fun cap => cap.path = path).filterMap (said c)

theorem restoreEntry_eq_foldl (c : Cow) (d : Disk) (files : List Captured) :
    (restoreEntry c d files).node =
      files.foldl (Keyed.apply Captured.path fun cap => attempt c (d.writable cap.path) cap)
        d.node := by
  unfold restoreEntry
  induction files generalizing d with
  | nil => rfl
  | cons cap files ih =>
    rw [List.foldl_cons, List.foldl_cons, ih, restoreCaptured_node, restoreCaptured_writable]

theorem restoreEntry_node (c : Cow) (d : Disk) (files : List Captured) (path : Text) :
    (restoreEntry c d files).node path =
      settled (d.writable path) (d.node path) (statements c files path) := by
  rw [restoreEntry_eq_foldl, Keyed.foldl_apply, statements, ← foldl_attempt]
  refine List.foldl_ext _ _ _ fun node cap member => ?_
  have here : cap.path = path := by simpa using (List.mem_filter.mp member).2
  rw [here]

end CognitiveOs.Snapshots
