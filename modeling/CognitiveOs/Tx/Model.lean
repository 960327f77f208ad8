import CognitiveOs.Infra.Json
import CognitiveOs.Snapshot.Model

/-!
# The output of a transaction

`tx_append_output`: the lines of the calls in one growing buffer.
-/

namespace CognitiveOs.Transactions

open Infra

/-- The buffer: what a reader sees of it, how much is counted as written, its size. -/
structure TxOutput where
  text : Text := []
  len : Nat := 0
  cap : Nat := 0

/-- `while (ncap < need) ncap *= 2`. -/
def grownCap : Nat → Nat → Nat → Nat
  | 0, ncap, _ => ncap
  | fuel + 1, ncap, need => if ncap < need then grownCap fuel (ncap * 2) need else ncap

def outputLine (tool out : Text) : Text :=
  ascii "[" ++ tool ++ ascii "] " ++ out ++ ascii "\n"

/-- The terminator is not counted in what a line needs, so a line that ends at the end of
the buffer loses its last byte and leaves a terminator before everything that follows. -/
def txAppendOutput (t : TxOutput) (tool out : Text) : TxOutput :=
  let need := t.len + (tool.length + out.length + 4)
  let cap := if t.cap < need then grownCap need (if t.cap = 0 then 256 else t.cap * 2) need else t.cap
  let line := outputLine tool out
  { text := if t.text.length = t.len then t.text ++ line.take (cap - t.len - 1) else t.text
    len := t.len + line.length
    cap }

end CognitiveOs.Transactions

/-!
## Transactions

`tx/tx.c`: the tool calls of one round, with the paths they name captured before they
run. What a tool does to the files is chosen by the call.
-/

namespace CognitiveOs.Transactions

open Infra Os Snapshots

/-- The position of the last `/`. -/
def lastSlash (path : Text) : Option Nat :=
  (path.reverse.findIdx? (· = slash)).map fun i => path.length - 1 - i

/-- The loop of `is_git_managed`, over a directory and its ancestors. -/
def gitAbove (d : Disk) : (depth : Nat) → Text → Bool
  | 0, _ => false
  | depth + 1, buf =>
    if fsExists d (pathJoin 2200 buf (ascii ".git")) then true
    else
      match lastSlash buf with
      | none | some 0 => false
      | some (last + 1) =>
        let parent := buf.take (last + 1)
        -- a drive root such as `D:`
        if parent.length = 2 ∧ parent[1]? = some 58 then
          fsExists d (parent ++ ascii "\\.git")
        else gitAbove d depth parent

def isGitManaged (d : Disk) (dir : Text) : Bool :=
  dir ≠ [] && gitAbove d 32 (snprintf 2048 dir)

def namedPaths (args : Option Json) (workspace : Text) : List Text :=
  match args with
  | none => []
  | some args =>
    let path := ((args.get? (ascii "path")).bind Json.string?).toList
    let files := (((args.get? (ascii "files")).map Json.items).getD []).filterMap Json.string?
    (path ++ files).map (pathResolve 2048 workspace)

def extractPaths (args : Option Json) (workspace : Text) : List Text :=
  (namedPaths args workspace).take 16

structure Tool where
  name : Text
  isWrite : Bool

/-- A call of a tool: `args` is what `cJSON_Parse` makes of the arguments, `effect` and
`ok` what the tool does and reports. -/
structure Call where
  tool : Text
  args : Option Json
  effect : Disk → Cow → Disk × Cow
  ok : Bool

structure Tx where
  disk : Disk
  cow : Cow
  snap : Snapshot
  tools : List Tool
  workspace : Text
  gitManaged : Bool
  allOk : Bool := true
  nActions : Nat := 0
  rolledBack : Bool := false

def txBegin (disk : Disk) (cow : Cow) (snap : Snapshot) (tools : List Tool) (workspace : Text) :
    Tx :=
  { disk, cow, snap, tools, workspace, gitManaged := isGitManaged disk workspace }

def toolFind (tools : List Tool) (name : Text) : Option Tool :=
  tools.find? fun tool => tool.name = name

def capturePaths (d : Disk) (snap : Snapshot) (c : Cow) (paths : List Text) : Snapshot × Cow :=
  paths.foldl (fun (snap, c) path =>
    if isGitManaged d path then (snap, c) else snapshotCapture snap d c path) (snap, c)

def txRun (tx : Tx) (call : Call) : Tx :=
  match toolFind tx.tools call.tool with
  | none => tx
  | some tool =>
    let (snap, cow) :=
      if tool.isWrite && !tx.gitManaged then
        capturePaths tx.disk tx.snap tx.cow (extractPaths call.args tx.workspace)
      else (tx.snap, tx.cow)
    let (disk, cow) := call.effect tx.disk cow
    { tx with disk, cow, snap, allOk := tx.allOk && call.ok, nActions := tx.nActions + 1 }

def txRollback (tx : Tx) : Tx :=
  let (snap, disk) := snapshotRestorePending tx.snap tx.cow tx.disk
  { tx with snap, disk, rolledBack := true }

end CognitiveOs.Transactions
