import CognitiveOs.Infra.Text
import Mathlib.Algebra.Group.Nat.Defs

/-!
# Observed files

`os/posix/fs.c`, as far as the agent loop looks at files through it. A world is what the
kernel answers at one moment; links are followed by it, so two names may be one file.
-/

namespace CognitiveOs.Os

open Infra

/-- The fields of `struct stat` that are used. -/
structure Stat where
  dev : UInt64 := 0
  ino : UInt64
  size : UInt64
  mtimeSec : UInt64
  mtimeNsec : UInt64 := 0
  ctimeSec : UInt64
  ctimeNsec : UInt64 := 0
  isDir : Bool := false
  deriving DecidableEq

structure World where
  stat : Text → Option Stat := fun _ => none
  realpath : Text → Option Text := fun _ => none
  cwd : Option Text := none
  /-- The bytes of a file that can be opened and read. -/
  bytes : Text → Option Text := fun _ => none
  /-- The names of a directory, and whether each is a directory. -/
  entries : Text → Option (List (Text × Bool)) := fun _ => none

/-- One `MIX_VERSION`: the bytes of a word, the lowest first. -/
def mixVersion (h v : UInt64) : UInt64 :=
  (List.range 8).foldl (fun h i => (h ^^^ ((v >>> (8 * i).toUInt64) &&& 0xFF)) * 1099511628211) h

def versionOf (st : Stat) : UInt64 :=
  let h := [st.dev, st.ino, st.size, st.mtimeSec, st.mtimeNsec, st.ctimeSec, st.ctimeNsec].foldl
    mixVersion 1469598103934665603
  if h = 0 then 1 else h

namespace World

variable (w : World)

def fsExists (path : Text) : Bool :=
  (w.stat path).isSome

def fsIsDir (path : Text) : Bool :=
  (w.stat path).any fun st => st.isDir

def fsFileSize (path : Text) : Int :=
  match w.stat path with
  | some st => st.size.toNat
  | none => -1

def fsFileVersion (path : Text) : UInt64 :=
  match w.stat path with
  | some st => versionOf st
  | none => 0

def fsAbsolutePath (path : Text) : Option Text :=
  let path := if path = [] then ascii "." else path
  match w.realpath path with
  | some out => some out
  | none =>
    if path.head? = some slash then some path
    else w.cwd.map fun cwd => pathJoin (cwd.length + path.length + 2) cwd path

/-- The bytes from `offset` on, `maxBytes` at most, and whether there are more. -/
def fsReadFileSlice (path : Text) (offset maxBytes : Nat) : Option (Text × Bool) :=
  if 2 ^ 63 ≤ offset then none
  else
    (w.bytes path).map fun bytes =>
      ((bytes.drop offset).take maxBytes, decide (maxBytes < (bytes.drop offset).length))

end World

end CognitiveOs.Os

/-!
## Files

`os/posix/fs.c`, as far as it is used on whole files. Names are not followed through
links, and opening, writing and closing a file is one step that succeeds or changes
nothing.
-/

namespace CognitiveOs.Os

open Infra

inductive Node where
  | file (bytes : Text)
  | dir (empty : Bool)
  deriving DecidableEq

/-- What the names denote, and what the process may do with them. -/
structure Disk where
  node : Text → Option Node := fun _ => none
  readable : Text → Bool := fun _ => true
  /-- The name may be written and removed: its directory exists and permits it. -/
  writable : Text → Bool := fun _ => true

def setNode (d : Disk) (path : Text) (node : Option Node) : Disk :=
  { d with node := Function.update d.node path node }

def fsExists (d : Disk) (path : Text) : Bool :=
  (d.node path).isSome

def fsIsDir (d : Disk) (path : Text) : Bool :=
  match d.node path with
  | some (.dir _) => true
  | _ => false

/-- The size `stat` reports; that of a directory is never used. -/
def fsFileSize (d : Disk) (path : Text) : Int :=
  match d.node path with
  | some (.file bytes) => bytes.length
  | some (.dir _) => 0
  | none => -1

def fsReadFile (d : Disk) (path : Text) : Option Text :=
  match d.node path with
  | some (.file bytes) => if d.readable path then some bytes else none
  | _ => none

/-- `none` where the source returns -1. -/
def fsWriteFile (d : Disk) (path bytes : Text) : Option Disk :=
  if fsIsDir d path || !d.writable path then none else some (setNode d path (some (.file bytes)))

/-- `remove` deletes files and empty directories. -/
def fsRemove (d : Disk) (path : Text) : Option Disk :=
  if !d.writable path then none
  else
    match d.node path with
    | some (.file _) | some (.dir true) => some (setNode d path none)
    | some (.dir false) | none => none

end CognitiveOs.Os
