import CognitiveOs.Cognition.Steps

/-!
# Remembered searches

When two calls are the same read or search, and which commands cannot change what a search
has found. `number` prints a double.
-/

namespace CognitiveOs.Cognition

open Infra Os

/-! ### Signatures -/

variable (number : Rat → Text)

mutual

/-- `observation_json_hash`: the order of the members of an object does not matter. -/
def observationJsonHash : Json → UInt64
  | .array items => arrayHash 33 items
  | .object members => objectHash 65 members
  | .null => 5 ^^^ hash64 (Json.printScalar number .null)
  | .bool value => ((Json.bool value).typeCode + 1) ^^^ hash64 (Json.printScalar number (.bool value))
  | .number value => 9 ^^^ hash64 (Json.printScalar number (.number value))
  | .string value => 17 ^^^ hash64 (Json.printScalar number (.string value))

def arrayHash : UInt64 → List Json → UInt64
  | h, [] => h
  | h, item :: items => arrayHash ((h ^^^ observationJsonHash item) * 0x100000001b3) items

def objectHash : UInt64 → List (Text × Json) → UInt64
  | h, [] => h
  | h, (key, value) :: members =>
    objectHash (h + (observationJsonHash value ^^^ hash64 key) * 0x9e3779b185ebca87) members

end

def semanticActionSignature (a : PlannedAction) : UInt64 :=
  let h :=
    match a.args with
    | some args => hash64 a.tool ^^^ observationJsonHash number args
    | none => hash64 a.tool ^^^ hash64 a.argsJson
  if h = 0 then 1 else h

def argNumber (args : Option Json) (key : String) : Option Rat :=
  (args.bind fun a => a.get? (ascii key)).bind fun item =>
    match item with
    | .number value => some value
    | _ => none

variable (workspace : Text) (w : World)

/-- `file_read_signature`: the file, its version and the page. -/
def fileReadSignature (a : PlannedAction) : UInt64 :=
  let offset :=
    match argNumber a.args "offset_bytes" with
    | some value => if 0 ≤ value then value.floor.toNat % 2 ^ 64 else 0
    | none => 0
  let page :=
    match argNumber a.args "max_bytes" with
    | some value => if 4 ≤ value then min (value.floor.toNat % 2 ^ 64) 4000 else 4000
    | none => 4000
  match argString a.args "path" with
  | none => hash64 a.argsJson
  | some path =>
    let resolved := pathResolve 2048 workspace path
    let identity :=
      normalizedEvidencePath workspace w ((w.fsAbsolutePath resolved).getD resolved) 2048
    hash64 (ascii "file_read|" ++ identity ++ ascii "|" ++ decimal offset ++ ascii "|" ++
      decimal page ++ ascii "|" ++ decimal (w.fsFileVersion identity).toNat)

/-- `directory_signature`, 0 for a directory that cannot be listed. -/
def directorySignature (a : PlannedAction) : UInt64 :=
  let path :=
    normalizedEvidencePath workspace w ((argString a.args "path").getD (ascii ".")) 2048
  match w.entries path with
  | none => 0
  | some entries =>
    let contents :=
      entries.foldl (fun sum (name, isDir) =>
        sum + (hash64 name ^^^ (if isDir then 0x9e3779b185ebca87 else 0))) (0 : UInt64)
    hash64 path ^^^ (contents ^^^ (entries.length.toUInt64 * 0x517cc1b727220a95))

def isSearch (tool : Text) : Bool :=
  tool = ascii "glob" || tool = ascii "grep" || tool = ascii "file_read" || tool = ascii "list_dir"

def isVersioned (tool : Text) : Bool :=
  tool = ascii "file_read" || tool = ascii "list_dir"

def searchSignature (a : PlannedAction) : UInt64 :=
  if a.tool = ascii "file_read" then fileReadSignature workspace w a
  else if a.tool = ascii "list_dir" then directorySignature workspace w a
  else semanticActionSignature number a

structure Searches where
  searchSeen : List UInt64 := []
  versionedSeen : List UInt64 := []

def Searches.of (s : Searches) (tool : Text) : List UInt64 :=
  if isVersioned tool then s.versionedSeen else s.searchSeen

def Searches.repeated (s : Searches) (tool : Text) (signature : UInt64) : Bool :=
  signature ≠ 0 && signature ∈ s.of tool

def pushSeen (seen : List UInt64) (signature : UInt64) : List UInt64 :=
  (if seen.length = 512 then seen.drop 1 else seen) ++ [signature]

def Searches.record (s : Searches) (tool : Text) (signature : UInt64) : Searches :=
  if isVersioned tool then { s with versionedSeen := pushSeen s.versionedSeen signature }
  else { s with searchSeen := pushSeen s.searchSeen signature }

/-! ### Commands that only look -/

def isBlank (byte : UInt8) : Bool :=
  byte = 32 || byte = 9

def gitActionReadOnly : Option Text → Bool
  | none => true
  | some args =>
    [ascii "status", ascii "status --short", ascii "status --porcelain", ascii "log --oneline",
      ascii "log --oneline -3", ascii "rev-parse HEAD", ascii "ls-files",
      ascii "version"].contains (args.dropWhile isBlank)

def readOnlyCommands : List Text :=
  [ascii "git", ascii "ls", ascii "dir", ascii "cat", ascii "type", ascii "head", ascii "tail",
    ascii "pwd", ascii "echo", ascii "where", ascii "which", ascii "wc", ascii "findstr",
    ascii "stat", ascii "du", ascii "df", ascii "file", ascii "whoami", ascii "printenv",
    ascii "uname", ascii "systeminfo", ascii "ver"]

/-- `shell_segment_read_only`: the first listed command the segment starts with decides. -/
def shellSegmentReadOnly (segment : Text) : Bool :=
  let s := segment.dropWhile isBlank
  if s = [] then true
  else
    match readOnlyCommands.find? fun p =>
        p.isPrefixOf s && ((s.drop p.length).head?.all isBlank) with
    | none => false
    | some p =>
      if p = ascii "git" then gitActionReadOnly (some ((s.drop p.length).dropWhile isBlank))
      else s.length = p.length

def shellCommandReadOnly : Option Text → Bool
  | none => false
  | some cmd =>
    if 4096 ≤ cmd.length then false
    else if cmd.any fun byte => (ascii "><|`$;\n\r").contains byte then false
    else (cmd.splitOn 38).all shellSegmentReadOnly

/-- `probe_only` of `h_act`: a command that cannot change the searched files. -/
def probeOnly (a : PlannedAction) : Bool :=
  if a.tool = ascii "shell" then
    shellCommandReadOnly (argString a.args "command") && (outputItems a.args).isEmpty
  else if a.tool = ascii "git" then
    gitActionReadOnly (argString a.args "args") && (outputItems a.args).isEmpty
  else false

end CognitiveOs.Cognition
