import CognitiveOs.Infra.Json
import CognitiveOs.Infra.Scan
import CognitiveOs.Infra.Utf8
import CognitiveOs.Os.World

/-!
# Evidence paths

How `cognition/reasoning.c` names a file: one absolute path for every spelling of it.
-/

namespace CognitiveOs.Cognition

open Infra Os

/-- A planned tool call: the text of its arguments and what `cJSON_Parse` makes of it. -/
structure PlannedAction where
  tool : Text
  argsJson : Text := []
  args : Option Json

def argString (args : Option Json) (key : String) : Option Text :=
  (args.bind fun a => a.get? (ascii key)).bind Json.string?

def lastIndex (s : Text) (byte : UInt8) : Option Nat :=
  (s.reverse.findIdx? (· = byte)).map fun i => s.length - 1 - i

def nearestAncestor (w : World) : Nat → Text → Text × Nat
  | 0, path => (path, path.length)
  | fuel + 1, path =>
    if w.fsExists path then (path, path.length)
    else
      match lastIndex path slash with
      | none => (path, path.length)
      | some i =>
        if i = 0 ∨ (i = 2 ∧ path[1]? = some 58) then (path.take (i + 1), i + 1)
        else nearestAncestor w fuel (path.take i)

def stripSlashes : Text → Text
  | [] => []
  | first :: rest => first :: (rest.reverse.dropWhile (· = slash)).reverse

def normalizedEvidencePath (workspace : Text) (w : World) (path : Text) (cap : Nat) : Text :=
  let root := w.fsAbsolutePath (if workspace = [] then ascii "." else workspace)
  let full := pathResolve 2048 (root.getD workspace) (if path = [] then ascii "." else path)
  let (ancestor, rest) := nearestAncestor w full.length full
  let out :=
    if w.fsExists ancestor then
      (w.fsAbsolutePath ancestor).getD ancestor ++ full.drop rest
    else (w.fsAbsolutePath full).getD full
  stripSlashes ((snprintf cap out).map fun byte => if byte = backslash then slash else byte)

def isExploratoryTool (name : Text) : Bool :=
  name = ascii "grep" || name = ascii "glob" || name = ascii "list_dir"

def isFileMutation (tool : Text) : Bool :=
  tool = ascii "file_write" || tool = ascii "file_edit"

end CognitiveOs.Cognition

/-!
## The step registry and the artifacts

The steps of a run with the file versions they saw, the receipts of written files, the
declared outputs of commands, and what accepts an artifact.
-/

namespace CognitiveOs.Cognition

open Infra Os

/-- `struct run_step`, without the texts for the display. -/
structure RunStep where
  id : Nat
  tool : Text
  args : Option Json
  /-- 1 for a success, 0 for a failure, -1 for a refusal. -/
  ok : Int
  evidencePath : Option Text := none
  evidenceVersion : UInt64 := 0

structure FileReceipt where
  path : Text
  written : UInt64
  verified : UInt64 := 0

structure Registry where
  steps : List RunStep := []
  sequence : Nat := 0
  receipts : List FileReceipt := []

variable (workspace : Text) (w : World)

/-- A write opens the receipt of its file again; a read of the written version closes it. -/
def noteReceipt (receipts : List FileReceipt) (tool path : Text) (version : UInt64) :
    List FileReceipt :=
  match receipts.findIdx? fun r => r.path = path with
  | some i =>
    receipts.modify i fun r =>
      if isFileMutation tool then { r with written := version, verified := 0 }
      else if r.written = version then { r with verified := version }
      else r
  | none => if isFileMutation tool then receipts ++ [{ path, written := version }] else receipts

def stepEvidence (tool : Text) (args : Option Json) (ok : Int) : Option (Text × UInt64) :=
  if ok = 1 ∧ (isFileMutation tool ∨ tool = ascii "file_read") then
    (argString args "path").map fun path =>
      let canonical := normalizedEvidencePath workspace w path 2048
      (canonical, w.fsFileVersion canonical)
  else none

def newStep (id : Nat) (tool : Text) (args : Option Json) (ok : Int) : RunStep :=
  let evidence := stepEvidence workspace w tool args ok
  { id, tool := utf8HeadCopy 48 tool, args, ok
    evidencePath := evidence.map Prod.fst
    evidenceVersion := (evidence.map Prod.snd).getD 0 }

/-- `run_step_add`; the registry keeps the last 256 steps. -/
def runStepAdd (g : Registry) (tool : Text) (args : Option Json) (ok : Int) : Registry :=
  let kept := if 256 ≤ g.steps.length then g.steps.drop (g.steps.length - 255) else g.steps
  { steps := kept ++ [newStep workspace w (g.sequence + 1) tool args ok]
    sequence := g.sequence + 1
    receipts :=
      match stepEvidence workspace w tool args ok with
      | none => g.receipts
      | some (canonical, version) => noteReceipt g.receipts tool canonical version }

/-- `tool_file_image_mime`. -/
def imageMime (head : Text) : Option Text :=
  if 24 ≤ head.length && head.take 8 = [0x89, 80, 78, 71, 13, 10, 26, 10] &&
      (head.drop 12).take 4 = ascii "IHDR" then some (ascii "image/png")
  else if 4 ≤ head.length && head.take 3 = [255, 216, 255] then some (ascii "image/jpeg")
  else if 12 ≤ head.length && head.take 4 = ascii "RIFF" && (head.drop 8).take 4 = ascii "WEBP" then
    some (ascii "image/webp")
  else none

def imageVersion (path : Text) (report : Option Json) : Option UInt64 :=
  let preview := report.bind fun o => o.get? (ascii "image_preview")
  let actual := (w.fsReadFileSlice path 0 32).bind fun slice => imageMime slice.1
  if argString report "kind" = some (ascii "image") ∧ (argString preview "id").isSome ∧
      actual.isSome ∧ argString report "mime" = actual then
    (argString report "file_version").map fun version =>
      (((scanUnsigned version).map Prod.fst).getD 0).toUInt64
  else none

/-- `remember_tool_image` on the last step; `report` is the JSON text in its output. -/
def rememberToolImage (g : Registry) (report : Option Json) : Registry :=
  { g with steps := g.steps.modify (g.steps.length - 1) fun step =>
      if step.ok = 1 ∧ step.tool = ascii "file_read" then
        match step.evidencePath.bind fun path => imageVersion w path report with
        | some version => { step with evidenceVersion := version }
        | none => step
      else step }

def outputItems (args : Option Json) : List Json :=
  ((args.bind fun a => a.get? (ascii "outputs")).map Json.children).getD []

def captureActionOutputVersions (args : Option Json) : List UInt64 :=
  ((outputItems args).take 128).map fun item =>
    match item.string? with
    | some path => w.fsFileVersion (normalizedEvidencePath workspace w path 2048)
    | none => 0

structure ArtifactSeen where
  path : Text
  version : UInt64
  producerStep : Nat

def sizeReadable (path : Text) : Bool :=
  let size := w.fsFileSize path
  if 0 < size ∧ size ≤ 1024 * 1024 then
    (w.fsReadFileSlice path 0 size.toNat).any fun (bytes, more) => !more && bytes.length = size.toNat
  else true

def recordArtifact (seen : List ArtifactSeen) (entry : ArtifactSeen) : List ArtifactSeen :=
  match seen.findIdx? fun a => a.path = entry.path with
  | some i => seen.set i entry
  | none => (if 128 ≤ seen.length then seen.drop (seen.length - 127) else seen) ++ [entry]

/-- One declared output of `declared_artifact_progress`, with its version before. -/
def declaredOutput (step : Nat) (seen : List ArtifactSeen) (output : Json × UInt64) :
    List ArtifactSeen :=
  match output.1.string? with
  | none => seen
  | some item =>
    let path := normalizedEvidencePath workspace w item 2048
    let version := w.fsFileVersion path
    if w.fsIsDir path || version = 0 || output.2 = version then seen
    else if (seen.find? fun a => a.path = path).any fun a => a.version = version then seen
    else if sizeReadable w path then recordArtifact seen { path, version, producerStep := step }
    else seen

/-- `declared_artifact_progress`, as far as it remembers the files. -/
def declaredArtifactProgress (step : Nat) (seen : List ArtifactSeen) (args : Option Json)
    (before : List UInt64) : List ArtifactSeen :=
  ((outputItems args).zip before).foldl (declaredOutput workspace w step) seen

/-! ### Accepting an artifact -/

/-- `artifact_baseline_of`: the version the file had when it was first asked for. -/
def artifactBaselineOf (baseline : List (Text × UInt64)) (path : Text) :
    UInt64 × List (Text × UInt64) :=
  match baseline.find? fun b => b.1 = path with
  | some b => (b.2, baseline)
  | none =>
    if 64 ≤ baseline.length then (0, baseline)
    else (w.fsFileVersion path, baseline ++ [(path, w.fsFileVersion path)])

def declaredOutputCurrent (seen : List ArtifactSeen) (path : Text) (current : UInt64)
    (readStep : Nat) : Bool :=
  seen.any fun a =>
    a.path = path && a.version ≠ 0 && a.version = current && a.producerStep < readStep

def lastStep (steps : List RunStep) (kind : Text → Bool) (target : Text) : Option (RunStep × Nat) :=
  steps.zipIdx.reverse.find? fun (step, _) =>
    step.ok = 1 && kind step.tool && step.evidencePath = some target

def stillThere (target : Text) (version : UInt64) : Bool :=
  version ≠ 0 && version = w.fsFileVersion target && !w.fsIsDir target && 0 < w.fsFileSize target

/-- `run_has_verified_artifact`, with the baselines after it. -/
def runHasVerifiedArtifact (g : Registry) (seen : List ArtifactSeen)
    (baseline : List (Text × UInt64)) (target : Text) : Bool × List (Text × UInt64) :=
  if g.receipts.any fun r => r.path = target && stillThere w target r.verified then (true, baseline)
  else
    match lastStep g.steps (fun tool => tool = ascii "file_read") target with
    | none => (false, baseline)
    | some (read, i) =>
      if !stillThere w target read.evidenceVersion then (false, baseline)
      else
        match lastStep g.steps isFileMutation target with
        | some (write, j) =>
          if write.evidenceVersion = read.evidenceVersion then (j < i, baseline)
          else produced read
        | none => produced read
where
  /-- A command may have produced what was read. -/
  produced (read : RunStep) : Bool × List (Text × UInt64) :=
    let (base, baseline) := artifactBaselineOf w baseline target
    (base ≠ read.evidenceVersion &&
      declaredOutputCurrent seen target read.evidenceVersion read.id, baseline)

end CognitiveOs.Cognition
