import CognitiveOs.Infra.Cjson
import CognitiveOs.Memory.Gate.Model
import CognitiveOs.Os.Http.Model

/-!
# Records as Markdown

`mem_record_to_md` and `mem_record_from_md` of `memory/record.c`. Texts live in arrays of fixed
sizes; doubles are rationals.
-/

namespace CognitiveOs.Memory.Records

open Infra Gate

/-- A text in an array of `size` bytes, terminator included. -/
@[ext] structure Field (size : Nat) where
  text : Text
  fits : text.length < size
  deriving DecidableEq

namespace Field

instance size32 : NeZero 32 := inferInstance
instance size40 : NeZero 40 := inferInstance
instance size128 : NeZero 128 := inferInstance
instance size160 : NeZero 160 := inferInstance
instance size256 : NeZero 256 := inferInstance

variable {size : Nat} [NeZero size]

/-- `snprintf(dst, sizeof dst, "%s", s)`. -/
def copy (s : Text) : Field size where
  text := snprintf size s
  fits := by
    have room := NeZero.pos size
    unfold snprintf
    rw [List.length_take]
    omega

theorem copy_text (f : Field size) : copy f.text = f := by
  ext1
  exact List.take_of_length_le (Nat.le_sub_one_of_lt f.fits)

end Field

structure MemRecord where
  id : Field 40
  type : MemType
  title : Field 128
  scope : Field 256
  status : Status
  importance : ℚ
  confidence : ℚ
  utility : ℚ
  valence : ℚ
  arousal : ℚ
  salience : ℚ
  source : Field 32
  originId : Field 40
  outcome : Outcome
  evidence : Field 160
  version : Int32
  createdMs : Int64
  updatedMs : Int64
  lastAccessMs : Int64
  accessCount : UInt32
  content : Text
  deriving DecidableEq

/-! ### Names -/

def typeName : MemType → Text
  | .semantic => ascii "semantic"
  | .episodic => ascii "episodic"
  | .procedural => ascii "procedural"
  | .preference => ascii "preference"
  | .project => ascii "project"
  | .entity => ascii "entity"

def typeFrom (s : Text) : MemType :=
  if s = ascii "episodic" then .episodic
  else if s = ascii "procedural" then .procedural
  else if s = ascii "preference" then .preference
  else if s = ascii "project" then .project
  else if s = ascii "entity" then .entity
  else .semantic

def statusName : Status → Text
  | .provisional => ascii "provisional"
  | .trusted => ascii "trusted"
  | .verified => ascii "verified"
  | .deprecated => ascii "deprecated"
  | .contradicted => ascii "contradicted"
  | .archived => ascii "archived"

def statusFrom (s : Text) : Status :=
  if s = ascii "trusted" then .trusted
  else if s = ascii "verified" then .verified
  else if s = ascii "deprecated" then .deprecated
  else if s = ascii "contradicted" then .contradicted
  else if s = ascii "archived" then .archived
  else .provisional

def outcomeName : Outcome → Text
  | .success => ascii "SUCCESS"
  | .failure => ascii "FAILURE"
  | .partialSuccess => ascii "PARTIAL_SUCCESS"
  | .unknown => ascii "UNKNOWN"

def outcomeFrom (s : Text) : Outcome :=
  if s = ascii "SUCCESS" then .success
  else if s = ascii "FAILURE" then .failure
  else if s = ascii "PARTIAL_SUCCESS" then .partialSuccess
  else .unknown

/-! ### Numbers -/

/-- `%d` and `%lld`. -/
def signedDecimal (i : Int) : Text :=
  if i < 0 then 45 :: decimal i.natAbs else decimal i.natAbs

def roundEven (x : ℚ) : Nat :=
  let whole := x.floor.toNat
  if 2 * (x - whole) < 1 ∨ 2 * (x - whole) = 1 ∧ whole % 2 = 0 then whole else whole + 1

/-- `%.3f`. -/
def fixed3 (x : ℚ) : Text :=
  let thousandths := roundEven (1000 * |x|)
  let digit (n : Nat) : UInt8 := 48 + (n % 10).toUInt8
  (if x < 0 then [45] else []) ++ decimal (thousandths / 1000) ++
    [46, digit (thousandths / 100), digit (thousandths / 10), digit thousandths]

/-- `atof` on a decimal number; a text without one is zero. -/
def atof (s : Text) : ℚ :=
  ((Cjson.strtod (s.dropWhile isSpace)).map Prod.fst).getD 0

def atoll (s : Text) : Int64 :=
  Int64.ofInt (Http.strtoll s)

/-- `atoi` is `(int) strtol(s, NULL, 10)`. -/
def atoi (s : Text) : Int32 :=
  Int32.ofInt (Http.strtoll s)

/-! ### Writing -/

def entry (key : String) (value : Text) : Text :=
  ascii key ++ 58 :: 32 :: value

def nested (key : String) (value : Text) : Text :=
  32 :: 32 :: entry key value

def quoted (s : Text) : Text :=
  34 :: (s ++ [34])

def frontLines (r : MemRecord) : List Text :=
  [entry "id" r.id.text, entry "type" (typeName r.type)] ++
  (if r.title.text ≠ [] then [entry "title" (quoted r.title.text)] else []) ++
  [entry "scope" (if r.scope.text ≠ [] then r.scope.text else ascii "global"), entry "status" (statusName r.status),
    entry "importance" (fixed3 r.importance), entry "confidence" (fixed3 r.confidence),
    entry "utility" (fixed3 r.utility), ascii "emotion:", nested "valence" (fixed3 r.valence),
    nested "arousal" (fixed3 r.arousal), nested "salience" (fixed3 r.salience), ascii "source:",
    nested "type" (if r.source.text ≠ [] then r.source.text else ascii "experience")] ++
  (if r.originId.text ≠ [] then [nested "derived_from" r.originId.text] else []) ++
  [entry "outcome" (outcomeName r.outcome)] ++
  (if r.evidence.text ≠ [] then [entry "evidence" (quoted r.evidence.text)] else []) ++
  [entry "version" (signedDecimal r.version.toInt), entry "created" (signedDecimal r.createdMs.toInt),
    entry "updated" (signedDecimal r.updatedMs.toInt), entry "access_count" (decimal r.accessCount.toNat),
    entry "last_access" (signedDecimal r.lastAccessMs.toInt)]

def rule : Text := ascii "---"

def unlines (lines : List Text) : Text :=
  lines.flatMap fun line => line ++ [10]

def body (r : MemRecord) : Text :=
  if r.content ≠ [] ∧ r.content.getLast? ≠ some 10 then r.content ++ [10] else r.content

def toMd (r : MemRecord) : Option Text :=
  if r.id.text = [] then none
  else some (unlines ([rule] ++ frontLines r ++ [rule]) ++ body r)

/-! ### Reading -/

def copyQuoted {size : Nat} [NeZero size] (value : Text) : Field size :=
  if 2 ≤ value.length ∧ value.head? = some 34 ∧ value.getLast? = some 34 then Field.copy value.tail.dropLast
  else Field.copy value

def feedField (r : MemRecord) (key value : Text) (inEmotion inSource : Bool) : MemRecord :=
  if inEmotion then
    if key = ascii "valence" then { r with valence := atof value }
    else if key = ascii "arousal" then { r with arousal := atof value }
    else if key = ascii "salience" then { r with salience := atof value }
    else r
  else if inSource then
    if key = ascii "type" then { r with source := Field.copy value }
    else if key = ascii "derived_from" then { r with originId := Field.copy value }
    else r
  else if key = ascii "id" then { r with id := Field.copy value }
  else if key = ascii "type" then { r with type := typeFrom value }
  else if key = ascii "title" then { r with title := copyQuoted value }
  else if key = ascii "scope" then { r with scope := Field.copy value }
  else if key = ascii "status" then { r with status := statusFrom value }
  else if key = ascii "importance" then { r with importance := atof value }
  else if key = ascii "confidence" then { r with confidence := atof value }
  else if key = ascii "utility" then { r with utility := atof value }
  else if key = ascii "outcome" then { r with outcome := outcomeFrom value }
  else if key = ascii "evidence" then { r with evidence := copyQuoted value }
  else if key = ascii "version" then { r with version := atoi value }
  else if key = ascii "created" then { r with createdMs := atoll value }
  else if key = ascii "updated" then { r with updatedMs := atoll value }
  else if key = ascii "access_count" then { r with accessCount := (atoi value).toUInt32 }
  else if key = ascii "last_access" then { r with lastAccessMs := atoll value }
  else r

/-- The record as far as it is read, and the block the next indented line belongs to. -/
structure Reading where
  record : MemRecord
  inEmotion : Bool
  inSource : Bool

def isBlank (b : UInt8) : Bool :=
  b = 32 || b = 9

def feedLine (st : Reading) (whole : Text) : Reading :=
  let line := snprintf 512 whole
  match line.dropWhile (· ≠ 58) with
  | [] => st
  | _ :: after =>
    let key := line.takeWhile (· ≠ 58)
    let value := after.dropWhile (· = 32)
    if (line.head?.map isBlank).getD false then
      { st with record := feedField st.record (key.dropWhile isBlank) value st.inEmotion st.inSource }
    else
      let inEmotion := decide (key = ascii "emotion")
      let inSource := decide (key = ascii "source")
      { record := if inEmotion || inSource then st.record else feedField st.record key value false false
        inEmotion := inEmotion
        inSource := inSource }

/-- The lines up to the second rule; the text after it is the content. `line` is what is read of
the current line, the last byte first. -/
def readLines (st : Reading) (line : Text) : Text → Option (MemRecord × Text)
  | [] => none
  | b :: rest =>
    if b = 10 then
      if line.reverse = rule then some (st.record, rest) else readLines (feedLine st line.reverse) [] rest
    else readLines st (b :: line) rest

def blankRecord : MemRecord where
  id := Field.copy []
  type := .semantic
  title := Field.copy []
  scope := Field.copy []
  status := .provisional
  importance := 0
  confidence := 0
  utility := 0
  valence := 0
  arousal := 0
  salience := 0
  source := Field.copy []
  originId := Field.copy []
  outcome := .unknown
  evidence := Field.copy []
  version := 1
  createdMs := 0
  updatedMs := 0
  lastAccessMs := 0
  accessCount := 0
  content := []

def fromMd (md : Text) : Option MemRecord :=
  if (rule ++ [10]).isPrefixOf md then
    (readLines { record := blankRecord, inEmotion := false, inSource := false } [] (md.drop 4)).bind fun (r, content) =>
      if r.id.text = [] then none else some { r with content := content }
  else none

end CognitiveOs.Memory.Records
