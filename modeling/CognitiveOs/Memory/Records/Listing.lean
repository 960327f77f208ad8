import CognitiveOs.Infra.Composed
import CognitiveOs.Memory.Records.Markdown

/-!
# Records as JSON

`mem_records_json` of `memory/record.c`: the fields of every record, put into a format.
-/

namespace CognitiveOs.Memory.Records

open Infra Gate
open Infra.Cjson

/-! ### What is put in -/

theorem numeral_signed (i : Int) : Numeral (signedDecimal i) := by
  unfold signedDecimal
  split
  · refine ⟨?_, ⟨45, _, rfl, .inl rfl⟩, _, strtod_negative _⟩
    intro b member
    rcases List.mem_cons.mp member with rfl | member
    · rfl
    · exact decimal_numberBytes _ b member
  · exact numeral_decimal _

theorem numeral_fixed3 (x : ℚ) : Numeral (fixed3 x) := by
  have numeral := @numeral_point (x < 0) (roundEven (1000 * |x|) / 1000) _ fun b (member : b ∈
    [48 + (roundEven (1000 * |x|) / 100 % 10).toUInt8, 48 + (roundEven (1000 * |x|) / 10 % 10).toUInt8,
      48 + (roundEven (1000 * |x|) % 10).toUInt8]) => by
    simp only [List.mem_cons, List.not_mem_nil, or_false] at member
    rcases member with rfl | rfl | rfl <;> exact isDigit_place _
  simpa [fixed3] using numeral

/-! ### The listing -/

def recordCells (r : MemRecord) : Composed where
  cells :=
    [(ascii "id", .bare (cstr r.id.text)), (ascii "type", .bare (typeName r.type)),
      (ascii "scope", .bare (cstr r.scope.text)), (ascii "status", .bare (statusName r.status)),
      numberCell (ascii "importance") (fixed3 r.importance), numberCell (ascii "confidence") (fixed3 r.confidence),
      numberCell (ascii "utility") (fixed3 r.utility), (ascii "outcome", .bare (outcomeName r.outcome)),
      numberCell (ascii "version") (signedDecimal r.version.toInt)]
  last := numberCell (ascii "access_count") (decimal r.accessCount.toNat)

def memRecordsJson (records : List MemRecord) : Text :=
  arrayText (records.map recordCells)

def Decodes (fields : List (Text × Text)) (json : Json) : Prop :=
  ∀ field ∈ fields, json.get? field.1 = some (.string field.2)

def recordFields (r : MemRecord) : List (Text × Text) :=
  [(ascii "id", cstr r.id.text), (ascii "type", typeName r.type), (ascii "scope", cstr r.scope.text),
    (ascii "status", statusName r.status), (ascii "outcome", outcomeName r.outcome)]

/-- The listing is an array with one object for each record, and the object has the texts of the record. -/
def ListingDecoded (records : List MemRecord) : Prop :=
  ∃ items, parse (memRecordsJson records) = some (.array items) ∧
    List.Forall₂ (fun r item => Decodes (recordFields r) item) records items

theorem typeName_bare (type : MemType) : 0 ∉ typeName type ∧ Bare (typeName type) := by
  cases type <;> exact bare_of_plain (by decide)

theorem statusName_bare (status : Status) : 0 ∉ statusName status ∧ Bare (statusName status) := by
  cases status <;> exact bare_of_plain (by decide)

theorem outcomeName_bare (outcome : Outcome) : 0 ∉ outcomeName outcome ∧ Bare (outcomeName outcome) := by
  cases outcome <;> exact bare_of_plain (by decide)

theorem recordCells_sound (r : MemRecord) : (recordCells r).Sound 0 where
  proper := by
    simp only [recordCells, List.cons_append, List.nil_append, List.forall_mem_cons]
    refine ⟨?_, ?_, ?_, ?_, ?_, ?_, ?_, ?_, ?_, ?_, fun cell member => absurd member List.not_mem_nil⟩
    · exact proper_bare (by decide) (not_mem_cstr _)
    · exact proper_bare (by decide) (typeName_bare r.type).1
    · exact proper_bare (by decide) (not_mem_cstr _)
    · exact proper_bare (by decide) (statusName_bare r.status).1
    · exact proper_number (by decide) (numeral_fixed3 _)
    · exact proper_number (by decide) (numeral_fixed3 _)
    · exact proper_number (by decide) (numeral_fixed3 _)
    · exact proper_bare (by decide) (outcomeName_bare r.outcome).1
    · exact proper_number (by decide) (numeral_signed _)
    · exact proper_number (by decide) (numeral_decimal _)
  distinct := by
    show [ascii "id", ascii "type", ascii "scope", ascii "status", ascii "importance", ascii "confidence",
      ascii "utility", ascii "outcome", ascii "version", ascii "access_count"].Nodup
    decide
  last := trivial

theorem recordCells_bare_iff (r : MemRecord) :
    (∀ cell ∈ (recordCells r).cells, cell.IsBare) ↔ Bare (cstr r.id.text) ∧ Bare (cstr r.scope.text) := by
  have type := (typeName_bare r.type).2
  have status := (statusName_bare r.status).2
  have outcome := (outcomeName_bare r.outcome).2
  simp [recordCells, Cell.IsBare, numberCell, type, status, outcome]

theorem decodes_recordCells (r : MemRecord) : Decodes (recordFields r) (recordCells r).value := by
  have value {cell : Cell} := @Composed.Sound.get?_value _ _ (recordCells_sound r) cell
  simp only [Decodes, recordFields, List.forall_mem_cons]
  refine ⟨@value (ascii "id", .bare (cstr r.id.text)) (by simp [recordCells]),
    @value (ascii "type", .bare (typeName r.type)) (by simp [recordCells]),
    @value (ascii "scope", .bare (cstr r.scope.text)) (by simp [recordCells]),
    @value (ascii "status", .bare (statusName r.status)) (by simp [recordCells]),
    @value (ascii "outcome", .bare (outcomeName r.outcome)) (by simp [recordCells]),
    fun field member => absurd member List.not_mem_nil⟩

theorem listing_decoded_iff (records : List MemRecord) :
    ListingDecoded records ↔ ∀ r ∈ records, Bare (cstr r.id.text) ∧ Bare (cstr r.scope.text) := by
  refine (decoded_iff recordCells_sound (by decide) ?_ fun r _ => decodes_recordCells r).trans ?_
  · intro r _ item decoded
    simp only [Decodes, recordFields, List.forall_mem_cons] at decoded
    simp [Composed.Kept, recordCells, numberCell, decoded]
  · exact forall₂_congr fun r _ => recordCells_bare_iff r

end CognitiveOs.Memory.Records
