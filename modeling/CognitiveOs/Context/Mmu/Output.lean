import CognitiveOs.Context.Mmu.Emission
import CognitiveOs.Memory.Records.Listing

/-!
# The answer of a recall

The text that `ctx_mmu_recall` assembles: the fields of each emitted page are put into a format, and
only its text is printed as a JSON string.
-/

namespace CognitiveOs.Context

open Foundation Infra Memory.Gate Memory.Records
open Infra.Cjson

/-! ### The text -/

def levelName : Level → Text
  | .l0 => ascii "L0"
  | .l1 => ascii "L1"
  | .l2 => ascii "L2"

def residencyName : Residency → Text
  | .cold => ascii "COLD"
  | .warm => ascii "WARM"
  | .hot => ascii "HOT"

/-- `%.4f`. -/
def fixed4 (x : ℚ) : Text :=
  let places := roundEven (10000 * |x|)
  let digit (n : Nat) : UInt8 := 48 + (n % 10).toUInt8
  (if x < 0 then [45] else []) ++ decimal (places / 10000) ++
    [46, digit (places / 1000), digit (places / 100), digit (places / 10), digit places]

def factorCells (fs : Factors) : Composed where
  cells :=
    [numberCell (ascii "relevance") (fixed3 fs.relevance), numberCell (ascii "importance") (fixed3 fs.importance),
      numberCell (ascii "confidence") (fixed3 fs.confidence), numberCell (ascii "utility") (fixed3 fs.utility),
      numberCell (ascii "recency") (fixed3 fs.recency), numberCell (ascii "salience") (fixed3 fs.salience)]
  last := numberCell (ascii "scope") (fixed3 fs.scope)

def itemCells (item : Item) : Composed where
  cells :=
    [(ascii "id", .bare (cstr item.id)), (ascii "title", .bare (cstr item.title)),
      (ascii "type", .bare (typeName item.type)), (ascii "scope", .bare (cstr item.scope)),
      (ascii "status", .bare (statusName item.status)), (ascii "level", .bare (levelName item.level)),
      (ascii "residency", .bare (residencyName item.residency)), numberCell (ascii "score") (fixed4 item.score),
      (ascii "factors", .shown (factorCells item.factors).text (factorCells item.factors).value),
      numberCell (ascii "tokens") (signedDecimal item.tokens.toInt32.toInt)]
  last := (ascii "text", .shown (Json.printString (cstr item.text)) (.string (cstr item.text)))

/-- The text that `ctx_mmu_recall` returns. -/
def recallJson (items : List Item) : Text :=
  arrayText (items.map itemCells)

/-! ### What is read back -/

def recalledFields (r : MemRecord) (item : Item) : List (Text × Text) :=
  [(ascii "id", cstr r.id.text), (ascii "title", cstr r.title.text), (ascii "type", typeName r.type),
    (ascii "scope", cstr r.scope.text), (ascii "status", statusName r.status), (ascii "level", levelName item.level),
    (ascii "residency", residencyName item.residency), (ascii "text", cstr item.text)]

/-- The answer is an array with one object for each emitted record, and the object has the texts of
the record. -/
def RecallDecoded (f : Floats) (call : Call) (st : State) : Prop :=
  ∃ objects, parse (recallJson (mmuRecall f call st).2) = some (.array objects) ∧
    List.Forall₂ (fun item object => ∃ r, st.store.find item.id = some r ∧ Decodes (recalledFields r item) object)
      (mmuRecall f call st).2 objects

theorem levelName_bare (level : Level) : 0 ∉ levelName level ∧ Bare (levelName level) := by
  cases level <;> exact bare_of_plain (by decide)

theorem residencyName_bare (residency : Residency) : 0 ∉ residencyName residency ∧ Bare (residencyName residency) := by
  cases residency <;> exact bare_of_plain (by decide)

theorem numeral_fixed4 (x : ℚ) : Numeral (fixed4 x) := by
  have numeral := @numeral_point (x < 0) (roundEven (10000 * |x|) / 10000) _ fun b (member : b ∈
    [48 + (roundEven (10000 * |x|) / 1000 % 10).toUInt8, 48 + (roundEven (10000 * |x|) / 100 % 10).toUInt8,
      48 + (roundEven (10000 * |x|) / 10 % 10).toUInt8, 48 + (roundEven (10000 * |x|) % 10).toUInt8]) => by
    simp only [List.mem_cons, List.not_mem_nil, or_false] at member
    rcases member with rfl | rfl | rfl | rfl <;> exact isDigit_place _
  simpa [fixed4] using numeral

theorem factorCells_sound (fs : Factors) : (factorCells fs).Sound 0 where
  proper := by
    simp only [factorCells, List.cons_append, List.nil_append, List.forall_mem_cons]
    refine ⟨?_, ?_, ?_, ?_, ?_, ?_, ?_, fun cell member => absurd member List.not_mem_nil⟩ <;>
      exact proper_number (by decide) (numeral_fixed3 _)
  distinct := by
    show [ascii "relevance", ascii "importance", ascii "confidence", ascii "utility", ascii "recency",
      ascii "salience", ascii "scope"].Nodup
    decide
  last := trivial

theorem factorCells_shows (fs : Factors) : Shows 1 (factorCells fs).text (factorCells fs).value := by
  apply (factorCells_sound fs).shows
  simp [factorCells, numberCell, Cell.IsBare]

theorem itemCells_sound (item : Item) : (itemCells item).Sound 1 where
  proper := by
    simp only [itemCells, List.cons_append, List.nil_append, List.forall_mem_cons]
    refine ⟨?_, ?_, ?_, ?_, ?_, ?_, ?_, ?_, ?_, ?_, ?_, fun cell member => absurd member List.not_mem_nil⟩
    · exact Proper.mono (proper_bare (by decide) (not_mem_cstr _)) (Nat.zero_le 1)
    · exact Proper.mono (proper_bare (by decide) (not_mem_cstr _)) (Nat.zero_le 1)
    · exact Proper.mono (proper_bare (by decide) (typeName_bare item.type).1) (Nat.zero_le 1)
    · exact Proper.mono (proper_bare (by decide) (not_mem_cstr _)) (Nat.zero_le 1)
    · exact Proper.mono (proper_bare (by decide) (statusName_bare item.status).1) (Nat.zero_le 1)
    · exact Proper.mono (proper_bare (by decide) (levelName_bare item.level).1) (Nat.zero_le 1)
    · exact Proper.mono (proper_bare (by decide) (residencyName_bare item.residency).1) (Nat.zero_le 1)
    · exact Proper.mono (proper_number (by decide) (numeral_fixed4 _)) (Nat.zero_le 1)
    · exact proper_shown (by decide) (factorCells_shows item.factors)
    · exact Proper.mono (proper_number (by decide) (numeral_signed _)) (Nat.zero_le 1)
    · exact proper_shown (by decide) ((shows_printString (not_mem_cstr _)).mono (Nat.zero_le 1))
  distinct := by
    show [ascii "id", ascii "title", ascii "type", ascii "scope", ascii "status", ascii "level", ascii "residency",
      ascii "score", ascii "factors", ascii "tokens", ascii "text"].Nodup
    decide
  last := trivial

theorem itemCells_bare_iff (item : Item) : (∀ cell ∈ (itemCells item).cells, cell.IsBare) ↔
    Bare (cstr item.id) ∧ Bare (cstr item.title) ∧ Bare (cstr item.scope) := by
  have type := (typeName_bare item.type).2
  have status := (statusName_bare item.status).2
  have level := (levelName_bare item.level).2
  have residency := (residencyName_bare item.residency).2
  simp [itemCells, Cell.IsBare, numberCell, type, status, level, residency]

/-! ### Runs -/

structure Item.Of (item : Item) (r : MemRecord) : Prop where
  id : item.id = r.id.text
  title : item.title = r.title.text
  type : item.type = r.type
  scope : item.scope = r.scope.text
  status : item.status = r.status

theorem emitted_of {f : Floats} {store : Records} {labels : List Label} {st : State}
    (run : (machine f).Run (start store) labels st) (call : Call) :
    ∀ item ∈ (mmuRecall f call st).2, ∃ r, st.store.find item.id = some r ∧ item.Of r := by
  intro item member
  obtain ⟨pg, r, found, _, mirrors, scope, _, _, _, title, type, status⟩ :=
    emitted_spec (table_of_any_run run) (fun _ _ => trivial) member
  refine ⟨r, found, ?_, ?_, ?_, ?_, ?_⟩
  · exact (Records.find_spec found).2.symm
  · rw [title, mirrors.title]
  · rw [type, mirrors.type]
  · rw [scope, mirrors.scope]
  · rw [status, mirrors.status]

theorem Item.Of.kept {item : Item} {r : MemRecord} (of : item.Of r) {object : Json}
    (decoded : Decodes (recalledFields r item) object) : (itemCells item).Kept object := by
  simp only [Decodes, recalledFields, List.forall_mem_cons] at decoded
  simp [Composed.Kept, itemCells, numberCell, of.id, of.title, of.type, of.scope, of.status, decoded]

theorem Item.Of.decoded {item : Item} {r : MemRecord} (of : item.Of r) :
    Decodes (recalledFields r item) (itemCells item).value := by
  have value {cell : Cell} := @Composed.Sound.get?_value _ _ (itemCells_sound item) cell
  simp only [Decodes, recalledFields, List.forall_mem_cons, ← of.id, ← of.title, ← of.type, ← of.scope, ← of.status]
  refine ⟨@value (ascii "id", .bare (cstr item.id)) (by simp [itemCells]),
    @value (ascii "title", .bare (cstr item.title)) (by simp [itemCells]),
    @value (ascii "type", .bare (typeName item.type)) (by simp [itemCells]),
    @value (ascii "scope", .bare (cstr item.scope)) (by simp [itemCells]),
    @value (ascii "status", .bare (statusName item.status)) (by simp [itemCells]),
    @value (ascii "level", .bare (levelName item.level)) (by simp [itemCells]),
    @value (ascii "residency", .bare (residencyName item.residency)) (by simp [itemCells]),
    @value (ascii "text", .shown (Json.printString (cstr item.text)) (.string (cstr item.text))) (by simp [itemCells]),
    fun field member => absurd member List.not_mem_nil⟩

theorem recall_decoded_iff {f : Floats} {store : Records} {labels : List Label} {st : State}
    (run : (machine f).Run (start store) labels st) (call : Call) :
    RecallDecoded f call st ↔ ∀ item ∈ (mmuRecall f call st).2, ∀ r, st.store.find item.id = some r →
      Bare (cstr r.id.text) ∧ Bare (cstr r.title.text) ∧ Bare (cstr r.scope.text) := by
  have each := emitted_of run call
  refine (decoded_iff itemCells_sound (by decide) ?_ ?_).trans (forall₂_congr fun item member => ?_)
  · rintro item member object ⟨r', found', decoded⟩
    obtain ⟨r, found, of⟩ := each item member
    rw [found] at found'
    cases found'
    exact of.kept decoded
  · intro item member
    obtain ⟨r, found, of⟩ := each item member
    exact ⟨r, found, of.decoded⟩
  · obtain ⟨r, found, of⟩ := each item member
    have bare_iff := itemCells_bare_iff item
    rw [of.title, of.scope] at bare_iff
    rw [bare_iff]
    constructor
    · intro bare r' found'
      rw [found] at found'
      cases found'
      rw [← of.id]
      exact bare
    · intro bare
      rw [of.id]
      exact bare r found

/-- After any run the answer of a recall is read back with the texts of the emitted records just when
their identifiers, titles and scopes have no quote or backslash, and the listing of the records just
when all identifiers and scopes have none. -/
theorem outputs_decoded_iff {f : Floats} {store : Records} {labels : List Label} {st : State}
    (run : (machine f).Run (start store) labels st) (call : Call) :
    (RecallDecoded f call st ↔ ∀ item ∈ (mmuRecall f call st).2, ∀ r, st.store.find item.id = some r →
      Bare (cstr r.id.text) ∧ Bare (cstr r.title.text) ∧ Bare (cstr r.scope.text)) ∧
      (ListingDecoded st.store.items ↔
        ∀ r ∈ st.store.items, Bare (cstr r.id.text) ∧ Bare (cstr r.scope.text)) :=
  ⟨recall_decoded_iff run call, listing_decoded_iff st.store.items⟩

/-! ### A title with quotes -/

def quotedLesson : Records where
  items := [{ (oneLesson "s").items.head (by decide) with title := Field.copy (ascii "say \"hi\"") }]
  distinct := List.nodup_singleton _

theorem quoted_title_spoils : ¬ RecallDecoded plainFloats (callFor "s") (start quotedLesson) := by
  have some_item : (mmuRecall plainFloats (callFor "s") (start quotedLesson)).2.length = 1 := by decide +kernel
  obtain ⟨item, only⟩ := List.length_eq_one_iff.mp some_item
  have member : item ∈ (mmuRecall plainFloats (callFor "s") (start quotedLesson)).2 := by
    rw [only]
    exact List.mem_singleton_self item
  have run : (machine plainFloats).Run (start quotedLesson) [] (start quotedLesson) := Machine.Run.start _
  obtain ⟨r, found, _⟩ := emitted_of run (callFor "s") item member
  intro decoded
  have bare := (recall_decoded_iff run (callFor "s")).mp decoded item member r found
  have here : r ∈ quotedLesson.items := (Records.find_spec found).1
  rw [List.mem_singleton.mp here] at bare
  exact absurd bare.2.1 (by decide)

/-- The answer and the listing after a recall of a lesson. -/
theorem outputs_of_lesson : (RecallDecoded plainFloats (callFor "s") (start (oneLesson "s")) ↔
    ∀ item ∈ (mmuRecall plainFloats (callFor "s") (start (oneLesson "s"))).2, ∀ r,
      (start (oneLesson "s")).store.find item.id = some r →
        Bare (cstr r.id.text) ∧ Bare (cstr r.title.text) ∧ Bare (cstr r.scope.text)) ∧
      (ListingDecoded (start (oneLesson "s")).store.items ↔
        ∀ r ∈ (start (oneLesson "s")).store.items, Bare (cstr r.id.text) ∧ Bare (cstr r.scope.text)) :=
  have run : (machine plainFloats).Run (start (oneLesson "s")) [] (start (oneLesson "s")) := Machine.Run.start _
  outputs_decoded_iff run (callFor "s")

end CognitiveOs.Context
