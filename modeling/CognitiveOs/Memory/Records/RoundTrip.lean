import CognitiveOs.Memory.Records.Markdown

/-!
# What a record file gives back

A record that is written and read again. The front matter has one line for a field and no
escapes, so a field with a line break is cut, and one that starts with a blank loses it.
-/

namespace CognitiveOs.Memory.Records

open Infra Gate

/-! ### Lines -/

variable {line : Text} {key : String} {room : Nat}

theorem readLines_line (bare : 10 ∉ line) (st : Reading) (front rest : Text) :
    readLines st front (line ++ 10 :: rest) =
      if front.reverse ++ line = rule then some (st.record, rest)
      else readLines (feedLine st (front.reverse ++ line)) [] rest := by
  induction line generalizing front with
  | nil => simp [readLines]
  | cons b line ih =>
    rw [List.mem_cons, not_or] at bare
    rw [List.cons_append, readLines, if_neg (Ne.symm bare.1), ih bare.2, List.reverse_cons, List.append_assoc]
    rfl

theorem readLines_unlines {lines : List Text} (plain : ∀ line ∈ lines, 10 ∉ line ∧ line ≠ rule) (st : Reading)
    (rest : Text) : readLines st [] (unlines (lines ++ [rule]) ++ rest) = some ((lines.foldl feedLine st).record, rest) := by
  induction lines generalizing st with
  | nil =>
    have bare : 10 ∉ rule := by decide
    have line := readLines_line bare st [] rest
    rw [List.reverse_nil, List.nil_append, if_pos rfl] at line
    simpa [unlines] using line
  | cons line lines ih =>
    obtain ⟨⟨bare, other⟩, plain⟩ := List.forall_mem_cons.mp plain
    have first := readLines_line bare st [] (unlines (lines ++ [rule]) ++ rest)
    rw [List.reverse_nil, List.nil_append, if_neg other, ih plain] at first
    rw [List.foldl_cons, ← first]
    simp [unlines]

def Key (key : String) (room : Nat) : Prop :=
  58 ∉ ascii key ∧ (ascii key).head?.map isBlank = some false ∧ (ascii key).length + room = 509 ∧ 2 ≤ room ∧
    ascii key ≠ ascii "emotion" ∧ ascii key ≠ ascii "source"

instance (key : String) (room : Nat) : Decidable (Key key room) := by
  unfold Key
  infer_instance

def shown (room : Nat) (value : Text) : Text :=
  (value.take room).dropWhile (· = 32)

theorem split_colon {front : Text} (bare : 58 ∉ front) (after : Text) :
    (front ++ 58 :: after).takeWhile (· ≠ 58) = front ∧ (front ++ 58 :: after).dropWhile (· ≠ 58) = 58 :: after := by
  have keys : ∀ b ∈ front, decide (b ≠ 58) = true := fun b member => decide_eq_true fun same => bare (same ▸ member)
  rw [List.takeWhile_append_of_pos keys, List.dropWhile_append_of_pos keys]
  simp

theorem Key.head (fits : Key key room) : ∃ b rest, ascii key = b :: rest ∧ isBlank b = false := by
  obtain ⟨_, first, _⟩ := fits
  cases form : ascii key with
  | nil => simp [form] at first
  | cons b rest => exact ⟨b, rest, rfl, by simpa [form] using first⟩

theorem feedLine_entry (fits : Key key room) (st : Reading) (value : Text) :
    feedLine st (entry key value) =
      { record := feedField st.record (ascii key) (shown room value) false false, inEmotion := false, inSource := false } := by
  obtain ⟨b, rest, form, visible⟩ := fits.head
  obtain ⟨bare, _, length, _, notEmotion, notSource⟩ := fits
  have cut : snprintf 512 (entry key value) = ascii key ++ 58 :: 32 :: value.take room := by
    unfold snprintf entry
    rw [List.take_append, List.take_of_length_le (by omega), show 512 - 1 - (ascii key).length = room + 1 + 1 by omega,
      List.take_succ_cons, List.take_succ_cons]
  obtain ⟨taken, dropped⟩ := split_colon bare (32 :: value.take room)
  unfold feedLine
  simp only [cut, dropped, taken, notEmotion, notSource]
  simp [form, visible, shown]

theorem feedLine_nested (fits : Key key (room + 2)) (st : Reading) (value : Text) :
    feedLine st (nested key value) =
      { st with record := feedField st.record (ascii key) (shown room value) st.inEmotion st.inSource } := by
  obtain ⟨b, rest, form, visible⟩ := fits.head
  obtain ⟨bare, _, length, _, _, _⟩ := fits
  have cut : snprintf 512 (nested key value) = (32 :: 32 :: ascii key) ++ 58 :: 32 :: value.take room := by
    unfold snprintf nested entry
    rw [show 512 - 1 = 509 + 1 + 1 from rfl, List.take_succ_cons, List.take_succ_cons, List.take_append,
      List.take_of_length_le (by omega), show 509 - (ascii key).length = room + 1 + 1 by omega, List.take_succ_cons,
      List.take_succ_cons]
    rfl
  have bare' : 58 ∉ 32 :: 32 :: ascii key := by
    simpa using bare
  obtain ⟨taken, dropped⟩ := split_colon bare' (32 :: value.take room)
  have key' : (32 :: 32 :: ascii key).dropWhile isBlank = ascii key := by
    rw [form]
    simp [visible, show isBlank 32 = true from rfl]
  unfold feedLine
  simp only [cut, dropped, taken, key']
  simp [shown, show isBlank 32 = true from rfl]

/-! ### The front matter -/

def readBack (r : MemRecord) : MemRecord where
  id := Field.copy (shown 507 r.id.text)
  type := typeFrom (shown 505 (typeName r.type))
  title := if r.title.text ≠ [] then copyQuoted (shown 504 (quoted r.title.text)) else Field.copy []
  scope := Field.copy (shown 504 (if r.scope.text ≠ [] then r.scope.text else ascii "global"))
  status := statusFrom (shown 503 (statusName r.status))
  importance := atof (shown 499 (fixed3 r.importance))
  confidence := atof (shown 499 (fixed3 r.confidence))
  utility := atof (shown 502 (fixed3 r.utility))
  valence := atof (shown 500 (fixed3 r.valence))
  arousal := atof (shown 500 (fixed3 r.arousal))
  salience := atof (shown 499 (fixed3 r.salience))
  source := Field.copy (shown 503 (if r.source.text ≠ [] then r.source.text else ascii "experience"))
  originId := if r.originId.text ≠ [] then Field.copy (shown 495 r.originId.text) else Field.copy []
  outcome := outcomeFrom (shown 502 (outcomeName r.outcome))
  evidence := if r.evidence.text ≠ [] then copyQuoted (shown 501 (quoted r.evidence.text)) else Field.copy []
  version := atoi (shown 502 (signedDecimal r.version.toInt))
  createdMs := atoll (shown 502 (signedDecimal r.createdMs.toInt))
  updatedMs := atoll (shown 502 (signedDecimal r.updatedMs.toInt))
  lastAccessMs := atoll (shown 498 (signedDecimal r.lastAccessMs.toInt))
  accessCount := (atoi (shown 497 (decimal r.accessCount.toNat))).toUInt32
  content := []

def opening : Reading where
  record := blankRecord
  inEmotion := false
  inSource := false

theorem feed_entry (fits : Key key room) (st : Reading) (value : Text) (lines : List Text) :
    (entry key value :: lines).foldl feedLine st =
      lines.foldl feedLine
        { record := feedField st.record (ascii key) (shown room value) false false, inEmotion := false, inSource := false } := by
  rw [List.foldl_cons, feedLine_entry fits]

theorem feed_nested (fits : Key key (room + 2)) (st : Reading) (value : Text) (lines : List Text) :
    (nested key value :: lines).foldl feedLine st =
      lines.foldl feedLine
        { st with record := feedField st.record (ascii key) (shown room value) st.inEmotion st.inSource } := by
  rw [List.foldl_cons, feedLine_nested fits]

theorem feed_emotion (st : Reading) (lines : List Text) :
    (ascii "emotion:" :: lines).foldl feedLine st =
      lines.foldl feedLine { record := st.record, inEmotion := true, inSource := false } := by
  rw [List.foldl_cons]
  unfold feedLine
  rfl

theorem feed_source (st : Reading) (lines : List Text) :
    (ascii "source:" :: lines).foldl feedLine st =
      lines.foldl feedLine { record := st.record, inEmotion := false, inSource := true } := by
  rw [List.foldl_cons]
  unfold feedLine
  rfl

theorem feed_title (r : MemRecord) (title : Text) :
    (if title ≠ [] then [entry "title" (quoted title)] else []).foldl feedLine
        { record := r, inEmotion := false, inSource := false } =
      { record := { r with title := if title ≠ [] then copyQuoted (shown 504 (quoted title)) else r.title }
        inEmotion := false
        inSource := false } := by
  split
  · rw [feed_entry (show Key "title" 504 by decide)]
    rfl
  · rfl

theorem feed_derived (r : MemRecord) (origin : Text) :
    (if origin ≠ [] then [nested "derived_from" origin] else []).foldl feedLine
        { record := r, inEmotion := false, inSource := true } =
      { record := { r with originId := if origin ≠ [] then Field.copy (shown 495 origin) else r.originId }
        inEmotion := false
        inSource := true } := by
  split
  · rw [feed_nested (show Key "derived_from" (495 + 2) by decide)]
    rfl
  · rfl

theorem feed_evidence (r : MemRecord) (evidence : Text) :
    (if evidence ≠ [] then [entry "evidence" (quoted evidence)] else []).foldl feedLine
        { record := r, inEmotion := false, inSource := false } =
      { record := { r with evidence := if evidence ≠ [] then copyQuoted (shown 501 (quoted evidence)) else r.evidence }
        inEmotion := false
        inSource := false } := by
  split
  · rw [feed_entry (show Key "evidence" 501 by decide)]
    rfl
  · rfl

theorem foldl_frontLines (r : MemRecord) :
    (frontLines r).foldl feedLine opening = { record := readBack r, inEmotion := false, inSource := false } := by
  unfold frontLines opening
  simp only [List.foldl_append, List.foldl_nil, feed_emotion, feed_source,
    feed_entry (show Key "id" 507 by decide), feed_entry (show Key "type" 505 by decide), feed_title,
    feed_entry (show Key "scope" 504 by decide), feed_entry (show Key "status" 503 by decide),
    feed_entry (show Key "importance" 499 by decide), feed_entry (show Key "confidence" 499 by decide),
    feed_entry (show Key "utility" 502 by decide), feed_nested (show Key "valence" (500 + 2) by decide),
    feed_nested (show Key "arousal" (500 + 2) by decide), feed_nested (show Key "salience" (499 + 2) by decide),
    feed_nested (show Key "type" (503 + 2) by decide), feed_derived, feed_entry (show Key "outcome" 502 by decide),
    feed_evidence, feed_entry (show Key "version" 502 by decide), feed_entry (show Key "created" 502 by decide),
    feed_entry (show Key "updated" 502 by decide), feed_entry (show Key "access_count" 497 by decide),
    feed_entry (show Key "last_access" 498 by decide)]
  simp +decide only [feedField, ↓reduceIte]
  rfl

/-! ### Values -/

variable {value : Text} {size : Nat} {i : Int}

theorem shown_eq (short : value.length ≤ room) (visible : value.head? ≠ some 32) : shown room value = value := by
  unfold shown
  rw [List.take_of_length_le short]
  cases value with
  | nil => rfl
  | cons b rest =>
    refine List.dropWhile_cons_of_neg ?_
    simpa using visible

theorem copyQuoted_quoted [NeZero size] (f : Field size) : copyQuoted (quoted f.text) = f := by
  unfold copyQuoted quoted
  rw [if_pos]
  · rw [List.tail_cons, List.dropLast_concat]
    exact f.copy_text
  · refine ⟨?_, rfl, ?_⟩
    · rw [List.length_cons, List.length_append, List.length_singleton]
      omega
    · rw [← List.cons_append, List.getLast?_concat]

theorem decimal_head (n : Nat) : ∃ first rest, decimal n = first :: rest ∧ isDigit first = true := by
  obtain ⟨first, rest, form⟩ := List.exists_cons_of_ne_nil (decimal_ne_nil n)
  exact ⟨first, rest, form, isDigit_decimal (form ▸ List.mem_cons_self ..)⟩

theorem takeWhile_decimal (n : Nat) : (decimal n).takeWhile isDigit = decimal n :=
  List.takeWhile_eq_self_iff.mpr fun _ => isDigit_decimal

theorem strtoll_decimal (n : Nat) : Http.strtoll (decimal n) = min (n : Int) (2 ^ 63 - 1) := by
  obtain ⟨first, rest, form, digit⟩ := decimal_head n
  unfold isDigit at digit
  simp only [Bool.and_eq_true, decide_eq_true_eq] at digit
  have visible : isSpace first = false := by
    unfold isSpace
    grind
  have minus : first ≠ 45 := by grind
  have plus : first ≠ 43 := by grind
  have take := takeWhile_decimal n
  have value := digitsValue_decimal n
  rw [form] at take value ⊢
  unfold Http.strtoll
  rw [List.dropWhile_cons_of_neg (by simp [visible])]
  simp [minus, plus, take, value]

theorem strtoll_minus (n : Nat) : Http.strtoll (45 :: decimal n) = - (min n (2 ^ 63) : Int) := by
  unfold Http.strtoll
  rw [List.dropWhile_cons_of_neg (by decide)]
  simp only [takeWhile_decimal, digitsValue_decimal]
  rfl

theorem strtoll_signedDecimal (low : - 2 ^ 63 ≤ i) (high : i < 2 ^ 63) : Http.strtoll (signedDecimal i) = i := by
  unfold signedDecimal
  split
  · rw [strtoll_minus]
    omega
  · rw [strtoll_decimal]
    omega

theorem atoll_signedDecimal (x : Int64) : atoll (signedDecimal x.toInt) = x := by
  unfold atoll
  rw [strtoll_signedDecimal x.le_toInt x.toInt_lt]
  exact Int64.ofInt_toInt x

theorem atoi_signedDecimal (x : Int32) : atoi (signedDecimal x.toInt) = x := by
  have low := x.le_toInt
  have high := x.toInt_lt
  unfold atoi
  rw [strtoll_signedDecimal (by omega) (by omega)]
  exact Int32.ofInt_toInt x

theorem atoi_decimal (x : UInt32) : (atoi (decimal x.toNat)).toUInt32 = x := by
  have small := x.toNat_lt
  unfold atoi
  rw [strtoll_decimal, min_eq_left (by omega), Int32.ofInt_eq_ofNat, Int32.toUInt32_ofNat']
  exact UInt32.ofNat_toNat

theorem length_signedDecimal (low : - 2 ^ 63 ≤ i) (high : i < 2 ^ 63) : (signedDecimal i).length ≤ 20 := by
  have digits : (decimal i.natAbs).length ≤ 19 := length_decimal (by decide) (by omega)
  unfold signedDecimal
  split
  · rw [List.length_cons]
    omega
  · omega

theorem head_decimal (n : Nat) : (decimal n).head? ≠ some 32 := by
  obtain ⟨first, rest, form, digit⟩ := decimal_head n
  rw [form]
  rintro same
  cases same
  cases digit

theorem shown_signedDecimal (wide : 20 ≤ room) (low : - 2 ^ 63 ≤ i) (high : i < 2 ^ 63) :
    shown room (signedDecimal i) = signedDecimal i := by
  apply shown_eq
  · exact (length_signedDecimal low high).trans wide
  · unfold signedDecimal
    split
    · intro same
      cases same
    · exact head_decimal _

theorem shown_int64 (wide : 20 ≤ room) (x : Int64) : shown room (signedDecimal x.toInt) = signedDecimal x.toInt :=
  shown_signedDecimal wide x.le_toInt x.toInt_lt

/-! ### What survives -/

variable {b : UInt8} {r : MemRecord}

/-- The fields that come back: an empty scope as the global one, the content up to a line break at
its end. -/
structure Same (r r' : MemRecord) : Prop where
  id : r'.id = r.id
  type : r'.type = r.type
  scope : r'.scope.text = if r.scope.text = [] then ascii "global" else r.scope.text
  status : r'.status = r.status
  outcome : r'.outcome = r.outcome
  title : r'.title = r.title
  evidence : r'.evidence = r.evidence
  originId : r'.originId = r.originId
  version : r'.version = r.version
  accessCount : r'.accessCount = r.accessCount
  createdMs : r'.createdMs = r.createdMs
  updatedMs : r'.updatedMs = r.updatedMs
  lastAccessMs : r'.lastAccessMs = r.lastAccessMs
  content : r'.content = r.content ∨ r'.content = r.content ++ [10]

def Survives (r : MemRecord) : Prop :=
  ∃ md r', toMd r = some md ∧ fromMd md = some r' ∧ Same r r'

/-- No text of the front matter has a line break, and the unquoted ones start with no blank. -/
structure Plain (r : MemRecord) : Prop where
  named : r.id.text ≠ []
  id : 10 ∉ r.id.text ∧ r.id.text.head? ≠ some 32
  scope : 10 ∉ r.scope.text ∧ r.scope.text.head? ≠ some 32
  originId : 10 ∉ r.originId.text ∧ r.originId.text.head? ≠ some 32
  title : 10 ∉ r.title.text
  evidence : 10 ∉ r.evidence.text
  source : 10 ∉ r.source.text

theorem mem_entry (other : b ≠ 58 ∧ b ≠ 32) : b ∈ entry key value ↔ b ∈ ascii key ∨ b ∈ value := by
  unfold entry
  rw [List.mem_append, List.mem_cons, List.mem_cons]
  simp [other.1, other.2]

theorem mem_nested (other : b ≠ 58 ∧ b ≠ 32) : b ∈ nested key value ↔ b ∈ ascii key ∨ b ∈ value := by
  unfold nested
  rw [List.mem_cons, List.mem_cons, mem_entry other]
  simp [other.2]

theorem mem_quoted (other : b ≠ 34) : b ∈ quoted value ↔ b ∈ value := by
  unfold quoted
  simp [other]

theorem newline_signedDecimal (i : Int) : 10 ∉ signedDecimal i := by
  have digits : 10 ∉ decimal i.natAbs := not_mem_decimal rfl
  unfold signedDecimal
  split
  · simpa using digits
  · exact digits

theorem newline_fixed3 (x : ℚ) : 10 ∉ fixed3 x := by
  have digit (n : Nat) : (10 : UInt8) ≠ 48 + (n % 10).toUInt8 := by
    have small : n % 10 < 10 := Nat.mod_lt n (by decide)
    generalize n % 10 = d at small
    revert d
    decide
  have digits (n : Nat) : 10 ∉ decimal n := not_mem_decimal rfl
  unfold fixed3
  simp only [List.mem_append, List.mem_cons, List.not_mem_nil, not_or, digit, digits]
  split
  · decide
  · decide

theorem names_clean (t : MemType) (s : Status) (o : Outcome) :
    10 ∉ typeName t ∧ 10 ∉ statusName s ∧ 10 ∉ outcomeName o := by
  refine ⟨?_, ?_, ?_⟩
  · cases t <;> decide
  · cases s <;> decide
  · cases o <;> decide

theorem frontLines_colon (member : line ∈ frontLines r) : line ≠ rule := by
  have entries (key : String) (value : Text) : 58 ∈ entry key value := by
    simp [entry]
  have inner (key : String) (value : Text) : 58 ∈ nested key value := by
    simp [nested, entry]
  have colon : ∀ line ∈ frontLines r, 58 ∈ line := by
    unfold frontLines
    simp only [List.forall_mem_append, List.forall_mem_cons, List.mem_ite_nil_right, List.mem_singleton]
    simp [entries, inner, show (58 : UInt8) ∈ ascii "emotion:" by decide, show (58 : UInt8) ∈ ascii "source:" by decide]
  rintro rfl
  exact absurd (colon _ member) (by decide)

theorem frontLines_oneLine (plain : Plain r) (member : line ∈ frontLines r) : 10 ∉ line := by
  obtain ⟨type, status, outcome⟩ := names_clean r.type r.status r.outcome
  have entries {key : String} {value : Text} (bareKey : 10 ∉ ascii key) (bare : 10 ∉ value) : 10 ∉ entry key value := by
    rw [mem_entry (by decide), not_or]
    exact ⟨bareKey, bare⟩
  have inner {key : String} {value : Text} (bareKey : 10 ∉ ascii key) (bare : 10 ∉ value) : 10 ∉ nested key value := by
    rw [mem_nested (by decide), not_or]
    exact ⟨bareKey, bare⟩
  have given {value other : Text} (bare : 10 ∉ value) (bareOther : 10 ∉ other) :
      10 ∉ (if value ≠ [] then value else other) := by
    split
    · exact bare
    · exact bareOther
  have quote {value : Text} (bare : 10 ∉ value) : 10 ∉ quoted value := by
    rw [mem_quoted (by decide)]
    exact bare
  have count : 10 ∉ decimal r.accessCount.toNat := not_mem_decimal rfl
  unfold frontLines at member
  simp only [List.mem_append, List.mem_cons, List.not_mem_nil, or_false, List.mem_ite_nil_right] at member
  rcases member with ((((((rfl | rfl) | ⟨_, rfl⟩) | h) | ⟨_, rfl⟩) | rfl) | ⟨_, rfl⟩) | h
  · exact entries (by decide) plain.id.1
  · exact entries (by decide) type
  · exact entries (by decide) (quote plain.title)
  · rcases h with rfl | rfl | rfl | rfl | rfl | rfl | rfl | rfl | rfl | rfl | rfl
    · exact entries (by decide) (given plain.scope.1 (by decide))
    · exact entries (by decide) status
    · exact entries (by decide) (newline_fixed3 _)
    · exact entries (by decide) (newline_fixed3 _)
    · exact entries (by decide) (newline_fixed3 _)
    · decide
    · exact inner (by decide) (newline_fixed3 _)
    · exact inner (by decide) (newline_fixed3 _)
    · exact inner (by decide) (newline_fixed3 _)
    · decide
    · exact inner (by decide) (given plain.source (by decide))
  · exact inner (by decide) plain.originId.1
  · exact entries (by decide) outcome
  · exact entries (by decide) (quote plain.evidence)
  · rcases h with rfl | rfl | rfl | rfl | rfl
    · exact entries (by decide) (newline_signedDecimal _)
    · exact entries (by decide) (newline_signedDecimal _)
    · exact entries (by decide) (newline_signedDecimal _)
    · exact entries (by decide) count
    · exact entries (by decide) (newline_signedDecimal _)

theorem shown_field (f : Field size) (wide : size ≤ room) (visible : f.text.head? ≠ some 32) :
    shown room f.text = f.text :=
  shown_eq (f.fits.le.trans wide) visible

theorem shown_quoted (f : Field size) (wide : size + 2 ≤ room) : shown room (quoted f.text) = quoted f.text := by
  have fits := f.fits
  apply shown_eq
  · unfold quoted
    rw [List.length_cons, List.length_append, List.length_singleton]
    omega
  · intro same
    cases same

theorem quoted_back [NeZero size] (f : Field size) (wide : size + 2 ≤ room) :
    (if f.text ≠ [] then copyQuoted (shown room (quoted f.text)) else Field.copy []) = f := by
  split
  · rw [shown_quoted f wide]
    exact copyQuoted_quoted f
  · rename_i empty
    rw [← not_not.mp empty]
    exact f.copy_text

theorem readBack_same (plain : Plain r) : Same r { readBack r with content := body r } where
  id := by
    change Field.copy (shown 507 r.id.text) = r.id
    rw [shown_field r.id (by decide) plain.id.2]
    exact r.id.copy_text
  type := by
    change typeFrom (shown 505 (typeName r.type)) = r.type
    cases r.type <;> decide
  scope := by
    change snprintf 256 (shown 504 (if r.scope.text ≠ [] then r.scope.text else ascii "global")) = _
    by_cases empty : r.scope.text = []
    · rw [if_neg (not_not.mpr empty), if_pos empty]
      decide
    · rw [if_pos empty, if_neg empty, shown_field r.scope (by decide) plain.scope.2]
      exact congrArg Field.text r.scope.copy_text
  status := by
    change statusFrom (shown 503 (statusName r.status)) = r.status
    cases r.status <;> decide
  outcome := by
    change outcomeFrom (shown 502 (outcomeName r.outcome)) = r.outcome
    cases r.outcome <;> decide
  title := quoted_back r.title (by decide)
  evidence := quoted_back r.evidence (by decide)
  originId := by
    change (if r.originId.text ≠ [] then Field.copy (shown 495 r.originId.text) else Field.copy []) = r.originId
    split
    · rw [shown_field r.originId (by decide) plain.originId.2]
      exact r.originId.copy_text
    · rename_i empty
      rw [← not_not.mp empty]
      exact r.originId.copy_text
  version := by
    change atoi (shown 502 (signedDecimal r.version.toInt)) = r.version
    have low := r.version.le_toInt
    have high := r.version.toInt_lt
    rw [shown_signedDecimal (by decide) (by omega) (by omega)]
    exact atoi_signedDecimal r.version
  accessCount := by
    change (atoi (shown 497 (decimal r.accessCount.toNat))).toUInt32 = r.accessCount
    have small := r.accessCount.toNat_lt
    have length : (decimal r.accessCount.toNat).length ≤ 10 := length_decimal (by decide) (by omega)
    rw [shown_eq (by omega) (head_decimal _)]
    exact atoi_decimal r.accessCount
  createdMs := by
    change atoll (shown 502 (signedDecimal r.createdMs.toInt)) = r.createdMs
    rw [shown_int64 (by decide)]
    exact atoll_signedDecimal r.createdMs
  updatedMs := by
    change atoll (shown 502 (signedDecimal r.updatedMs.toInt)) = r.updatedMs
    rw [shown_int64 (by decide)]
    exact atoll_signedDecimal r.updatedMs
  lastAccessMs := by
    change atoll (shown 498 (signedDecimal r.lastAccessMs.toInt)) = r.lastAccessMs
    rw [shown_int64 (by decide)]
    exact atoll_signedDecimal r.lastAccessMs
  content := by
    change body r = r.content ∨ body r = r.content ++ [10]
    unfold body
    split
    · exact .inr rfl
    · exact .inl rfl

theorem survives_of_plain (plain : Plain r) : Survives r := by
  have lines : readLines opening [] (unlines (frontLines r ++ [rule]) ++ body r) = some (readBack r, body r) := by
    rw [readLines_unlines, foldl_frontLines]
    intro line member
    exact ⟨frontLines_oneLine plain member, frontLines_colon member⟩
  refine ⟨_, { readBack r with content := body r }, if_neg plain.named, ?_, readBack_same plain⟩
  have head : unlines ([rule] ++ frontLines r ++ [rule]) ++ body r =
      (rule ++ [10]) ++ (unlines (frontLines r ++ [rule]) ++ body r) := by
    simp [unlines]
  have same := (readBack_same plain).id
  have named : (readBack r).id.text ≠ [] := by
    rw [show (readBack r).id = r.id from same]
    exact plain.named
  unfold fromMd
  rw [head, if_pos (List.isPrefixOf_iff_prefix.mpr (List.prefix_append _ _)),
    show 4 = (rule ++ [10]).length by decide, List.drop_left]
  change (readLines opening [] _).bind _ = _
  rw [lines]
  exact if_neg named

/-! ### What a file can give -/

/-- Texts without line breaks, the unquoted ones without a leading blank. -/
structure Clean (id title scope originId evidence : Text) : Prop where
  id : 10 ∉ id ∧ id.head? ≠ some 32
  title : 10 ∉ title
  scope : 10 ∉ scope ∧ scope.head? ≠ some 32
  originId : 10 ∉ originId ∧ originId.head? ≠ some 32
  evidence : 10 ∉ evidence

def MemRecord.Clean (r : MemRecord) : Prop :=
  Records.Clean r.id.text r.title.text r.scope.text r.originId.text r.evidence.text

theorem snprintf_clean {n : Nat} (bare : 10 ∉ value) (visible : value.head? ≠ some 32) :
    10 ∉ snprintf n value ∧ (snprintf n value).head? ≠ some 32 := by
  refine ⟨fun member => bare (List.mem_of_mem_take member), ?_⟩
  intro same
  obtain ⟨rest, form⟩ := List.head?_eq_some_iff.mp same
  apply visible
  rw [← List.take_append_drop (n - 1) value]
  unfold snprintf at form
  rw [form]
  rfl

theorem copyQuoted_clean [NeZero size] (bare : 10 ∉ value) : 10 ∉ (copyQuoted value : Field size).text := by
  unfold copyQuoted
  split
  · intro member
    have inner := List.mem_of_mem_take member
    exact bare (List.mem_of_mem_tail (List.dropLast_subset _ inner))
  · intro member
    exact bare (List.mem_of_mem_take member)

theorem clean_ite {c : Prop} [Decidable c] {r' : MemRecord} (first : r.Clean) (second : r'.Clean) :
    (if c then r else r').Clean := by
  split
  · exact first
  · exact second

theorem feedField_clean (clean : r.Clean) (key : Text) (bare : 10 ∉ value) (visible : value.head? ≠ some 32)
    (inEmotion inSource : Bool) : (feedField r key value inEmotion inSource).Clean := by
  have id : ({ r with id := Field.copy value } : MemRecord).Clean := { clean with id := snprintf_clean bare visible }
  have title : ({ r with title := copyQuoted value } : MemRecord).Clean := { clean with title := copyQuoted_clean bare }
  have scope : ({ r with scope := Field.copy value } : MemRecord).Clean :=
    { clean with scope := snprintf_clean bare visible }
  have originId : ({ r with originId := Field.copy value } : MemRecord).Clean :=
    { clean with originId := snprintf_clean bare visible }
  have evidence : ({ r with evidence := copyQuoted value } : MemRecord).Clean :=
    { clean with evidence := copyQuoted_clean bare }
  unfold feedField
  repeat' apply clean_ite
  -- every other field leaves these texts as they are
  all_goals first | exact clean | assumption

theorem feedLine_clean {st : Reading} (clean : st.record.Clean) (bare : 10 ∉ line) :
    (feedLine st line).record.Clean := by
  unfold feedLine
  dsimp only
  split
  · exact clean
  · rename_i after rest
    have inside : 10 ∉ after := by
      intro member
      have dropped : 10 ∈ (snprintf 512 line).dropWhile (· ≠ 58) := by
        rw [rest]
        exact List.mem_cons_of_mem _ member
      exact bare (List.mem_of_mem_take ((List.dropWhile_suffix _).mem dropped))
    have value : 10 ∉ after.dropWhile (· = 32) := fun member => inside ((List.dropWhile_suffix _).mem member)
    have visible : (after.dropWhile (· = 32)).head? ≠ some 32 := by
      intro blank
      have first := List.head?_dropWhile_not (fun b : UInt8 => decide (b = 32)) after
      rw [blank] at first
      simp at first
    split
    · exact feedField_clean clean _ value visible _ _
    · exact clean_ite clean (feedField_clean clean _ value visible _ _)

theorem readLines_clean {st : Reading} (clean : st.record.Clean) {front text : Text} (bare : 10 ∉ front)
    {content : Text} (read : readLines st front text = some (r, content)) : r.Clean := by
  induction text generalizing st front with
  | nil => cases read
  | cons b text ih =>
    unfold readLines at read
    split at read
    · split at read
      · cases read
        exact clean
      · refine ih (feedLine_clean clean ?_) (List.not_mem_nil) read
        rwa [List.mem_reverse]
    · rename_i other
      refine ih clean ?_ read
      rw [List.mem_cons, not_or]
      exact ⟨Ne.symm other, bare⟩

theorem fromMd_clean {md : Text} (read : fromMd md = some r) : r.Clean ∧ r.id.text ≠ [] := by
  unfold fromMd at read
  split at read
  · obtain ⟨⟨r', content⟩, lines, read⟩ := Option.bind_eq_some_iff.mp read
    have clean : r'.Clean := by
      refine readLines_clean ?_ List.not_mem_nil lines
      exact ⟨by decide, by decide, by decide, by decide, by decide⟩
    simp only at read
    split at read
    · cases read
    · rename_i named
      cases read
      exact ⟨clean, named⟩
  · cases read

/-- A record whose source is one line comes back as it was exactly when no field of its front
matter has a line break and no unquoted one starts with a blank. -/
theorem survives_iff (r : MemRecord) : Survives r ∧ 10 ∉ r.source.text ↔ Plain r := by
  constructor
  · rintro ⟨⟨md, r', written, read, same⟩, source⟩
    obtain ⟨clean, named⟩ := fromMd_clean read
    have scope : 10 ∉ r.scope.text ∧ r.scope.text.head? ≠ some 32 := by
      have back := same.scope
      split at back
      · rename_i empty
        rw [empty]
        exact ⟨List.not_mem_nil, by decide⟩
      · rw [← back]
        exact clean.scope
    exact
      { named := same.id ▸ named
        id := same.id ▸ clean.id
        scope := scope
        originId := same.originId ▸ clean.originId
        title := same.title ▸ clean.title
        evidence := same.evidence ▸ clean.evidence
        source := source }
  · intro plain
    exact ⟨survives_of_plain plain, plain.source⟩

def twoLines : MemRecord :=
  { blankRecord with id := Field.copy (ascii "mem_1"), title := Field.copy (ascii "a\nb"), content := ascii "c" }

theorem twoLines_lost : toMd twoLines ≠ none ∧ 10 ∉ twoLines.source.text ∧ ¬ Survives twoLines := by
  refine ⟨by decide, by decide, ?_⟩
  rintro ⟨md, r', written, read, same⟩
  have back : ((toMd twoLines).bind fromMd).map MemRecord.title = some twoLines.title := by
    rw [written, Option.bind_some, read, Option.map_some, same.title]
  revert back
  decide +kernel

end CognitiveOs.Memory.Records
