import CognitiveOs.Os.Http.Decode

/-!
# Whole responses

What the complete body of a response is, from its bytes alone. When the size lines, the
length and the bytes of a response fit the buffers they are read into, `http_full` returns
this body or nothing.
-/

namespace CognitiveOs.Http

open Infra

/-! ### The complete body -/

def isHex (c : UInt8) : Bool :=
  (hexValue? c).isSome

def chunkSize (line : Text) : Option Nat :=
  let digits := line.takeWhile isHex
  let rest := (line.dropWhile isHex).dropWhile fun c => c = 32 || c = 9
  if digits ≠ [] ∧ (rest = [] ∨ rest.head? = some 59) then some (hexPrefix 0 digits) else none

def lineText (line : Text) : Text :=
  line.filter (· ≠ carriageReturn)

/-- One complete chunk: its size line, its data, and what follows up to the end of the line. -/
structure Chunk where
  line : Text
  data : Text
  rest : Text
  oneLine : newline ∉ line
  size : chunkSize (lineText line) = some data.length
  some' : data ≠ []
  oneRest : newline ∉ rest

def Chunk.bytes (c : Chunk) : Text :=
  c.line ++ newline :: (c.data ++ (c.rest ++ [newline]))

def Chunked (bytes body : Text) : Prop :=
  ∃ (chunks : List Chunk) (last trailer : Text), newline ∉ last ∧
    chunkSize (lineText last) = some 0 ∧
    bytes = chunks.flatMap Chunk.bytes ++ (last ++ newline :: trailer) ∧
    body = chunks.flatMap Chunk.data

/-- The complete body of a message with this framing; `closed` when the connection is closed
after it. -/
def WholeBody (f : Framing) (bytes : Text) (closed : Bool) (body : Text) : Prop :=
  if f.chunked then Chunked bytes body
  else if 0 ≤ f.contentLen then
    f.contentLen.toNat ≤ bytes.length ∧ body = bytes.take f.contentLen.toNat
  else closed = true ∧ body = bytes

def declareHeader (f : Framing) (line : Text) : Framing :=
  let lower := (cstr line).map toLower
  if (ascii "transfer-encoding:").isPrefixOf lower && (strstr (ascii "chunked") lower).isSome then
    { f with chunked := true }
  else if (ascii "content-length:").isPrefixOf lower then
    { f with contentLen := strtoll (((cstr line).dropWhile (· ≠ 58)).drop 1) }
  else f

def unmarked (bytes : Text) : Wire :=
  bytes.map fun c => (c, false)

def headerPart (bytes : Text) : Option (List Text × Text) :=
  let cap := bytes.length + 2
  (rawLine cap (unmarked bytes) []).bind fun (_, rest) =>
    (headerLines cap rest []).map fun (lines, rest) => (lines, rest.bytes)

def Whole (bytes : Text) (closed : Bool) (body : Text) : Prop :=
  ∃ lines rest, headerPart bytes = some (lines, rest) ∧
    WholeBody (lines.foldl declareHeader {}) rest closed body

/-! ### What fits -/

def LineFits (line : Text) : Prop :=
  (lineText line).length ≤ 127 ∧ ∃ n, chunkSize (lineText line) = some n ∧ n < 2 ^ 63

def SizesFit (bytes : Text) : Prop :=
  ∀ (chunks : List Chunk) (line rest : Text), newline ∉ line →
    bytes = chunks.flatMap Chunk.bytes ++ (line ++ newline :: rest) → LineFits line

/-- `http_full` stops reading above this. -/
def bodyLimit : Nat :=
  64 * 1024 * 1024

def DataFits (bytes : Text) (limit : Nat) : Prop :=
  ∀ (chunks : List Chunk) (line rest : Text) (n : Nat), newline ∉ line →
    bytes = chunks.flatMap Chunk.bytes ++ (line ++ newline :: rest) →
    chunkSize (lineText line) = some n →
    (chunks.flatMap Chunk.data).length + min n rest.length ≤ limit

def ArrivalFits (f : Framing) (bytes : Text) (limit : Nat) : Prop :=
  if f.chunked then DataFits bytes limit
  else if 0 ≤ f.contentLen then min f.contentLen.toNat bytes.length ≤ limit
  else bytes.length ≤ limit

def SizesExact (bytes : Text) : Prop :=
  ∀ (chunks : List Chunk) (line rest : Text), newline ∉ line →
    bytes = chunks.flatMap Chunk.bytes ++ (line ++ newline :: rest) →
    parseChunkSize (lineText line) = hexPrefix 0 (cstr (lineText line))

def HeaderFits (line : Text) : Prop :=
  line.length ≤ 1023 ∧
    ((ascii "transfer-encoding:").isPrefixOf ((cstr line).map toLower) = true →
      (strstr (ascii "chunked") (cstr line)).isSome =
        (strstr (ascii "chunked") ((cstr line).map toLower)).isSome)

/-- The head, the sizes and the bytes of a response fit the buffers they are read into. -/
structure Fits (wire : Wire) (broken : Bool) : Prop where
  headers : ∀ lines rest, headerPart wire.bytes = some (lines, rest) → ∀ line ∈ lines, HeaderFits line
  sizes : ∀ lines rest, headerPart wire.bytes = some (lines, rest) →
    (lines.foldl declareHeader {}).chunked = true → SizesFit rest
  arrives : ∀ lines rest, headerPart wire.bytes = some (lines, rest) →
    ArrivalFits (lines.foldl declareHeader {}) rest bodyLimit
  text : ∀ body, Whole wire.bytes (!broken) body → 0 ∉ body

/-! ### Size lines -/

variable {line bytes : Text} {n : Nat} {c : UInt8 × Bool} {rest : Wire}

theorem hexPrefix_takeWhile (v : Nat) (line : Text) :
    hexPrefix v (line.takeWhile isHex) = hexPrefix v line := by
  induction line generalizing v with
  | nil => rfl
  | cons c line ih =>
    unfold isHex
    rw [List.takeWhile_cons]
    cases digit : hexValue? c with
    | none => simp [hexPrefix, digit]
    | some value =>
      rw [if_pos (by simp)]
      simp only [hexPrefix, digit]
      exact ih _

theorem takeWhile_hex_cstr (line : Text) : (cstr line).takeWhile isHex = line.takeWhile isHex := by
  induction line with
  | nil => rfl
  | cons c line ih =>
    unfold cstr at ih ⊢
    rw [List.takeWhile_cons]
    by_cases zero : c = 0
    · subst zero
      rfl
    · rw [if_pos (by simpa using zero), List.takeWhile_cons, List.takeWhile_cons, ih]

theorem hexPrefix_of_chunkSize (size : chunkSize line = some n) : hexPrefix 0 (cstr line) = n := by
  unfold chunkSize at size
  simp only at size
  split at size
  · rw [← hexPrefix_takeWhile, takeWhile_hex_cstr]
    exact Option.some.inj size
  · cases size

theorem parseChunkSize_of_fits (size : chunkSize line = some n) (small : n < 2 ^ 63) : parseChunkSize line = n := by
  unfold parseChunkSize
  rw [hexPrefix_of_chunkSize size, BitVec.toInt_eq_toNat_of_lt]
  · rw [BitVec.toNat_ofNat, Nat.mod_eq_of_lt (by omega)]
  · rw [BitVec.toNat_ofNat, Nat.mod_eq_of_lt (by omega)]
    omega

theorem SizesFit.exact (fits : SizesFit bytes) : SizesExact bytes := by
  intro chunks line rest oneLine split
  rcases fits chunks line rest oneLine split with ⟨-, n, size, small⟩
  rw [parseChunkSize_of_fits size small, hexPrefix_of_chunkSize size]

theorem rawLine_of_short {cap : Nat} {wire : Wire} {before : Text} (bytes : wire.bytes = line)
    (oneLine : newline ∉ line) (ends : c.1 = newline) (short : (before ++ lineText line).length < cap) :
    rawLine cap (wire ++ c :: rest) before = some (before ++ lineText line, rest) := by
  induction wire generalizing line before with
  | nil =>
    obtain rfl : line = [] := bytes.symm
    simp [rawLine, ends, lineText]
  | cons head wire ih =>
    rcases head with ⟨b, mark⟩
    obtain rfl : line = b :: Wire.bytes wire := bytes.symm
    have differs : b ≠ newline := by
      rintro rfl
      exact oneLine List.mem_cons_self
    have later : newline ∉ Wire.bytes wire := fun member => oneLine (List.mem_cons_of_mem b member)
    rw [List.cons_append, rawLine, if_neg differs]
    by_cases cr : b = carriageReturn
    · have same : lineText (b :: Wire.bytes wire) = lineText (Wire.bytes wire) := by
        simp [lineText, cr]
      rw [same] at short ⊢
      rw [if_pos cr]
      exact ih rfl later short
    · have same : lineText (b :: Wire.bytes wire) = b :: lineText (Wire.bytes wire) := by
        simp [lineText, cr]
      rw [same] at short ⊢
      have room : before.length + 1 < cap := by
        simp only [List.length_append, List.length_cons] at short
        omega
      have put : putc cap before b = before ++ [b] := if_pos room
      rw [if_neg cr, put, ih rfl later (by simpa using short)]
      simp

theorem rawLine_none {cap : Nat} {wire : Wire} {before : Text} (never : newline ∉ wire.bytes) :
    rawLine cap wire before = none := by
  induction wire generalizing before with
  | nil => rfl
  | cons head wire ih =>
    rcases head with ⟨b, mark⟩
    have differs : b ≠ newline := by
      rintro rfl
      exact never List.mem_cons_self
    have later : newline ∉ Wire.bytes wire := fun member => never (List.mem_cons_of_mem b member)
    rw [rawLine, if_neg differs]
    split <;> exact ih later

theorem wire_line (wire : Wire) : newline ∉ wire.bytes ∨
    ∃ (first : Wire) (c : UInt8 × Bool) (rest : Wire), wire = first ++ c :: rest ∧
      newline ∉ first.bytes ∧ c.1 = newline := by
  induction wire with
  | nil => exact Or.inl (by simp [Wire.bytes])
  | cons head wire ih =>
    by_cases here : head.1 = newline
    · exact Or.inr ⟨[], head, wire, rfl, by simp [Wire.bytes], here⟩
    · rcases ih with never | ⟨first, c, rest, rfl, before, ends⟩
      · left
        simp only [Wire.bytes, List.map_cons, List.mem_cons, not_or]
        exact ⟨fun same => here same.symm, never⟩
      · refine Or.inr ⟨head :: first, c, rest, rfl, ?_, ends⟩
        simp only [Wire.bytes, List.map_cons, List.mem_cons, not_or]
        exact ⟨fun same => here same.symm, before⟩

/-! ### What the decoder delivers -/

variable {g h h' : Stream} {body : Text}

theorem Decodes.congr (same : h.decodeGetc = g.decodeGetc) (decodes : Decodes h body h') : Decodes g body h' := by
  cases decodes with
  | stop stopped => exact .stop (same ▸ stopped)
  | byte got rest => exact .byte (same ▸ got) rest

theorem Decodes.of_none (decodes : Decodes h body h') (next : h.decodeGetc = (none, g)) : body = [] ∧ h' = g := by
  cases decodes with
  | stop got =>
    rw [next] at got
    exact ⟨rfl, (Prod.mk.inj got).2.symm⟩
  | byte got _ =>
    rw [next] at got
    cases got

theorem Decodes.of_some {byte : UInt8 × Bool} (decodes : Decodes h body h') (next : h.decodeGetc = (some byte, g)) :
    ∃ body', body = byte.1 :: body' ∧ Decodes g body' h' := by
  cases decodes with
  | stop got =>
    rw [next] at got
    cases got
  | byte got rest =>
    rw [next] at got
    obtain ⟨first, rfl⟩ := Prod.mk.inj got
    obtain rfl := Option.some.inj first
    exact ⟨_, rfl, rest⟩

theorem fail_of_chunked (chunked : h.chunked = true) (more : h.cstate ≠ .done) : h.fail.readFailed = true := by
  simp [Stream.fail, chunked, more]

theorem decodes_length (plain : h.chunked = false) (length : h.contentRemaining = n) (decodes : Decodes h body h') :
    body = h.wire.bytes.take n ∧ (h'.readFailed = true ∨ n ≤ h.wire.length) := by
  induction n generalizing h body with
  | zero =>
    have spent : h.decodeGetc = (none, h) := by simp [Stream.decodeGetc, plain, length]
    obtain ⟨rfl, -⟩ := decodes.of_none spent
    exact ⟨rfl, Or.inr (Nat.zero_le _)⟩
  | succ n ih =>
    have more : ¬ h.contentRemaining = 0 := by omega
    cases wire : h.wire with
    | nil =>
      have failed : h.decodeGetc = (none, h.fail) := by
        simp [Stream.decodeGetc, plain, more, Stream.getc, wire]
      obtain ⟨rfl, rfl⟩ := decodes.of_none failed
      have positive : 0 < h.contentRemaining := by omega
      exact ⟨rfl, Or.inl (by simp [Stream.fail, positive])⟩
    | cons byte wire' =>
      have taken : h.decodeGetc =
          (some byte, { h with wire := wire', contentRemaining := h.contentRemaining - 1 }) := by
        have positive : 0 < h.contentRemaining := by omega
        simp [Stream.decodeGetc, plain, more, Stream.getc, wire, positive]
      obtain ⟨body', rfl, rest⟩ := decodes.of_some taken
      rcases ih (h := { h with wire := wire', contentRemaining := h.contentRemaining - 1 }) plain
        (by simp only; omega) rest with ⟨rfl, failed | enough⟩
      · exact ⟨rfl, Or.inl failed⟩
      · exact ⟨rfl, Or.inr (Nat.succ_le_succ enough)⟩

theorem decodes_close (plain : h.chunked = false) (unknown : h.contentRemaining < 0) (decodes : Decodes h body h') :
    body = h.wire.bytes ∧ (h'.readFailed = true ∨ h.broken = false) := by
  have more : ¬ h.contentRemaining = 0 := by omega
  have negative : ¬ 0 < h.contentRemaining := by omega
  induction decodes with
  | @stop h h' got =>
    cases wire : h.wire with
    | nil =>
      have failed : h.decodeGetc = (none, h.fail) := by
        simp [Stream.decodeGetc, plain, more, Stream.getc, wire]
      rw [failed] at got
      obtain rfl := (Prod.mk.inj got).2
      cases broken : h.broken with
      | true => exact ⟨rfl, Or.inl (by simp [Stream.fail, broken])⟩
      | false => exact ⟨rfl, Or.inr rfl⟩
    | cons byte rest =>
      have taken : h.decodeGetc = (some byte, { h with wire := rest }) := by
        simp [Stream.decodeGetc, plain, more, Stream.getc, wire, negative]
      rw [taken] at got
      cases got
  | @byte h h' h'' c last body got rest ih =>
    cases wire : h.wire with
    | nil =>
      have failed : h.decodeGetc = (none, h.fail) := by
        simp [Stream.decodeGetc, plain, more, Stream.getc, wire]
      rw [failed] at got
      cases got
    | cons byte rest' =>
      have taken : h.decodeGetc = (some byte, { h with wire := rest' }) := by
        simp [Stream.decodeGetc, plain, more, Stream.getc, wire, negative]
      rw [taken] at got
      obtain ⟨first, rfl⟩ := Prod.mk.inj got
      obtain rfl := Option.some.inj first
      rcases ih plain unknown more negative with ⟨rfl, failed | closed⟩
      · exact ⟨rfl, Or.inl failed⟩
      · exact ⟨rfl, Or.inr closed⟩

theorem decodes_data (chunked : h.chunked = true) (state : h.cstate = .data) (remaining : h.chunkRemaining = n)
    (decodes : Decodes h body h') :
    h'.readFailed = true ∧ h.wire.length < n ∧ body = h.wire.bytes ∨
      n ≤ h.wire.length ∧ ∃ body', body = h.wire.bytes.take n ++ body' ∧
        Decodes { h with wire := h.wire.drop n, chunkRemaining := 0 } body' h' := by
  induction n generalizing h body with
  | zero =>
    refine Or.inr ⟨Nat.zero_le _, body, rfl, ?_⟩
    have same : ({ h with wire := h.wire.drop 0, chunkRemaining := 0 } : Stream) = h := by
      rcases h with ⟨⟩
      simp only at remaining
      subst remaining
      rfl
    rw [same]
    exact decodes
  | succ n ih =>
    have more : h.chunkRemaining ≠ 0 := by omega
    have step : h.decodeGetc = h.takeData := by simp [Stream.decodeGetc, chunked, state, more]
    cases wire : h.wire with
    | nil =>
      have failed : h.decodeGetc = (none, h.fail) := by
        rw [step, Stream.takeData, wire]
      obtain ⟨rfl, rfl⟩ := decodes.of_none failed
      exact Or.inl ⟨fail_of_chunked chunked (by simp [state]), Nat.succ_pos n, rfl⟩
    | cons byte wire' =>
      have taken : h.decodeGetc =
          (some byte, { h with wire := wire', chunkRemaining := h.chunkRemaining - 1 }) := by
        rw [step, Stream.takeData, wire]
      obtain ⟨body', rfl, rest⟩ := decodes.of_some taken
      rcases ih (h := { h with wire := wire', chunkRemaining := h.chunkRemaining - 1 }) chunked
        state (by simp only; omega) rest with ⟨failed, short, rfl⟩ | ⟨enough, body', rfl, after⟩
      · exact Or.inl ⟨failed, Nat.succ_lt_succ short, rfl⟩
      · exact Or.inr ⟨Nat.succ_le_succ enough, body', rfl, after⟩

theorem dropWhile_line {first : Wire} (before : newline ∉ first.bytes) (ends : c.1 = newline) :
    (first ++ c :: rest).dropWhile (fun c => c.1 ≠ newline) = c :: rest := by
  induction first with
  | nil => simp [ends]
  | cons head first ih =>
    simp only [Wire.bytes, List.map_cons, List.mem_cons, not_or] at before
    rw [List.cons_append, List.dropWhile_cons, if_pos (by simpa using Ne.symm before.1)]
    exact ih before.2

theorem decodes_crlf (chunked : h.chunked = true) (state : h.cstate = .data) (remaining : h.chunkRemaining = 0)
    (decodes : Decodes h body h') :
    h'.readFailed = true ∧ body = [] ∨ ∃ (first : Wire) (c : UInt8 × Bool) (rest : Wire),
      h.wire = first ++ c :: rest ∧ newline ∉ first.bytes ∧ c.1 = newline ∧
      Decodes { h with wire := rest, cstate := .size } body h' := by
  have step : h.decodeGetc = Stream.skipCrlf { h with cstate := .crlf } := by
    simp [Stream.decodeGetc, chunked, state, remaining]
  rcases wire_line h.wire with never | ⟨first, c, rest, wire, before, ends⟩
  · left
    have none' : h.wire.dropWhile (fun c => c.1 ≠ newline) = [] := by
      apply List.dropWhile_eq_nil_iff.mpr
      intro c member
      apply decide_eq_true
      intro same
      exact never (same ▸ List.mem_map_of_mem member)
    have failed : h.decodeGetc = (none, Stream.fail { h with cstate := .crlf }) := by
      rw [step, Stream.skipCrlf]
      simp only
      rw [none']
    obtain ⟨rfl, rfl⟩ := decodes.of_none failed
    exact ⟨fail_of_chunked chunked (by simp), rfl⟩
  · refine Or.inr ⟨first, c, rest, wire, before, ends, ?_⟩
    apply decodes.congr
    rw [step, Stream.skipCrlf]
    simp only
    rw [wire, dropWhile_line before ends]
    simp [Stream.decodeGetc, chunked]

@[simp] theorem bytes_append (w w' : Wire) : Wire.bytes (w ++ w') = w.bytes ++ w'.bytes :=
  List.map_append

@[simp] theorem bytes_cons (c : UInt8 × Bool) (w : Wire) : Wire.bytes (c :: w) = c.1 :: w.bytes :=
  rfl

theorem bytes_drop (w : Wire) (n : Nat) : Wire.bytes (w.drop n) = w.bytes.drop n :=
  List.map_drop

theorem SizesFit.tail {c : Chunk} (fits : SizesFit (c.bytes ++ bytes)) : SizesFit bytes := by
  rintro chunks line rest oneLine rfl
  exact fits (c :: chunks) line rest oneLine (by simp)

theorem DataFits.tail {c : Chunk} {limit : Nat} (fits : DataFits (c.bytes ++ bytes) limit) :
    DataFits bytes (limit - c.data.length) := by
  rintro chunks line rest n oneLine rfl size
  have all := fits (c :: chunks) line rest n oneLine (by simp) size
  simp only [List.flatMap_cons, List.length_append] at all
  omega

theorem decodes_chunked {limit : Nat} (chunked : h.chunked = true) (state : h.cstate = .size)
    (fits : SizesFit h.wire.bytes) (arrives : DataFits h.wire.bytes limit) (decodes : Decodes h body h') :
    body.length ≤ limit ∧ (h'.readFailed = true ∨ Chunked h.wire.bytes body) := by
  induction size : h.wire.length using Nat.strong_induction_on generalizing h body limit with
  | _ size ih =>
    subst size
    have step : h.decodeGetc = h.readSize := by simp [Stream.decodeGetc, chunked, state]
    rcases wire_line h.wire with never | ⟨first, c, rest, wire, before, ends⟩
    · have failed : h.decodeGetc = (none, h.fail) := by
        rw [step, Stream.readSize, rawLine_none never]
      obtain ⟨rfl, rfl⟩ := decodes.of_none failed
      exact ⟨Nat.zero_le _, Or.inl (fail_of_chunked chunked (by simp [state]))⟩
    · have split : h.wire.bytes = first.bytes ++ newline :: rest.bytes := by
        rw [wire, bytes_append, bytes_cons, ends]
      rcases fits [] first.bytes rest.bytes before split with ⟨short, n, stated, small⟩
      have room : min n rest.length ≤ limit := by
        have room := arrives [] first.bytes rest.bytes n before split stated
        simpa [Wire.bytes] using room
      have line : rawLine 128 h.wire [] = some (lineText first.bytes, rest) := by
        rw [wire]
        exact rawLine_of_short rfl before ends (by simpa using Nat.lt_succ_of_le short)
      have number := parseChunkSize_of_fits stated small
      by_cases spent : n = 0
      · have ended : h.decodeGetc = (none, { h with wire := rest, cstate := .done }) := by
          rw [step, Stream.readSize, line]
          simp [number, spent]
        obtain ⟨rfl, -⟩ := decodes.of_none ended
        exact ⟨Nat.zero_le _, Or.inr ⟨[], first.bytes, rest.bytes, before, spent ▸ stated, split, rfl⟩⟩
      · let inside : Stream := { h with wire := rest, chunkRemaining := n, cstate := .data }
        have entered : h.decodeGetc = inside.decodeGetc := by
          rw [step, Stream.readSize, line]
          simp [number, inside, Stream.decodeGetc, chunked, spent]
        rcases decodes_data (h := inside) chunked rfl rfl (decodes.congr entered) with
          ⟨failed, less, rfl⟩ | ⟨enough, body', rfl, after⟩
        · have less : rest.length < n := less
          have length : List.length inside.wire.bytes = rest.length := List.length_map _
          exact ⟨by omega, Or.inl failed⟩
        · have enough : n ≤ rest.length := enough
          have data : (rest.bytes.take n).length = n := by
            rw [List.length_take, Wire.bytes, List.length_map]
            omega
          rcases decodes_crlf (h := { inside with wire := inside.wire.drop n, chunkRemaining := 0 })
              chunked rfl rfl after with
            ⟨failed, rfl⟩ | ⟨junk, c', rest', wire', junkLine, ends', next⟩
          · refine ⟨?_, Or.inl failed⟩
            show (rest.bytes.take n ++ []).length ≤ limit
            rw [List.append_nil, data]
            omega
          · have wire' : rest.drop n = junk ++ c' :: rest' := wire'
            let chunk : Chunk :=
              { line := first.bytes, data := rest.bytes.take n, rest := junk.bytes
                oneLine := before, oneRest := junkLine
                size := by rw [stated, data]
                some' := by
                  intro empty
                  rw [empty] at data
                  exact spent data.symm }
            have whole : h.wire.bytes = chunk.bytes ++ Wire.bytes rest' := by
              have tail : rest.bytes.drop n = junk.bytes ++ newline :: Wire.bytes rest' := by
                rw [← bytes_drop, wire', bytes_append, bytes_cons, ends']
              have parts : rest.bytes = chunk.data ++ (junk.bytes ++ newline :: Wire.bytes rest') := by
                rw [← tail]
                exact (List.take_append_drop n _).symm
              rw [split, parts]
              simp [chunk, Chunk.bytes]
            have shorter : rest'.length < h.wire.length := by
              have length := congrArg List.length wire'
              rw [wire]
              simp only [List.length_append, List.length_cons, List.length_drop] at length ⊢
              omega
            rw [whole] at fits arrives
            rcases ih _ shorter (h := { inside with wire := rest', chunkRemaining := 0, cstate := .size })
                chunked rfl fits.tail arrives.tail next rfl with ⟨less, delivered⟩
            constructor
            · show (chunk.data ++ body').length ≤ limit
              have first' : chunk.data.length = n := data
              rw [List.length_append]
              omega
            · rcases delivered with failed | ⟨chunks, last, trailer, lastLine, zero, bytes, rfl⟩
              · exact Or.inl failed
              · refine Or.inr ⟨chunk :: chunks, last, trailer, lastLine, zero, ?_, rfl⟩
                have bytes : Wire.bytes rest' = _ := bytes
                rw [whole, bytes]
                simp

/-! ### A complete body is delivered -/

theorem decodes_of_data (chunked : h.chunked = true) (state : h.cstate = .data) (remaining : h.chunkRemaining = n)
    (enough : n ≤ h.wire.length) (decodes : Decodes { h with wire := h.wire.drop n, chunkRemaining := 0 } body h') :
    Decodes h (h.wire.bytes.take n ++ body) h' := by
  induction n generalizing h with
  | zero =>
    have same : ({ h with wire := h.wire.drop 0, chunkRemaining := 0 } : Stream) = h := by
      rcases h with ⟨⟩
      simp only at remaining
      subst remaining
      rfl
    rw [same] at decodes
    exact decodes
  | succ n ih =>
    cases wire : h.wire with
    | nil =>
      rw [wire] at enough
      exact absurd enough (Nat.not_succ_le_zero n)
    | cons byte wire' =>
      rw [wire] at enough decodes
      have taken : h.decodeGetc =
          (some byte, { h with wire := wire', chunkRemaining := h.chunkRemaining - 1 }) := by
        have more : h.chunkRemaining ≠ 0 := by omega
        simp [Stream.decodeGetc, chunked, state, more, Stream.takeData, wire]
      apply Decodes.byte taken
      exact ih (h := { h with wire := wire', chunkRemaining := h.chunkRemaining - 1 }) chunked state
        (by simp only; omega) (Nat.le_of_succ_le_succ enough) decodes

theorem decodes_of_crlf {first : Wire} (chunked : h.chunked = true) (state : h.cstate = .data)
    (remaining : h.chunkRemaining = 0) (wire : h.wire = first ++ c :: rest) (before : newline ∉ first.bytes)
    (ends : c.1 = newline) (decodes : Decodes { h with wire := rest, cstate := .size } body h') :
    Decodes h body h' := by
  apply decodes.congr
  have step : h.decodeGetc = Stream.skipCrlf { h with cstate := .crlf } := by
    simp [Stream.decodeGetc, chunked, state, remaining]
  rw [step, Stream.skipCrlf]
  simp only
  rw [wire, dropWhile_line before ends]
  simp [Stream.decodeGetc, chunked]

theorem wire_append {w : Wire} {a b : Text} (bytes : w.bytes = a ++ b) :
    ∃ w₁ w₂ : Wire, w = w₁ ++ w₂ ∧ w₁.bytes = a ∧ w₂.bytes = b :=
  List.map_eq_append_iff.mp bytes

theorem wire_cons {w : Wire} {a : UInt8} {b : Text} (bytes : w.bytes = a :: b) :
    ∃ (c : UInt8 × Bool) (w' : Wire), w = c :: w' ∧ c.1 = a ∧ w'.bytes = b :=
  List.map_eq_cons_iff.mp bytes

theorem decodes_of_chunks {chunks : List Chunk} {last trailer : Text} (chunked : h.chunked = true)
    (state : h.cstate = .size) (fits : SizesFit h.wire.bytes) (lastLine : newline ∉ last)
    (zero : chunkSize (lineText last) = some 0)
    (bytes : h.wire.bytes = chunks.flatMap Chunk.bytes ++ (last ++ newline :: trailer)) :
    ∃ h', Decodes h (chunks.flatMap Chunk.data) h' := by
  have step : h.decodeGetc = h.readSize := by simp [Stream.decodeGetc, chunked, state]
  induction chunks generalizing h with
  | nil =>
    rcases fits [] last trailer lastLine bytes with ⟨short, n, stated, small⟩
    obtain rfl : 0 = n := Option.some.inj (zero.symm.trans stated)
    have bytes : h.wire.bytes = last ++ newline :: trailer := bytes
    rcases wire_append bytes with ⟨first, more, wire, rfl, carried⟩
    rcases wire_cons carried with ⟨c, rest, rfl, ends, -⟩
    have line : rawLine 128 h.wire [] = some (lineText first.bytes, rest) := by
      rw [wire]
      exact rawLine_of_short rfl lastLine ends (by simpa using Nat.lt_succ_of_le short)
    refine ⟨{ h with wire := rest, cstate := .done }, .stop ?_⟩
    rw [step, Stream.readSize, line]
    simp [parseChunkSize_of_fits stated small]
  | cons chunk chunks ih =>
    rw [List.flatMap_cons, Chunk.bytes] at bytes
    simp only [List.append_assoc, List.cons_append] at bytes
    rcases fits [] chunk.line _ chunk.oneLine bytes with ⟨short, n, stated, small⟩
    obtain rfl : chunk.data.length = n := Option.some.inj (chunk.size.symm.trans stated)
    have whole : h.wire.bytes = chunk.bytes ++
        (chunks.flatMap Chunk.bytes ++ (last ++ newline :: trailer)) := by
      rw [bytes, Chunk.bytes]
      simp
    rcases wire_append bytes with ⟨first, more, wire, line, carried⟩
    rcases wire_cons carried with ⟨c, rest, rfl, ends, carried⟩
    have read : rawLine 128 h.wire [] = some (lineText chunk.line, rest) := by
      rw [wire]
      exact rawLine_of_short line chunk.oneLine ends (by simpa using Nat.lt_succ_of_le short)
    have data : rest.bytes.take chunk.data.length = chunk.data := by
      rw [carried, List.take_left]
    have length : chunk.data.length ≤ rest.length := by
      have all := congrArg List.length carried
      rw [Wire.bytes, List.length_map, List.length_append] at all
      omega
    have positive : chunk.data.length ≠ 0 := fun empty => chunk.some' (List.eq_nil_of_length_eq_zero empty)
    have left : Wire.bytes (rest.drop chunk.data.length) =
        chunk.rest ++ newline :: (chunks.flatMap Chunk.bytes ++ (last ++ newline :: trailer)) := by
      rw [bytes_drop, carried, List.drop_left]
      simp
    rcases wire_append left with ⟨junk, more, wire', junkLine, carried'⟩
    rcases wire_cons carried' with ⟨c', rest', rfl, ends', carried'⟩
    let inside : Stream := { h with wire := rest, chunkRemaining := chunk.data.length, cstate := .data }
    let next : Stream := { inside with wire := rest', chunkRemaining := 0, cstate := .size }
    rw [whole] at fits
    rcases ih (h := next) chunked rfl (by rw [show next.wire.bytes = _ from carried']; exact fits.tail)
      carried' (by simp [Stream.decodeGetc, chunked, next, inside]) with ⟨h', later⟩
    refine ⟨h', ?_⟩
    have entered : inside.decodeGetc = h.decodeGetc := by
      rw [step, Stream.readSize, read]
      simp [parseChunkSize_of_fits stated small, inside, Stream.decodeGetc, chunked, positive]
    have after : Decodes { inside with wire := inside.wire.drop chunk.data.length, chunkRemaining := 0 }
        (chunks.flatMap Chunk.data) h' :=
      decodes_of_crlf (c := c') chunked rfl rfl wire' (junkLine ▸ chunk.oneRest) ends' later
    have delivered := decodes_of_data (h := inside) chunked rfl rfl length after
    rw [show inside.wire.bytes.take chunk.data.length = chunk.data from data] at delivered
    exact delivered.congr entered

theorem decodes_of_whole (state : h.chunked = true → h.cstate = .size)
    (sizes : h.chunked = true → SizesFit h.wire.bytes)
    (whole : WholeBody { chunked := h.chunked, contentLen := h.contentRemaining } h.wire.bytes true body) :
    ∃ h', Decodes h body h' := by
  unfold WholeBody at whole
  split at whole
  · rename_i chunked
    rcases whole with ⟨chunks, last, trailer, lastLine, zero, bytes, rfl⟩
    exact decodes_of_chunks chunked (state chunked) (sizes chunked) lastLine zero bytes
  · rename_i plain
    have plain : h.chunked = false := by simpa using plain
    rcases decodes_total h with ⟨body', h', decodes⟩
    split at whole
    · rename_i known
      have same := (decodes_length plain (Int.toNat_of_nonneg known).symm decodes).1
      rw [whole.2, ← same]
      exact ⟨h', decodes⟩
    · rename_i unknown
      have same := (decodes_close plain (by simpa using unknown) decodes).1
      rw [whole.2, ← same]
      exact ⟨h', decodes⟩

end CognitiveOs.Http
