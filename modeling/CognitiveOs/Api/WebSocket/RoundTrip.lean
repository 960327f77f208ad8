import CognitiveOs.Infra.Text
import Mathlib.Algebra.Group.Nat.Defs
import Mathlib.Data.List.OfFn

/-!
# WebSocket frames

`ws_build_frame` and `ws_parse_frame` of `api/websocket.c`, and `ws_frame_len` of
`api/ws_server.c`: a builder and two readers of one format.
-/

namespace CognitiveOs.Api.WebSocket

open Infra

/-- A masking key. -/
abbrev Key := Fin 4 → UInt8

def masked (key : Key) (data : Text) : Text :=
  data.mapIdx fun j byte => byte ^^^ key (Fin.ofNat 4 j)

def lengthBytes (count len : Nat) : Text :=
  (List.range count).map fun i => (len / 256 ^ (count - 1 - i)).toUInt8

/-- A `size_t` shifted together from bytes. -/
def bigEndian (bytes : Text) : Nat :=
  bytes.foldl (fun n byte => (n * 256 + byte.toNat) % 2 ^ 64) 0

/-- A message to be framed, with the key when it is masked. What the allocated memory holds
before it is written is `stale`. -/
structure Outgoing where
  opcode : Nat
  payload : Text
  key : Option Key
  stale : Nat → UInt8

namespace Outgoing

variable (m : Outgoing)

/-- The bytes that are allocated, and the `out_len` that is reported. -/
def outLen : Nat :=
  2 + (if 126 ≤ m.payload.length then 2 else 0) + (if 65536 ≤ m.payload.length then 8 else 0) +
    (if m.key.isSome then 4 else 0) + m.payload.length

def maskBit : Nat :=
  if m.key.isSome then 0x80 else 0

def lengthPart : Text :=
  let len := m.payload.length
  if len < 126 then [(m.maskBit ||| len).toUInt8]
  else if len < 65536 then (m.maskBit ||| 126).toUInt8 :: lengthBytes 2 len
  else (m.maskBit ||| 127).toUInt8 :: lengthBytes 8 len

def keyPart : Text :=
  match m.key with
  | some key => List.ofFn key
  | none => []

def dataPart : Text :=
  match m.key with
  | some key => masked key m.payload
  | none => m.payload

def written : Text :=
  (0x80 ||| (m.opcode &&& 0x0F)).toUInt8 :: (m.lengthPart ++ (m.keyPart ++ m.dataPart))

/-- `ws_build_frame`: the `out_len` bytes of the buffer. -/
def frame : Text :=
  m.written ++ (List.range (m.outLen - m.written.length)).map m.stale

end Outgoing

structure Frame where
  fin : Bool
  opcode : Nat
  payload : Text
  consumed : Nat
  deriving DecidableEq

def statedLength : Text → Option (Nat × Nat)
  | _ :: second :: rest =>
    let plen := second.toNat % 128
    if plen = 126 then
      if rest.length < 2 then none else some (bigEndian (rest.take 2), 4)
    else if plen = 127 then
      if rest.length < 8 then none else some (bigEndian (rest.take 8), 10)
    else some (plen, 2)
  | _ => none

def isMasked (buf : Text) : Bool :=
  buf[1]?.any fun second => 128 ≤ second.toNat

def keyAt (buf : Text) (off : Nat) : Key :=
  fun i => buf.getD (off + i.val) 0

def wsParseFrame (buf : Text) : Option Frame :=
  match statedLength buf, buf with
  | some (plen, off), first :: _ =>
    let start := if isMasked buf then off + 4 else off
    if buf.length < start ∨ buf.length < (start + plen) % 2 ^ 64 then none
    else
      let data := (buf.drop start).take plen
      some
        { fin := decide (128 ≤ first.toNat)
          opcode := first.toNat % 16
          payload := if isMasked buf then masked (keyAt buf off) data else data
          consumed := start + plen }
  | _, _ => none

def maxWsPayload : Nat :=
  1024 * 1024

inductive FrameLen where
  | incomplete
  | tooLong
  | total (wire payload : Nat)
  deriving DecidableEq

def wsFrameLen (buf : Text) : FrameLen :=
  match statedLength buf with
  | none => .incomplete
  | some (plen, off) =>
    if maxWsPayload < plen ∨ 2 ^ 64 - 1 - off - 4 < plen then .tooLong
    else
      let start := if isMasked buf then off + 4 else off
      if buf.length < start + plen then .incomplete else .total (start + plen) plen

/-! ### The header of a built frame -/

theorem masked_masked (key : Key) (data : Text) : masked key (masked key data) = data := by
  unfold masked
  apply List.ext_getElem
  · simp
  · intro i _ _
    simp [UInt8.xor_assoc]

@[simp] theorem length_masked (key : Key) (data : Text) : (masked key data).length = data.length :=
  List.length_mapIdx

@[simp] theorem length_lengthBytes (count len : Nat) : (lengthBytes count len).length = count := by
  simp [lengthBytes]

theorem bigEndian_two {len : Nat} (small : len < 65536) : bigEndian (lengthBytes 2 len) = len := by
  simp [bigEndian, lengthBytes, List.range_succ, UInt8.toNat_ofNat']
  omega

theorem bigEndian_eight (len : Nat) : bigEndian (lengthBytes 8 len) = len % 2 ^ 64 := by
  simp [bigEndian, lengthBytes, List.range_succ, UInt8.toNat_ofNat']
  omega

namespace Outgoing

variable {m : Outgoing}

theorem lengthPart_eq (m : Outgoing) :
    ∃ second ext, m.lengthPart = second :: ext ∧ decide (128 ≤ second.toNat) = m.key.isSome ∧
      ext.length = (if 126 ≤ m.payload.length then if 65536 ≤ m.payload.length then 8 else 2 else 0) ∧
      ∀ first s, statedLength (first :: second :: (ext ++ s)) =
        some (m.payload.length % 2 ^ 64, 2 + ext.length) := by
  have marked (low : Nat) (small : low < 128) :
      (m.maskBit ||| low).toUInt8.toNat % 128 = low ∧
        decide (128 ≤ (m.maskBit ||| low).toUInt8.toNat) = m.key.isSome := by
    unfold maskBit
    cases m.key.isSome with
    | true =>
      have all : ∀ low < 128, (0x80 ||| low).toUInt8.toNat % 128 = low ∧
          128 ≤ (0x80 ||| low).toUInt8.toNat := by
        decide
      simpa using all low small
    | false =>
      have all : ∀ low < 128, (0 ||| low).toUInt8.toNat % 128 = low ∧
          ¬ 128 ≤ (0 ||| low).toUInt8.toNat := by
        decide
      simpa using all low small
  unfold lengthPart
  by_cases short : m.payload.length < 126
  · obtain ⟨low, bit⟩ := marked _ (show m.payload.length < 128 by omega)
    refine ⟨_, [], by simp [short], bit, ?_, ?_⟩
    · rw [if_neg (by omega), List.length_nil]
    · intro first s
      simp only [statedLength, low]
      rw [if_neg (by omega), if_neg (by omega), Nat.mod_eq_of_lt (by omega), List.length_nil]
  · by_cases middle : m.payload.length < 65536
    · obtain ⟨low, bit⟩ := marked 126 (by decide)
      refine ⟨_, lengthBytes 2 m.payload.length, by simp [short, middle], bit, ?_, ?_⟩
      · rw [if_pos (by omega), if_neg (by omega), length_lengthBytes]
      · intro first s
        simp only [statedLength, low]
        rw [if_pos trivial, if_neg (by rw [List.length_append, length_lengthBytes]; omega),
          List.take_left' (length_lengthBytes ..), bigEndian_two middle,
          Nat.mod_eq_of_lt (by omega), length_lengthBytes]
    · obtain ⟨low, bit⟩ := marked 127 (by decide)
      refine ⟨_, lengthBytes 8 m.payload.length, by simp [short, middle], bit, ?_, ?_⟩
      · rw [if_pos (by omega), if_pos (by omega), length_lengthBytes]
      · intro first s
        simp only [statedLength, low]
        rw [if_neg (by decide), if_pos trivial, if_neg (by rw [List.length_append, length_lengthBytes]; omega),
          List.take_left' (length_lengthBytes ..),
          bigEndian_eight, length_lengthBytes]

@[simp] theorem length_keyPart (m : Outgoing) : m.keyPart.length = if m.key.isSome then 4 else 0 := by
  unfold keyPart
  cases m.key <;> simp

@[simp] theorem length_dataPart (m : Outgoing) : m.dataPart.length = m.payload.length := by
  unfold dataPart
  cases m.key <;> simp

theorem length_written (m : Outgoing) :
    m.written.length = if 65536 ≤ m.payload.length then m.outLen - 2 else m.outLen := by
  obtain ⟨second, ext, part, -, length, -⟩ := m.lengthPart_eq
  unfold written outLen
  simp only [List.length_cons, List.length_append, part, length_keyPart, length_dataPart, length]
  split_ifs <;> omega

theorem frame_eq (small : m.payload.length < 65536) : m.frame = m.written := by
  unfold frame
  rw [length_written, if_neg (by omega)]
  simp

theorem start_eq (m : Outgoing) (s : Text) :
    ∃ first second ext, m.written ++ s = first :: second :: (ext ++ (m.keyPart ++ (m.dataPart ++ s))) ∧
      first = (0x80 ||| (m.opcode &&& 0x0F)).toUInt8 ∧
      isMasked (m.written ++ s) = m.key.isSome ∧
      2 + ext.length + (if m.key.isSome then 4 else 0) + m.payload.length = m.written.length ∧
      statedLength (m.written ++ s) = some (m.payload.length % 2 ^ 64, 2 + ext.length) := by
  obtain ⟨second, ext, part, bit, -, stated⟩ := m.lengthPart_eq
  have same : m.written ++ s = (0x80 ||| (m.opcode &&& 0x0F)).toUInt8 :: second ::
      (ext ++ (m.keyPart ++ (m.dataPart ++ s))) := by
    unfold written
    rw [part]
    simp
  refine ⟨_, second, ext, same, rfl, ?_, ?_, ?_⟩
  · rw [same]
    exact bit
  · unfold written
    simp only [List.length_cons, List.length_append, part, length_keyPart, length_dataPart]
    omega
  · rw [same, stated]

theorem keyAt_start (key : Key) (first second : UInt8) (ext s : Text) :
    keyAt (first :: second :: (ext ++ (List.ofFn key ++ s))) (2 + ext.length) = key := by
  funext i
  unfold keyAt
  have place : 2 + ext.length + i.val = (ext.length + i.val) + 1 + 1 := by omega
  have behind : ext.length ≤ ext.length + i.val := by omega
  have inside : i.val < (List.ofFn key).length := by simp
  rw [place, List.getD_cons_succ, List.getD_cons_succ, List.getD_eq_getElem?_getD,
    List.getElem?_append_right behind, Nat.add_sub_cancel_left, List.getElem?_append_left inside,
    List.getElem?_eq_getElem inside, List.getElem_ofFn]
  rfl

theorem first_byte {opcode : Nat} (small : opcode < 16) :
    decide (128 ≤ (0x80 ||| (opcode &&& 0x0F)).toUInt8.toNat) = true ∧
      (0x80 ||| (opcode &&& 0x0F)).toUInt8.toNat % 16 = opcode := by
  have all : ∀ opcode < 16, decide (128 ≤ (0x80 ||| (opcode &&& 0x0F)).toUInt8.toNat) = true ∧
      (0x80 ||| (opcode &&& 0x0F)).toUInt8.toNat % 16 = opcode := by
    decide
  exact all opcode small

theorem take_data (first second : UInt8) (front data : Text) {n : Nat} (all : n = data.length) :
    ((first :: second :: (front ++ data)).drop (2 + front.length)).take n = data := by
  rw [Nat.add_comm, List.drop_succ_cons, List.drop_succ_cons, List.drop_left' rfl, all, List.take_length]

theorem parse_written (opcode : m.opcode < 16) (small : m.payload.length < 65536) :
    wsParseFrame m.written =
      some { fin := true, opcode := m.opcode, payload := m.payload, consumed := m.written.length } := by
  obtain ⟨first, second, ext, same, head, bit, length, stated⟩ := m.start_eq []
  rw [List.append_nil] at same bit stated
  obtain ⟨fin, low⟩ := first_byte opcode
  rw [← head] at fin low
  have plen : m.payload.length % 2 ^ 64 = m.payload.length := Nat.mod_eq_of_lt (by omega)
  have extSmall : m.written.length < 2 ^ 64 := by
    rw [length_written, if_neg (by omega)]
    unfold outLen
    split_ifs <;> omega
  rw [plen] at stated
  unfold wsParseFrame
  rw [stated]
  cases given : m.key with
  | none =>
    have noKey : m.keyPart = [] := by simp [keyPart, given]
    have data : m.dataPart = m.payload := by simp [dataPart, given]
    rw [given, Option.isSome_none] at bit length
    rw [if_neg Bool.false_ne_true, Nat.add_zero] at length
    rw [noKey, data, List.append_nil, List.nil_append] at same
    have rest := take_data first second ext m.payload rfl
    simp only [bit, Bool.false_eq_true, if_false]
    rw [same] at length extSmall ⊢
    simp only
    rw [if_neg, rest, fin, low, length]
    rw [length, Nat.mod_eq_of_lt extSmall]
    omega
  | some key =>
    have keyed : m.keyPart = List.ofFn key := by simp [keyPart, given]
    have data : m.dataPart = masked key m.payload := by simp [dataPart, given]
    rw [given, Option.isSome_some] at bit length
    rw [if_pos rfl] at length
    rw [keyed, data, List.append_nil] at same
    have rest := take_data first second (ext ++ List.ofFn key) (masked key m.payload)
      (length_masked key m.payload).symm
    have front : 2 + (ext ++ List.ofFn key).length = 2 + ext.length + 4 := by
      simp only [List.length_append, List.length_ofFn]
      omega
    rw [front, List.append_assoc] at rest
    simp only [bit, if_true]
    rw [same] at length extSmall ⊢
    simp only
    rw [if_neg, rest, keyAt_start, masked_masked, fin, low, length]
    rw [length, Nat.mod_eq_of_lt extSmall]
    omega

end Outgoing

end CognitiveOs.Api.WebSocket

/-!
## What is built is read back

A built frame of less than 65536 bytes is read back by both readers. For a longer payload the
builder allocates the two bytes of the middle length class as well and does not write them.
-/

namespace CognitiveOs.Api.WebSocket

open Infra

/-- The messages of a buffer, each frame cut off at the length that `ws_frame_len` finds. -/
def decodeFrames : Nat → Text → Option (List (Nat × Text))
  | _, [] => some []
  | 0, _ => none
  | fuel + 1, buf =>
    match wsFrameLen buf with
    | .total total _ =>
      match wsParseFrame (buf.take total) with
      | some f => (decodeFrames fuel (buf.drop total)).map ((f.opcode, f.payload) :: ·)
      | none => none
    | _ => none

/-- A message comes back from its frame, and both readers take all of the frame. -/
structure ReadBack (m : Outgoing) : Prop where
  parsed : wsParseFrame m.frame =
    some { fin := true, opcode := m.opcode, payload := m.payload, consumed := m.outLen }
  scanned : ∀ rest, wsFrameLen (m.frame ++ rest) = .total m.outLen m.payload.length

/-- The messages come back from their frames, one by one and behind each other. -/
structure RoundTrip (messages : List Outgoing) : Prop where
  each : ∀ m ∈ messages, ReadBack m
  decoded : ∀ fuel, messages.length ≤ fuel →
    decodeFrames fuel (messages.flatMap Outgoing.frame) =
      some (messages.map fun m => (m.opcode, m.payload))

variable {m : Outgoing}

theorem length_frame_of_small (small : m.payload.length < 65536) : m.frame.length = m.outLen := by
  rw [Outgoing.frame_eq small, Outgoing.length_written, if_neg (by omega)]

theorem wsFrameLen_frame (small : m.payload.length < 65536) (rest : Text) :
    wsFrameLen (m.frame ++ rest) = .total m.outLen m.payload.length := by
  have out := length_frame_of_small small
  rw [Outgoing.frame_eq small] at out ⊢
  obtain ⟨first, second, ext, -, -, bit, length, stated⟩ := m.start_eq rest
  have extSmall : 2 + ext.length ≤ m.outLen := by omega
  have plen : m.payload.length % 2 ^ 64 = m.payload.length := Nat.mod_eq_of_lt (by omega)
  have header : m.outLen ≤ m.payload.length + 8 := by
    unfold Outgoing.outLen
    split_ifs <;> omega
  have start : (if m.key.isSome then 2 + ext.length + 4 else 2 + ext.length) + m.payload.length = m.outLen := by
    rw [← out, ← length]
    split_ifs <;> omega
  unfold wsFrameLen
  rw [stated]
  simp only [bit, plen]
  rw [if_neg, start, if_neg]
  · rw [List.length_append, out]
    omega
  · unfold maxWsPayload
    omega

theorem readBack (opcode : m.opcode < 16) (small : m.payload.length < 65536) : ReadBack m where
  parsed := by
    rw [← length_frame_of_small small, Outgoing.frame_eq small]
    exact Outgoing.parse_written opcode small
  scanned := wsFrameLen_frame small

theorem consumed_le {s : Text} {f : Frame} (parsed : wsParseFrame (m.written ++ s) = some f) :
    f.consumed ≤ m.written.length := by
  obtain ⟨first, second, ext, same, -, bit, length, stated⟩ := m.start_eq s
  have stays : m.payload.length % 2 ^ 64 ≤ m.payload.length := Nat.mod_le ..
  unfold wsParseFrame at parsed
  rw [stated] at parsed
  simp only [bit] at parsed
  rw [same] at parsed
  simp only [Option.ite_none_left_eq_some, Option.some.injEq] at parsed
  obtain ⟨-, rfl⟩ := parsed
  simp only
  split_ifs at length ⊢ <;> omega

theorem small_of_readBack (back : ReadBack m) : m.payload.length < 65536 := by
  by_contra large
  have taken : m.outLen ≤ m.written.length := consumed_le back.parsed
  rw [Outgoing.length_written, if_pos (by omega)] at taken
  have header : 2 ≤ m.outLen := by
    unfold Outgoing.outLen
    omega
  omega

theorem decodeFrames_frame (opcode : m.opcode < 16) (small : m.payload.length < 65536) (fuel : Nat) (rest : Text) :
    decodeFrames (fuel + 1) (m.frame ++ rest) =
      (decodeFrames fuel rest).map ((m.opcode, m.payload) :: ·) := by
  have back := readBack opcode small
  have out := length_frame_of_small small
  have nonempty : ∃ first more, m.frame ++ rest = first :: more := by
    rw [Outgoing.frame_eq small]
    exact ⟨_, _, rfl⟩
  obtain ⟨first, more, cons⟩ := nonempty
  rw [cons, decodeFrames, ← cons, back.scanned rest]
  · simp only
    rw [← out, List.take_left' rfl, List.drop_left' rfl, back.parsed]
  · exact List.cons_ne_nil first more

theorem decodeFrames_flatMap (messages : List Outgoing) (opcodes : ∀ m ∈ messages, m.opcode < 16)
    (small : ∀ m ∈ messages, m.payload.length < 65536) (fuel : Nat) (enough : messages.length ≤ fuel) :
    decodeFrames fuel (messages.flatMap Outgoing.frame) =
      some (messages.map fun m => (m.opcode, m.payload)) := by
  induction messages generalizing fuel with
  | nil =>
    unfold decodeFrames
    rfl
  | cons m messages ih =>
    obtain ⟨opcode, opcodes⟩ := List.forall_mem_cons.mp opcodes
    obtain ⟨short, small⟩ := List.forall_mem_cons.mp small
    cases fuel with
    | zero => exact absurd enough (by simp)
    | succ fuel =>
      have rest := ih opcodes small fuel (Nat.le_of_succ_le_succ enough)
      rw [List.flatMap_cons, decodeFrames_frame opcode short, rest]
      rfl

/-- A list of messages survives its frames exactly when every payload is shorter than 65536 bytes. -/
theorem roundTrip_iff (messages : List Outgoing) (opcodes : ∀ m ∈ messages, m.opcode < 16) :
    RoundTrip messages ↔ ∀ m ∈ messages, m.payload.length < 65536 := by
  constructor
  · intro back m member
    exact small_of_readBack (back.each m member)
  · intro small
    exact
      { each := fun m member => readBack (opcodes m member) (small m member)
        decoded := decodeFrames_flatMap messages opcodes small }

def greeting : Outgoing :=
  { opcode := 1, payload := [104, 105], key := some fun i => i.val.toUInt8, stale := fun _ => 0 }

theorem roundTrip_greeting : RoundTrip [greeting] ↔ ∀ m ∈ [greeting], m.payload.length < 65536 :=
  roundTrip_iff [greeting] (by decide)

def longMessage : Outgoing :=
  { opcode := 2, payload := List.replicate 65536 0, key := none, stale := fun _ => 0 }

/-- The parser stops two bytes before the end of a frame. -/
theorem longMessage_not_readBack : longMessage.opcode < 16 ∧ ¬ RoundTrip [longMessage] := by
  refine ⟨by decide, ?_⟩
  intro back
  have small : (List.replicate 65536 (0 : UInt8)).length < 65536 :=
    small_of_readBack (back.each longMessage (List.mem_singleton_self _))
  rw [List.length_replicate] at small
  exact absurd small (by decide)

end CognitiveOs.Api.WebSocket
