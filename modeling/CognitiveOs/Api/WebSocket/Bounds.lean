import CognitiveOs.Api.WebSocket.Client
import Mathlib.Data.List.Basic

/-!
# What the frame readers read

`ws_parse_frame` and `ws_frame_len` with every byte they fetch checked against the
buffer. The scanner never leaves it; the parser does when the stated length makes its
own length check wrap around.
-/

namespace CognitiveOs.Api.WebSocket

open Infra

/-- `buf[off]`; a read outside the buffer stops with the place. -/
def readByte (buf : Text) (off : Nat) : Except Nat UInt8 :=
  match buf[off]? with
  | some byte => .ok byte
  | none => .error off

/-- The bytes from `off` on, one after the other. -/
def readBytes (buf : Text) (off : Nat) : (count : Nat) → Except Nat Text
  | 0 => .ok []
  | count + 1 =>
    match readByte buf off with
    | .ok byte =>
      match readBytes buf (off + 1) count with
      | .ok rest => .ok (byte :: rest)
      | .error outside => .error outside
    | .error outside => .error outside

/-- The length field, as both functions read it: the length and the offset behind it. -/
def readLength (buf : Text) : Except Nat (Option (Nat × Nat)) :=
  if buf.length < 2 then .ok none
  else
    match readByte buf 1 with
    | .error outside => .error outside
    | .ok second =>
      let plen := second.toNat % 128
      if plen = 126 then
        if buf.length < 4 then .ok none
        else (readBytes buf 2 2).map fun bytes => some (bigEndian bytes, 4)
      else if plen = 127 then
        if buf.length < 10 then .ok none
        else (readBytes buf 2 8).map fun bytes => some (bigEndian bytes, 10)
      else .ok (some (plen, 2))

/-- The key of a masked frame, with the offset behind it; `none` when it is not all there. -/
def readKey (buf : Text) (off : Nat) : Except Nat (Option (Key × Nat)) :=
  if isMasked buf then
    if buf.length < off + 4 then .ok none
    else (readBytes buf off 4).map fun bytes => some (fun i => bytes.getD i.val 0, off + 4)
  else .ok (some (fun _ => 0, off))

/-- `ws_parse_frame`, byte by byte. The sum of the last length check is a `size_t`. -/
def parseFrameReads (buf : Text) : Except Nat (Option Frame) :=
  match readLength buf with
  | .error outside => .error outside
  | .ok none => .ok none
  | .ok (some (plen, off)) =>
    match readByte buf 0, readKey buf off with
    | .error outside, _ => .error outside
    | .ok _, .error outside => .error outside
    | .ok _, .ok none => .ok none
    | .ok first, .ok (some (key, start)) =>
      if buf.length < (start + plen) % 2 ^ 64 then .ok none
      else
        (readBytes buf start plen).map fun data =>
          some
            { fin := decide (128 ≤ first.toNat)
              opcode := first.toNat % 16
              payload := if isMasked buf then masked key data else data
              consumed := start + plen }

/-- `ws_frame_len`, byte by byte. -/
def frameLenReads (buf : Text) : Except Nat FrameLen :=
  match readLength buf with
  | .error outside => .error outside
  | .ok none => .ok .incomplete
  | .ok (some (plen, off)) =>
    if maxWsPayload < plen ∨ 2 ^ 64 - 1 - off - 4 < plen then .ok .tooLong
    else
      let start := if isMasked buf then off + 4 else off
      if buf.length < (start + plen) % 2 ^ 64 then .ok .incomplete else .ok (.total (start + plen) plen)

variable {buf : Text} {off : Nat}

theorem readByte_inside (inside : off < buf.length) : readByte buf off = .ok buf[off] := by
  rw [readByte, List.getElem?_eq_getElem inside]

theorem readBytes_inside {count : Nat} (inside : off + count ≤ buf.length) :
    readBytes buf off count = .ok ((buf.drop off).take count) := by
  induction count generalizing off with
  | zero => rfl
  | succ count ih =>
    have here : off < buf.length := by omega
    rw [readBytes, readByte_inside here, List.drop_eq_getElem_cons here, List.take_succ_cons]
    simp only
    rw [ih (by omega)]

theorem readBytes_outside {count : Nat} (start : off ≤ buf.length) (outside : buf.length < off + count) :
    readBytes buf off count = .error buf.length := by
  induction count generalizing off with
  | zero => omega
  | succ count ih =>
    rw [readBytes]
    by_cases here : off < buf.length
    · rw [readByte_inside here]
      simp only
      rw [ih (by omega) (by omega)]
    · obtain rfl : off = buf.length := by omega
      rw [readByte, List.getElem?_eq_none (Nat.le_refl _)]

theorem readLength_eq (buf : Text) : readLength buf = .ok (statedLength buf) := by
  unfold readLength
  match buf with
  | [] => rfl
  | [_] => rfl
  | first :: second :: rest =>
    rw [if_neg (by simp), readByte_inside (by simp)]
    simp only [statedLength, List.getElem_cons_succ, List.getElem_cons_zero]
    split
    · by_cases short : rest.length < 2
      · rw [if_pos (by simp; omega), if_pos short]
      · rw [if_neg (by simp; omega), if_neg short, readBytes_inside (by simp; omega)]
        rfl
    · split
      · by_cases short : rest.length < 8
        · rw [if_pos (by simp; omega), if_pos short]
        · rw [if_neg (by simp; omega), if_neg short, readBytes_inside (by simp; omega)]
          rfl
      · rfl

def payloadStart (buf : Text) (off : Nat) : Nat :=
  if isMasked buf then off + 4 else off

theorem readKey_short (inside : off ≤ buf.length) (short : buf.length < payloadStart buf off) :
    readKey buf off = .ok none := by
  unfold payloadStart at short
  unfold readKey
  split at short
  next mask => rw [if_pos mask, if_pos short]
  next => omega

theorem readKey_long (header : payloadStart buf off ≤ buf.length) :
    readKey buf off = .ok (some (if isMasked buf then keyAt buf off else fun _ => 0, payloadStart buf off)) := by
  unfold payloadStart at header ⊢
  unfold readKey
  split at header
  next mask =>
    have key : (fun i : Fin 4 => ((buf.drop off).take 4).getD i.val 0) = keyAt buf off := by
      funext i
      have bound := i.isLt
      simp [keyAt, List.getD_eq_getElem?_getD, bound]
    rw [if_pos mask, if_neg (by omega), readBytes_inside (by omega), Except.map, key, if_pos mask, if_pos mask]
  next plain => rw [if_neg plain, if_neg plain, if_neg plain]

variable {plen : Nat}

theorem payloadStart_bounds (stated : statedLength buf = some (plen, off)) :
    off ≤ payloadStart buf off ∧ payloadStart buf off ≤ 14 := by
  have := statedLength_bounds stated
  unfold payloadStart
  split <;> omega

/-- The header is all there and its size with the stated length reaches `2 ^ 64`. -/
def Wraps (buf : Text) : Prop :=
  ∃ plen off, statedLength buf = some (plen, off) ∧ payloadStart buf off ≤ buf.length ∧
    2 ^ 64 ≤ payloadStart buf off + plen

theorem bigEndian_lt (bytes : Text) : bigEndian bytes < 2 ^ 64 := by
  unfold bigEndian
  rcases List.eq_nil_or_concat' bytes with rfl | ⟨front, last, rfl⟩
  · decide
  · rw [List.foldl_append]
    exact Nat.mod_lt _ (by decide)

theorem statedLength_lt (stated : statedLength buf = some (plen, off)) : plen < 2 ^ 64 := by
  match buf with
  | [] => cases stated
  | [_] => cases stated
  | first :: second :: rest =>
    simp only [statedLength] at stated
    split_ifs at stated <;> cases stated
    · exact bigEndian_lt _
    · exact bigEndian_lt _
    · omega

/-- What `ws_parse_frame` reports for a complete header and the bytes behind it. -/
def frameOf (buf : Text) (off plen : Nat) (data : Text) : Frame where
  fin := decide (128 ≤ (buf.getD 0 0).toNat)
  opcode := (buf.getD 0 0).toNat % 16
  payload := if isMasked buf then masked (keyAt buf off) data else data
  consumed := payloadStart buf off + plen

theorem parseFrameReads_some (stated : statedLength buf = some (plen, off))
    (header : payloadStart buf off ≤ buf.length) :
    parseFrameReads buf =
      if buf.length < (payloadStart buf off + plen) % 2 ^ 64 then .ok none
      else (readBytes buf (payloadStart buf off) plen).map fun data => some (frameOf buf off plen data) := by
  have nonempty : 0 < buf.length := by have := statedLength_bounds stated; omega
  have first : buf.getD 0 0 = buf[0] := by simp [List.getD_eq_getElem?_getD, nonempty]
  have length : readLength buf = .ok (some (plen, off)) := by rw [readLength_eq, stated]
  unfold parseFrameReads frameOf
  simp only [length, readByte_inside nonempty, readKey_long header, first]
  cases isMasked buf <;> rfl

theorem wsParseFrame_some (stated : statedLength buf = some (plen, off)) (header : payloadStart buf off ≤ buf.length) :
    wsParseFrame buf =
      if buf.length < (payloadStart buf off + plen) % 2 ^ 64 then none
      else some (frameOf buf off plen ((buf.drop (payloadStart buf off)).take plen)) := by
  match buf with
  | [] => cases stated
  | first :: rest =>
    unfold wsParseFrame
    rw [stated]
    have start : (if isMasked (first :: rest) then off + 4 else off) = payloadStart (first :: rest) off := rfl
    simp only [start]
    by_cases short : (first :: rest).length < (payloadStart (first :: rest) off + plen) % 2 ^ 64
    · rw [if_pos (.inr short), if_pos short]
    · rw [if_neg (by omega), if_neg short]
      rfl

theorem wsParseFrame_short (stated : statedLength buf = some (plen, off)) (short : buf.length < payloadStart buf off) :
    wsParseFrame buf = none := by
  match buf with
  | [] => cases stated
  | first :: rest =>
    unfold wsParseFrame
    rw [stated]
    have start : (if isMasked (first :: rest) then off + 4 else off) = payloadStart (first :: rest) off := rfl
    simp only [start]
    rw [if_pos (.inl short)]

theorem parseFrameReads_wraps (size : buf.length < 2 ^ 64) (wraps : Wraps buf) :
    parseFrameReads buf = .error buf.length := by
  obtain ⟨plen, off, stated, header, large⟩ := wraps
  have small := statedLength_lt stated
  have start := payloadStart_bounds stated
  rw [parseFrameReads_some stated header, if_neg (by omega), readBytes_outside header (by omega)]
  rfl

theorem parseFrameReads_eq (fits : ¬ Wraps buf) : parseFrameReads buf = .ok (wsParseFrame buf) := by
  cases stated : statedLength buf with
  | none =>
    have length : readLength buf = .ok none := by rw [readLength_eq, stated]
    unfold parseFrameReads wsParseFrame
    rw [length, stated]
  | some r =>
    obtain ⟨plen, off⟩ := r
    have bounds := statedLength_bounds stated
    by_cases header : payloadStart buf off ≤ buf.length
    · have sum : payloadStart buf off + plen < 2 ^ 64 := by
        by_contra large
        exact fits ⟨plen, off, stated, header, by omega⟩
      rw [parseFrameReads_some stated header, wsParseFrame_some stated header, Nat.mod_eq_of_lt sum]
      split
      · rfl
      · rw [readBytes_inside (by omega)]
        rfl
    · have short : buf.length < payloadStart buf off := Nat.not_le.mp header
      have nonempty : 0 < buf.length := by omega
      have length : readLength buf = .ok (some (plen, off)) := by rw [readLength_eq, stated]
      unfold parseFrameReads
      rw [length, wsParseFrame_short stated short]
      simp only [readByte_inside nonempty, readKey_short bounds.2.2 short]

theorem frameLenReads_eq (buf : Text) : frameLenReads buf = .ok (wsFrameLen buf) := by
  have length := readLength_eq buf
  unfold frameLenReads wsFrameLen
  rw [length]
  cases stated : statedLength buf with
  | none => rfl
  | some r =>
    obtain ⟨plen, off⟩ := r
    have bounds := statedLength_bounds stated
    simp only
    split
    · rfl
    · have small : (if isMasked buf = true then off + 4 else off) + plen < 2 ^ 64 := by
        have limit : maxWsPayload = 1048576 := rfl
        split <;> omega
      rw [Nat.mod_eq_of_lt small]
      by_cases short : buf.length < (if isMasked buf = true then off + 4 else off) + plen
      · rw [if_pos short, if_pos short]
      · rw [if_neg short, if_neg short]

theorem wsParseFrame_within {f : Frame} (fits : ¬ Wraps buf) (parsed : wsParseFrame buf = some f) :
    ∃ plen off, statedLength buf = some (plen, off) ∧ f.consumed = payloadStart buf off + plen ∧
      f.consumed ≤ buf.length ∧ f.payload.length = plen := by
  cases stated : statedLength buf with
  | none =>
    unfold wsParseFrame at parsed
    rw [stated] at parsed
    cases parsed
  | some r =>
    obtain ⟨plen, off⟩ := r
    have header : payloadStart buf off ≤ buf.length := by
      by_contra short
      rw [wsParseFrame_short stated (Nat.not_le.mp short)] at parsed
      cases parsed
    have sum : payloadStart buf off + plen < 2 ^ 64 := by
      by_contra large
      exact fits ⟨plen, off, stated, header, by omega⟩
    rw [wsParseFrame_some stated header, Nat.mod_eq_of_lt sum] at parsed
    split at parsed
    · cases parsed
    · cases parsed
      refine ⟨plen, off, rfl, rfl, ?_, ?_⟩
      · unfold frameOf
        simp only
        omega
      · unfold frameOf
        simp only
        split
        · rw [length_masked, List.length_take, List.length_drop]
          omega
        · rw [List.length_take, List.length_drop]
          omega

theorem not_wraps_of_total {total : Nat} (known : wsFrameLen buf = .total total plen) : ¬ Wraps (buf.take total) := by
  rintro ⟨plen', off', stated', header, large⟩
  obtain ⟨off, stated, limit, size, within⟩ := total_cases known
  have front : off ≤ total := by split_ifs at size <;> omega
  rw [statedLength_take stated front] at stated'
  obtain ⟨rfl, rfl⟩ := Prod.mk.inj (Option.some.inj stated')
  have start := payloadStart_bounds (statedLength_take stated front)
  unfold maxWsPayload at limit
  omega

/-- What a parser of hostile input owes its callers: both functions read inside the buffer,
a parsed frame lies in it, and a frame the scanner reports is parsed and consumed whole. -/
structure ReadsSafely (buf : Text) : Prop where
  parser : ∃ result, parseFrameReads buf = .ok result
  scanner : ∃ result, frameLenReads buf = .ok result
  within : ∀ f, parseFrameReads buf = .ok (some f) → f.consumed ≤ buf.length ∧ f.payload.length ≤ f.consumed
  agree : ∀ total plen, frameLenReads buf = .ok (.total total plen) →
    total ≤ buf.length ∧
      ∃ f, parseFrameReads (buf.take total) = .ok (some f) ∧ f.consumed = total ∧ f.payload.length = plen

theorem parse_of_scanned {total : Nat} (known : wsFrameLen buf = .total total plen) :
    ∃ f, parseFrameReads (buf.take total) = .ok (some f) ∧ f.consumed = total ∧ f.payload.length = plen := by
  obtain ⟨f, parsed⟩ := parse_of_total known
  have fits := not_wraps_of_total known
  obtain ⟨off, stated, -, size, within⟩ := total_cases known
  have header := statedLength_bounds stated
  have front : off ≤ total := by split_ifs at size <;> omega
  obtain ⟨plen', off', stated', consumed, -, payload⟩ := wsParseFrame_within fits parsed
  rw [statedLength_take stated front] at stated'
  obtain ⟨rfl, rfl⟩ := Prod.mk.inj (Option.some.inj stated')
  have bit : isMasked (buf.take total) = isMasked buf := by
    conv_rhs => rw [← List.take_append_drop total buf]
    rw [isMasked_append]
    rw [List.length_take]
    omega
  refine ⟨f, ?_, ?_, payload⟩
  · rw [parseFrameReads_eq fits, parsed]
  · rw [consumed, payloadStart, bit, ← size]

/-- The frame readers are safe on a buffer exactly when no complete header states a length
that wraps the parser's check around. -/
theorem readsSafely_iff (buf : Text) (size : buf.length < 2 ^ 64) : ReadsSafely buf ↔ ¬ Wraps buf := by
  constructor
  · intro safe wraps
    obtain ⟨result, read⟩ := safe.parser
    rw [parseFrameReads_wraps size wraps] at read
    cases read
  · intro fits
    refine ⟨⟨_, parseFrameReads_eq fits⟩, ⟨_, frameLenReads_eq buf⟩, ?_, ?_⟩
    · intro f parsed
      rw [parseFrameReads_eq fits] at parsed
      obtain ⟨plen, off, stated, consumed, within, payload⟩ := wsParseFrame_within fits (Except.ok.inj parsed)
      exact ⟨within, by omega⟩
    · intro total plen known
      rw [frameLenReads_eq] at known
      have found := Except.ok.inj known
      exact ⟨(total_bounds found).2, parse_of_scanned found⟩

/-- An unmasked header that states `2 ^ 64 - 1` bytes, with nothing behind it. -/
def endlessHeader : Text := [0x82, 0x7F, 0xFF, 0xFF, 0xFF, 0xFF, 0xFF, 0xFF, 0xFF, 0xFF]

theorem endlessHeader_wraps : Wraps endlessHeader :=
  ⟨2 ^ 64 - 1, 10, by decide, by decide, by decide⟩

/-- The parser reads the byte behind a buffer of ten bytes. -/
theorem endlessHeader_unsafe :
    parseFrameReads endlessHeader = .error 10 ∧ frameLenReads endlessHeader = .ok .tooLong ∧
      ¬ ReadsSafely endlessHeader := by
  have outside := parseFrameReads_wraps (by decide) endlessHeader_wraps
  refine ⟨outside, by rw [frameLenReads_eq]; decide, ?_⟩
  intro safe
  obtain ⟨result, read⟩ := safe.parser
  rw [outside] at read
  cases read

theorem readsSafely_iff_endless : ReadsSafely endlessHeader ↔ ¬ Wraps endlessHeader :=
  readsSafely_iff endlessHeader (by decide)

end CognitiveOs.Api.WebSocket
