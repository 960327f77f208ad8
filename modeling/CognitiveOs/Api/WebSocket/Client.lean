import CognitiveOs.Api.WebSocket.RoundTrip

/-!
# The inbound side of a connection

`ws_client_loop` of `api/ws_server.c`: bytes are received in chunks, frames are taken off the
front of the buffer. Sending to the peer succeeds.
-/

namespace CognitiveOs.Api.WebSocket

open Infra

/-- What a connection does: a text reaches the handler, a pong or a close is sent. -/
inductive Event where
  | message (text : Text)
  | pong (payload : Text)
  | closing (payload : Text)
  deriving DecidableEq

/-- A connection. `fragment` is the text so far of a message in several frames, and `handled`
counts the bytes of the stream whose frames have been handled. -/
structure Client where
  rbuf : Text
  fragment : Option Text
  events : List Event
  handled : Nat
  closed : Bool
  deriving DecidableEq

namespace Client

def start : Client :=
  { rbuf := [], fragment := none, events := [], handled := 0, closed := false }

def close (c : Client) : Client :=
  { c with closed := true }

def emit (c : Client) (e : Event) : Client :=
  { c with events := c.events ++ [e] }

/-- `on_msg`, when there is one, gets a C string. -/
def deliver (handler : Bool) (c : Client) (text : Text) : Client :=
  if handler then c.emit (.message (cstr text)) else c

/-- The `switch` on the opcode. -/
def onFrame (handler : Bool) (c : Client) (f : Frame) : Client :=
  match f.opcode with
  | 0x1 =>
    if f.fin ∧ c.fragment = none ∧ handler then c.deliver handler f.payload
    else if ¬ f.fin ∧ c.fragment = none then { c with fragment := some f.payload }
    else c.close
  | 0x0 =>
    match c.fragment with
    | none => c.close
    | some before =>
      if maxWsPayload - before.length < f.payload.length then c.close
      else
        let text := before ++ f.payload
        if f.fin then { c.deliver handler text with fragment := none } else { c with fragment := some text }
  | 0x9 => if ¬ f.fin ∨ 125 < f.payload.length then c.close else c.emit (.pong f.payload)
  | 0x8 => (if f.fin ∧ f.payload.length ≤ 125 then c.emit (.closing f.payload) else c).close
  | _ => c.close

def skip (c : Client) (total : Nat) : Client :=
  { c with rbuf := c.rbuf.drop total, handled := c.handled + total }

def append (c : Client) (bytes : Text) : Client :=
  { c with rbuf := c.rbuf ++ bytes }

def turn (handler : Bool) (c : Client) : Option Client :=
  match wsFrameLen c.rbuf with
  | .incomplete => none
  | .tooLong => some c.close
  | .total total _ =>
    match wsParseFrame (c.rbuf.take total) with
    | none => some c.close
    | some f => some ((c.skip total).onFrame handler f)

end Client

/-! ### What later bytes do not change -/

variable {buf : Text} {plen off total : Nat}

theorem statedLength_append {r : Nat × Nat} (stated : statedLength buf = some r) (s : Text) :
    statedLength (buf ++ s) = some r := by
  match buf with
  | [] => exact absurd stated (by simp [statedLength])
  | [_] => exact absurd stated (by simp [statedLength])
  | first :: second :: rest =>
    simp only [statedLength] at stated
    simp only [List.cons_append, statedLength]
    by_cases two : second.toNat % 128 = 126
    · rw [if_pos two] at stated ⊢
      rw [Option.ite_none_left_eq_some] at stated
      obtain ⟨long, value⟩ := stated
      rw [if_neg (by rw [List.length_append]; omega), List.take_append_of_le_length (by omega)]
      exact value
    · rw [if_neg two] at stated ⊢
      by_cases eight : second.toNat % 128 = 127
      · rw [if_pos eight] at stated ⊢
        rw [Option.ite_none_left_eq_some] at stated
        obtain ⟨long, value⟩ := stated
        rw [if_neg (by rw [List.length_append]; omega), List.take_append_of_le_length (by omega)]
        exact value
      · rw [if_neg eight] at stated ⊢
        exact stated

theorem statedLength_bounds (stated : statedLength buf = some (plen, off)) : 2 ≤ off ∧ off ≤ 10 ∧ off ≤ buf.length := by
  match buf with
  | [] => exact absurd stated (by simp [statedLength])
  | [_] => exact absurd stated (by simp [statedLength])
  | first :: second :: rest =>
    simp only [statedLength] at stated
    simp only [List.length_cons]
    split_ifs at stated <;> simp only [Option.some.injEq, Prod.mk.injEq] at stated <;> omega

theorem statedLength_some (long : 10 ≤ buf.length) : ∃ plen off, statedLength buf = some (plen, off) := by
  match buf with
  | [] => exact absurd long (by simp)
  | [_] => exact absurd long (by simp)
  | first :: second :: rest =>
    simp only [List.length_cons] at long
    simp only [statedLength]
    split_ifs
    · omega
    · exact ⟨_, _, rfl⟩
    · omega
    · exact ⟨_, _, rfl⟩
    · exact ⟨_, _, rfl⟩

theorem isMasked_append (long : 2 ≤ buf.length) (s : Text) : isMasked (buf ++ s) = isMasked buf := by
  unfold isMasked
  rw [List.getElem?_append_left (by omega)]

theorem wsFrameLen_append (known : wsFrameLen buf ≠ .incomplete) (s : Text) :
    wsFrameLen (buf ++ s) = wsFrameLen buf := by
  unfold wsFrameLen at known ⊢
  cases stated : statedLength buf with
  | none =>
    rw [stated] at known
    exact absurd rfl known
  | some r =>
    obtain ⟨plen, off⟩ := r
    have bounds := statedLength_bounds stated
    rw [statedLength_append stated s]
    rw [stated] at known
    simp only [isMasked_append (show 2 ≤ buf.length by omega)] at known ⊢
    split_ifs at known ⊢ <;> first | rfl | exact absurd rfl known | (rw [List.length_append] at *; omega)

theorem total_cases (known : wsFrameLen buf = .total total plen) :
    ∃ off, statedLength buf = some (plen, off) ∧ plen ≤ maxWsPayload ∧
      total = (if isMasked buf then off + 4 else off) + plen ∧ total ≤ buf.length := by
  unfold wsFrameLen at known
  cases stated : statedLength buf with
  | none =>
    rw [stated] at known
    cases known
  | some r =>
    obtain ⟨plen', off⟩ := r
    rw [stated] at known
    simp only at known
    split_ifs at known with long masked short short
    all_goals
      simp only [FrameLen.total.injEq] at known
      obtain ⟨rfl, rfl⟩ := known
      exact ⟨off, rfl, by omega, by simp [masked], by omega⟩

theorem total_bounds (known : wsFrameLen buf = .total total plen) : 2 ≤ total ∧ total ≤ buf.length := by
  obtain ⟨off, stated, -, size, within⟩ := total_cases known
  have bounds := statedLength_bounds stated
  split_ifs at size <;> omega

theorem length_of_incomplete (waiting : wsFrameLen buf = .incomplete) : buf.length < maxWsPayload + 14 := by
  by_contra long
  have enough : 10 ≤ buf.length := by omega
  obtain ⟨plen, off, stated⟩ := statedLength_some enough
  have bounds := statedLength_bounds stated
  unfold wsFrameLen at waiting
  rw [stated] at waiting
  simp only at waiting
  split_ifs at waiting <;> omega

theorem incomplete_of_short {front s : Text} (stated : statedLength front = some (plen, off))
    (limit : plen ≤ maxWsPayload) (short : (front ++ s).length < off + plen) :
    wsFrameLen (front ++ s) = .incomplete := by
  have bounds := statedLength_bounds stated
  unfold maxWsPayload at limit
  unfold wsFrameLen
  rw [statedLength_append stated]
  simp only
  unfold maxWsPayload
  rw [if_neg (by omega)]
  split_ifs
  · rfl
  · omega
  · rfl

theorem complete_of_long {s : Text} (waiting : wsFrameLen buf = .incomplete) (header : 14 ≤ buf.length)
    (long : maxWsPayload + 14 ≤ (buf ++ s).length) : ∃ total plen, wsFrameLen (buf ++ s) = .total total plen := by
  have enough : 10 ≤ buf.length := by omega
  obtain ⟨plen, off, stated⟩ := statedLength_some enough
  have bounds := statedLength_bounds stated
  unfold wsFrameLen at waiting ⊢
  rw [statedLength_append stated s]
  rw [stated] at waiting
  simp only [isMasked_append (show 2 ≤ buf.length by omega)] at waiting ⊢
  split_ifs at waiting ⊢ <;> first | exact ⟨_, _, rfl⟩ | omega

theorem statedLength_take {n : Nat} (stated : statedLength buf = some (plen, off)) (behind : off ≤ n) :
    statedLength (buf.take n) = some (plen, off) := by
  have bounds := statedLength_bounds stated
  obtain ⟨k, rfl⟩ : ∃ k, n = k + 2 := ⟨n - 2, by omega⟩
  match buf with
  | [] => exact absurd stated (by simp [statedLength])
  | [_] => exact absurd stated (by simp [statedLength])
  | first :: second :: rest =>
    simp only [statedLength] at stated
    simp only [List.take_succ_cons, statedLength, List.length_take, List.take_take]
    split_ifs at stated with two short eight long <;>
      simp only [Option.some.injEq, Prod.mk.injEq] at stated <;> obtain ⟨rfl, rfl⟩ := stated
    · rw [if_pos two, if_neg (by omega), Nat.min_eq_left (by omega)]
    · rw [if_neg two, if_pos eight, if_neg (by omega), Nat.min_eq_left (by omega)]
    · rw [if_neg two, if_neg eight]

theorem parse_of_total (known : wsFrameLen buf = .total total plen) : ∃ f, wsParseFrame (buf.take total) = some f := by
  obtain ⟨off, stated, limit, size, within⟩ := total_cases known
  have header := statedLength_bounds stated
  have front : off ≤ total := by
    split_ifs at size <;> omega
  have bit : isMasked (buf.take total) = isMasked buf := by
    conv_rhs => rw [← List.take_append_drop total buf]
    rw [isMasked_append]
    rw [List.length_take]
    omega
  have nonempty : ∃ first more, buf.take total = first :: more := by
    cases taken : buf.take total with
    | nil =>
      have length := congrArg List.length taken
      rw [List.length_take, List.length_nil] at length
      omega
    | cons first more => exact ⟨first, more, rfl⟩
  obtain ⟨first, more, cons⟩ := nonempty
  have length : (first :: more).length = total := by
    rw [← cons, List.length_take]
    omega
  unfold wsParseFrame
  rw [statedLength_take stated front, bit, cons]
  simp only [length]
  rw [if_neg]
  · exact ⟨_, rfl⟩
  · unfold maxWsPayload at limit
    split_ifs at size ⊢ <;> rw [Nat.mod_eq_of_lt (by omega)] <;> omega

end CognitiveOs.Api.WebSocket
