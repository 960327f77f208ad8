import CognitiveOs.Api.WebSocket.Client

/-!
# How a stream is cut into chunks

The limit on the buffer is checked against all of a chunk before the frames in front of it are
handled. A chunk that ends the largest frame and carries more can therefore close a connection
that the same bytes, one at a time, leave open.
-/

namespace CognitiveOs.Api.WebSocket

open Infra

namespace Client

variable {handler : Bool} {c d : Client}

/-! ### One turn -/

theorem onFrame_buffer (handler : Bool) (c : Client) (f : Frame) (rbuf : Text) (handled : Nat) :
    onFrame handler { c with rbuf := rbuf, handled := handled } f =
      { c.onFrame handler f with rbuf := rbuf, handled := handled } := by
  obtain ⟨_, fragment, events, _, closed⟩ := c
  unfold onFrame deliver
  split
  · split_ifs <;> rfl
  · cases fragment with
    | none => rfl
    | some before =>
      simp only
      split_ifs <;> rfl
  · split_ifs <;> rfl
  · split_ifs <;> rfl
  · rfl

@[simp] theorem onFrame_handled (handler : Bool) (c : Client) (f : Frame) :
    (c.onFrame handler f).handled = c.handled := by
  have same := congrArg (·.handled) (onFrame_buffer handler c f c.rbuf c.handled)
  exact same

@[simp] theorem onFrame_rbuf (handler : Bool) (c : Client) (f : Frame) :
    (c.onFrame handler f).rbuf = c.rbuf := by
  have same := congrArg (·.rbuf) (onFrame_buffer handler c f c.rbuf c.handled)
  exact same

theorem onFrame_append (handler : Bool) (c : Client) (f : Frame) (s : Text) :
    (c.append s).onFrame handler f = (c.onFrame handler f).append s := by
  unfold append
  rw [onFrame_rbuf]
  calc
    _ = { c.onFrame handler f with rbuf := c.rbuf ++ s, handled := c.handled } :=
      onFrame_buffer handler c f (c.rbuf ++ s) c.handled
    _ = _ := by rw [← onFrame_handled handler c f]

theorem turn_total {total plen : Nat} (known : wsFrameLen c.rbuf = .total total plen) :
    ∃ d, c.turn handler = some d ∧ c.handled < d.handled := by
  have bounds := total_bounds known
  obtain ⟨f, parsed⟩ := parse_of_total known
  refine ⟨(c.skip total).onFrame handler f, ?_, ?_⟩
  · unfold turn
    rw [known]
    simp only [parsed]
  · rw [onFrame_handled]
    unfold skip
    simp only
    omega

theorem turn_progress (step : c.turn handler = some d) :
    (d = c.close) ∨ (c.handled < d.handled ∧ d.rbuf.length < c.rbuf.length) := by
  unfold turn at step
  split at step
  · cases step
  · cases step
    exact .inl rfl
  · rename_i total plen known
    have bounds := total_bounds known
    split at step
    · cases step
      exact .inl rfl
    · cases step
      right
      simp only [onFrame_handled, onFrame_rbuf, skip, List.length_drop]
      omega

theorem turn_append (step : c.turn handler = some d) (s : Text) :
    (c.append s).turn handler = some (d.append s) := by
  have buffer : (c.append s).rbuf = c.rbuf ++ s := rfl
  unfold turn at step ⊢
  rw [buffer]
  cases known : wsFrameLen c.rbuf with
  | incomplete =>
    rw [known] at step
    cases step
  | tooLong =>
    rw [known] at step
    rw [wsFrameLen_append (by rw [known]; exact FrameLen.noConfusion), known]
    cases step
    rfl
  | total total plen =>
    have bounds := total_bounds known
    rw [known] at step
    rw [wsFrameLen_append (by rw [known]; exact FrameLen.noConfusion), known]
    simp only [List.take_append_of_le_length bounds.2] at step ⊢
    cases parsed : wsParseFrame (c.rbuf.take total) with
    | none =>
      rw [parsed] at step
      cases step
      rfl
    | some f =>
      rw [parsed] at step
      cases step
      have skipped : (c.append s).skip total = (c.skip total).append s := by
        unfold skip append
        simp only [List.drop_append_of_le_length bounds.2]
      simp only [skipped, onFrame_append]

/-! ### The loop over the buffer -/

/-- The frames at the front of the buffer are handled, up to one that is not complete. -/
def drain (handler : Bool) (c : Client) : Client :=
  if c.closed then c
  else
    match _step : c.turn handler with
    | none => c
    | some d => if d.closed then d else drain handler d
termination_by c.rbuf.length
decreasing_by
  obtain rfl | progress := turn_progress _step
  · simp_all [close]
  · exact progress.2

theorem drain_closed (closed : c.closed = true) : c.drain handler = c := by
  unfold drain
  rw [if_pos closed]

theorem drain_waiting (waiting : c.turn handler = none) : c.drain handler = c := by
  unfold drain
  split
  · rfl
  · split
    · rfl
    · rename_i step
      rw [waiting] at step
      cases step

theorem drain_turn (live : c.closed = false) (step : c.turn handler = some d) :
    c.drain handler = d.drain handler := by
  rw [drain, live, if_neg Bool.false_ne_true]
  split
  · rename_i waiting
    rw [step] at waiting
    cases waiting
  · rename_i next taken
    rw [step] at taken
    cases taken
    split
    · rename_i closed
      rw [drain_closed closed]
    · rfl

theorem drain_induction (handler : Bool) {motive : Client → Prop} (settled : ∀ c, c.closed ∨ c.turn handler = none → motive c)
    (turned : ∀ c d, c.closed = false → c.turn handler = some d → motive d → motive c) (c : Client) : motive c := by
  cases live : c.closed with
  | true => exact settled c (.inl live)
  | false =>
    cases step : c.turn handler with
    | none => exact settled c (.inr step)
    | some d =>
      obtain rfl | progress := turn_progress step
      · exact turned c _ live step (settled _ (.inl rfl))
      · exact turned c d live step (drain_induction handler settled turned d)
termination_by c.rbuf.length
decreasing_by exact progress.2

theorem drain_settled (handler : Bool) (c : Client) :
    (c.drain handler).closed ∨ (c.drain handler).turn handler = none := by
  induction c using drain_induction handler with
  | settled c done =>
    obtain closed | waiting := done
    · rw [drain_closed closed]
      exact .inl closed
    · rw [drain_waiting waiting]
      exact .inr waiting
  | turned c d live step ih =>
    rw [drain_turn live step]
    exact ih

theorem drain_of_settled (done : c.closed ∨ c.turn handler = none) : c.drain handler = c := by
  obtain closed | waiting := done
  · exact drain_closed closed
  · exact drain_waiting waiting

theorem drain_append (handler : Bool) (c : Client) (s : Text) :
    (c.append s).drain handler = ((c.drain handler).append s).drain handler := by
  induction c using drain_induction handler with
  | settled c done => rw [drain_of_settled done]
  | turned c d live step ih => rw [drain_turn live step, drain_turn (c := c.append s) live (turn_append step s), ih]

theorem handled_le_drain (handler : Bool) (c : Client) : c.handled ≤ (c.drain handler).handled := by
  induction c using drain_induction handler with
  | settled c done => rw [drain_of_settled done]
  | turned c d live step ih =>
    rw [drain_turn live step]
    have grows : c.handled ≤ d.handled := by
      obtain rfl | progress := turn_progress step
      · exact Nat.le_refl _
      · exact Nat.le_of_lt progress.1
    exact Nat.le_trans grows ih

end Client

/-! ### Chunks -/

/-- The bytes of one `sock_recv` into `chunk`. -/
abbrev Chunk := { bytes : Text // bytes ≠ [] ∧ bytes.length ≤ 8192 }

def Chunk.single (byte : UInt8) : Chunk :=
  ⟨[byte], by simp⟩

def stream (chunks : List Chunk) : Text :=
  chunks.flatMap (·.val)

def bytewise (chunks : List Chunk) : List Chunk :=
  (stream chunks).map Chunk.single

@[simp] theorem stream_cons (chunk : Chunk) (chunks : List Chunk) :
    stream (chunk :: chunks) = chunk.val ++ stream chunks :=
  List.flatMap_cons

theorem stream_bytewise (chunks : List Chunk) : stream (bytewise chunks) = stream chunks := by
  have each (bytes : Text) : stream (bytes.map Chunk.single) = bytes := by
    induction bytes with
    | nil => rfl
    | cons byte bytes ih => rw [List.map_cons, stream_cons, ih, Chunk.single, List.singleton_append]
  exact each (stream chunks)

namespace Client

variable {handler : Bool} {c d : Client}

def recv (handler : Bool) (c : Client) (chunk : Chunk) : Client :=
  if c.closed then c
  else if maxWsPayload + 14 < c.rbuf.length + chunk.val.length then c.close
  else (c.append chunk.val).drain handler

/-- `ws_client_loop`, as long as chunks arrive. -/
def run (handler : Bool) (c : Client) (chunks : List Chunk) : Client :=
  chunks.foldl (recv handler) c

/-- What was delivered and sent, whether the connection is closed, and at which place of the
stream. -/
def outcome (c : Client) : List Event × Bool × Nat :=
  (c.events, c.closed, c.handled)

/-- Each chunk finds the connection closed, or room behind the frame that is not complete. -/
def Fits (handler : Bool) : Client → List Chunk → Prop
  | _, [] => True
  | c, chunk :: chunks =>
    (c.closed ∨ c.rbuf.length + chunk.val.length ≤ maxWsPayload + 14) ∧
      Fits handler ((c.append chunk.val).drain handler) chunks

theorem run_closed (closed : c.closed = true) (chunks : List Chunk) : c.run handler chunks = c := by
  induction chunks with
  | nil => rfl
  | cons chunk chunks ih =>
    have stays : c.recv handler chunk = c := by
      unfold recv
      rw [if_pos closed]
    unfold run at ih ⊢
    rw [List.foldl_cons, stays, ih]

theorem fits_closed (closed : c.closed = true) (chunks : List Chunk) : Fits handler c chunks := by
  induction chunks generalizing c with
  | nil => trivial
  | cons chunk chunks ih =>
    refine ⟨.inl closed, ?_⟩
    rw [drain_closed (c := c.append chunk.val) closed]
    exact ih closed

theorem drain_append_append (handler : Bool) (c : Client) (s t : Text) :
    (c.append (s ++ t)).drain handler = (((c.append s).drain handler).append t).drain handler := by
  rw [← drain_append]
  unfold append
  rw [List.append_assoc]

theorem waiting_of_settled (live : c.closed = false) (done : c.closed ∨ c.turn handler = none) :
    wsFrameLen c.rbuf = .incomplete := by
  have waiting : c.turn handler = none := by simpa [live] using done
  unfold turn at waiting
  split at waiting
  · assumption
  · cases waiting
  · split at waiting <;> cases waiting

theorem handled_lt_drain (live : c.closed = false) (done : c.closed ∨ c.turn handler = none) (chunk : Chunk)
    (full : maxWsPayload + 14 < c.rbuf.length + chunk.val.length) (s : Text) :
    c.handled < ((c.append (chunk.val ++ s)).drain handler).handled := by
  have waiting := waiting_of_settled live done
  have bytes := chunk.property.2
  have header : 14 ≤ c.rbuf.length := by
    unfold maxWsPayload at full
    omega
  have long : maxWsPayload + 14 ≤ (c.rbuf ++ (chunk.val ++ s)).length := by
    simp only [List.length_append]
    omega
  obtain ⟨total, plen, known⟩ := complete_of_long waiting header long
  obtain ⟨d, step, grows⟩ := @turn_total handler (c.append (chunk.val ++ s)) total plen known
  rw [drain_turn (c := c.append (chunk.val ++ s)) live step]
  exact Nat.lt_of_lt_of_le grows (handled_le_drain handler d)

theorem outcome_run_iff (chunks : List Chunk) (done : c.closed ∨ c.turn handler = none) :
    outcome (c.run handler chunks) = outcome ((c.append (stream chunks)).drain handler) ↔
      Fits handler c chunks := by
  induction chunks generalizing c with
  | nil =>
    have same : c.append (stream []) = c := by
      unfold append stream
      rw [List.flatMap_nil, List.append_nil]
    rw [same, drain_of_settled done]
    exact iff_of_true rfl trivial
  | cons chunk chunks ih =>
    cases live : c.closed with
    | true =>
      rw [run_closed live, drain_closed (c := c.append _) live]
      exact iff_of_true rfl (fits_closed live _)
    | false =>
      have unfolded : c.run handler (chunk :: chunks) = (c.recv handler chunk).run handler chunks := rfl
      rw [unfolded, stream_cons]
      unfold recv Fits
      rw [live, if_neg Bool.false_ne_true]
      by_cases full : maxWsPayload + 14 < c.rbuf.length + chunk.val.length
      · rw [if_pos full, run_closed (c := c.close) rfl]
        have goesOn := handled_lt_drain live done chunk full (stream chunks)
        refine iff_of_false ?_ ?_
        · intro same
          have places : c.handled = _ := congrArg (·.2.2) same
          exact absurd places (Nat.ne_of_lt goesOn)
        · rintro ⟨closed | room, -⟩
          · cases closed
          · omega
      · rw [if_neg full, drain_append_append, ih (drain_settled handler _)]
        constructor
        · intro fits
          exact ⟨.inr (by omega), fits⟩
        · rintro ⟨-, fits⟩
          exact fits

theorem fits_single (bytes : Text) (done : c.closed ∨ c.turn handler = none) :
    Fits handler c (bytes.map Chunk.single) := by
  induction bytes generalizing c with
  | nil => trivial
  | cons byte bytes ih =>
    refine ⟨?_, ih (drain_settled handler _)⟩
    cases live : c.closed with
    | true => exact .inl rfl
    | false =>
      right
      have short := length_of_incomplete (waiting_of_settled live done)
      have one : (Chunk.single byte).val.length = 1 := rfl
      omega

theorem start_settled (handler : Bool) : start.closed ∨ start.turn handler = none :=
  .inr rfl

/-- A stream is handled as one byte at a time exactly when every chunk fits behind the frame
that is not complete, as long as the connection is open. -/
theorem segmentation_iff (handler : Bool) (chunks : List Chunk) :
    outcome (start.run handler chunks) = outcome (start.run handler (bytewise chunks)) ↔
      Fits handler start chunks := by
  have whole : outcome (start.run handler (bytewise chunks)) =
      outcome ((start.append (stream chunks)).drain handler) := by
    rw [← stream_bytewise chunks]
    exact (outcome_run_iff (bytewise chunks) (start_settled handler)).mpr (fits_single _ (start_settled handler))
  rw [whole]
  exact outcome_run_iff chunks (start_settled handler)

/-! ### The largest frame and one more byte -/

theorem not_fits (live : c.closed = false) (front back : List Chunk) (chunk : Chunk)
    (waiting : wsFrameLen (c.rbuf ++ stream front) = .incomplete)
    (full : maxWsPayload + 14 < (c.rbuf ++ stream front).length + chunk.val.length) :
    ¬ Fits handler c (front ++ chunk :: back) := by
  induction front generalizing c with
  | nil =>
    rintro ⟨closed | room, -⟩
    · rw [live] at closed
      cases closed
    · simp only [stream, List.flatMap_nil, List.append_nil] at full
      omega
  | cons first front ih =>
    rintro ⟨-, fits⟩
    rw [stream_cons, ← List.append_assoc] at waiting full
    have still : wsFrameLen (c.append first.val).rbuf = .incomplete := by
      by_contra known
      have later : wsFrameLen (c.rbuf ++ first.val ++ stream front) = wsFrameLen (c.append first.val).rbuf :=
        wsFrameLen_append known (stream front)
      exact known (later.symm.trans waiting)
    have idle : (c.append first.val).turn handler = none := by
      unfold turn
      rw [still]
    rw [drain_waiting idle] at fits
    exact ih (c := c.append first.val) live waiting full fits

def largestHeader : Chunk :=
  ⟨[0x81, 0xFF, 0, 0, 0, 0, 0, 0x10, 0, 0, 0, 0, 0, 0, 0], by decide⟩

def letters (n : Nat) : Text :=
  List.replicate n 97

@[simp] theorem length_letters (n : Nat) : (letters n).length = n :=
  List.length_replicate

theorem letters_ne_nil {n : Nat} (some : 0 < n) : letters n ≠ [] := by
  intro empty
  have length := length_letters n
  rw [empty, List.length_nil] at length
  omega

def fullChunk : Chunk :=
  ⟨letters 8192, letters_ne_nil (by decide), Nat.le_of_eq (length_letters 8192)⟩

def lastChunk : Chunk :=
  ⟨letters 8191 ++ [0x89], List.concat_ne_nil _ _, by rw [List.length_append, length_letters]; decide⟩

def largestText : List Chunk :=
  (largestHeader :: List.replicate 127 fullChunk) ++ [lastChunk]

theorem stream_letters (n : Nat) : stream (List.replicate n fullChunk) = letters (n * 8192) := by
  induction n with
  | zero => rfl
  | succ n ih =>
    rw [List.replicate_succ, stream_cons, ih, Nat.succ_mul, Nat.add_comm]
    exact List.replicate_append_replicate

theorem stream_largestText :
    start.rbuf ++ stream (largestHeader :: List.replicate 127 fullChunk) =
      largestHeader.val ++ letters (127 * 8192) := by
  rw [stream_cons, stream_letters]
  rfl

/-- The text is delivered from single bytes; from these chunks the connection is closed. -/
theorem largestText_cut :
    outcome (start.run true largestText) ≠ outcome (start.run true (bytewise largestText)) := by
  intro same
  have fits := (segmentation_iff true largestText).mp same
  have stated : statedLength largestHeader.val = some (maxWsPayload, 10) := by decide
  have header : largestHeader.val.length = 15 := rfl
  have length : (largestHeader.val ++ letters (127 * 8192)).length = 15 + 127 * 8192 := by
    rw [List.length_append, header, length_letters]
  refine not_fits rfl (largestHeader :: List.replicate 127 fullChunk) [] lastChunk ?_ ?_ fits
  · rw [stream_largestText]
    refine incomplete_of_short stated (Nat.le_refl _) ?_
    rw [length]
    decide
  · have bytes : lastChunk.val.length = 8191 + 1 := by
      unfold lastChunk
      rw [List.length_append, length_letters]
      rfl
    rw [stream_largestText, length, bytes]
    decide

end Client
end CognitiveOs.Api.WebSocket
