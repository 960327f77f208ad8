import CognitiveOs.Api.WebSocket.RoundTrip
import CognitiveOs.Foundation.Machine

/-!
# Broadcasts

`ws_server_broadcast` and `ws_client_flush` of `api/ws_server.c`: texts go into the queue of each
client with a line break after each, and the thread of the client takes the lines out and sends each
as a frame.
-/

namespace CognitiveOs.Api.WebSocket

open Foundation Infra

/-! ### Clients -/

/-- A client. `taken` is what a flush has taken out of the queue and not sent yet. -/
structure WsClient where
  id : Nat
  closed : Bool := false
  queue : Text := []
  cap : Nat := 0
  taken : Text := []
  /-- The bytes that went out. -/
  wire : Text := []
  /-- History: the opcodes and the texts of the frames that went out. -/
  sent : List (Nat × Text) := []
  /-- History: the broadcasts since the client joined. -/
  broadcasts : List Text := []

/-- What `ws_server_broadcast` does for one client; `grown` tells whether `realloc` would succeed. -/
def enqueue (text : Text) (grown : Bool) (c : WsClient) : WsClient :=
  if c.closed then { c with broadcasts := c.broadcasts ++ [text] }
  else
    let need := c.queue.length + text.length + 2
    let cap := if c.cap < need ∧ grown then need * 2 else c.cap
    { c with
      cap
      queue := if need ≤ cap then c.queue ++ text ++ [10] else c.queue
      broadcasts := c.broadcasts ++ [text] }

/-- The first part of `ws_client_flush`: the queue up to its last line break is taken, if memory for it
is allocated. -/
def take (allocated : Bool) (c : WsClient) : WsClient :=
  let keep := (c.queue.reverse.dropWhile (· ≠ 10)).length
  if c.taken ≠ [] ∨ keep = 0 ∨ allocated = false then c
  else { c with taken := c.queue.take keep, queue := c.queue.drop keep }

/-- What comes of a frame: it is not built, it goes out whole, or it goes out in part. -/
inductive Outcome where
  | unbuilt | whole | short
  deriving DecidableEq

/-- A frame from the server; what the allocated memory held before is `stale`. -/
def outgoing (stale : Nat → UInt8) (frame : Nat × Text) : Outgoing where
  opcode := frame.1
  payload := frame.2
  key := none
  stale

def wsSendFrame (opcode : Nat) (payload : Text) (stale : Nat → UInt8) (outcome : Outcome) (c : WsClient) : WsClient :=
  if c.closed then c
  else
    match outcome with
    | .unbuilt => c
    | .whole => { c with
        wire := c.wire ++ (outgoing stale (opcode, payload)).frame
        sent := c.sent ++ [(opcode, payload)] }
    | .short => { c with closed := true }

/-- One turn of the second part of `ws_client_flush`: the first line that was taken is sent. -/
def sendLine (stale : Nat → UInt8) (outcome : Outcome) (c : WsClient) : WsClient :=
  match c.taken.dropWhile (· ≠ 10) with
  | [] => c
  | _ :: rest => { wsSendFrame 1 (c.taken.takeWhile (· ≠ 10)) stale outcome c with taken := rest }

def sendPong (payload : Text) (stale : Nat → UInt8) (outcome : Outcome) (c : WsClient) : WsClient :=
  if c.taken ≠ [] then c
  else if 125 < payload.length then { c with closed := true }
  else wsSendFrame 0xA payload stale outcome c

/-! ### The server -/

abbrev WsServer :=
  List WsClient

def onClient (id : Nat) (f : WsClient → WsClient) (s : WsServer) : WsServer :=
  s.map fun c => if c.id = id then f c else c

inductive Label where
  | accept (id : Nat)
  /-- A broadcast, and for which clients `realloc` would succeed. -/
  | broadcast (text : Text) (grown : Nat → Bool)
  | take (id : Nat) (allocated : Bool)
  | send (id : Nat) (stale : Nat → UInt8) (outcome : Outcome)
  | pong (id : Nat) (payload : Text) (stale : Nat → UInt8) (outcome : Outcome)
  /-- The client is dropped for another reason. -/
  | close (id : Nat)
  | remove (id : Nat)

def step (s : WsServer) : Label → WsServer
  | .accept id => s ++ [{ id }]
  | .broadcast text grown => s.map fun c => enqueue text (grown c.id) c
  | .take id allocated => onClient id (take allocated) s
  | .send id stale outcome => onClient id (sendLine stale outcome) s
  | .pong id payload stale outcome => onClient id (sendPong payload stale outcome) s
  | .close id => onClient id (fun c => { c with closed := true }) s
  | .remove id => s.filter fun c => c.id ≠ id

def OneLine (_ : WsServer) : Label → Prop
  | .broadcast text _ => 10 ∉ text
  | _ => True

def wsServer : Machine WsServer Label :=
  (Machine.ofFun step).restrict OneLine

/-! ### What is delivered -/

variable {c : WsClient} {text : Text}

def lines (s : Text) : List Text :=
  match _h : s.dropWhile (· ≠ 10) with
  | [] => []
  | _ :: rest => s.takeWhile (· ≠ 10) :: lines rest
termination_by s.length
decreasing_by
  have := (List.dropWhile_suffix (l := s) (· ≠ 10)).length_le
  rw [_h] at this
  simp at this
  omega

def framesOf (sent : List (Nat × Text)) : Text :=
  (sent.map fun frame => (outgoing (fun _ => 0) frame).written).flatten

def textsOf (sent : List (Nat × Text)) : List Text :=
  (sent.filter (·.1 = 1)).map (·.2)

/-- The text frames that went out and the lines still queued are the broadcasts, in order. -/
structure Delivered (c : WsClient) : Prop where
  wire : c.wire = framesOf c.sent
  order : textsOf c.sent ++ (lines c.taken ++ lines c.queue) = c.broadcasts

/-- Nothing is too long for a frame, and memory is allocated for what is queued and sent. -/
def Allocated (_ : WsServer) : Label → Prop
  | .broadcast text grown => text.length < 65536 ∧ ∀ id, grown id = true
  | .send _ _ outcome => outcome ≠ .unbuilt
  | _ => True

def framed (texts : List Text) : Text :=
  (texts.map (· ++ [10])).flatten

theorem cut_line {t : Text} (one : 10 ∉ t) (rest : Text) :
    (t ++ 10 :: rest).dropWhile (· ≠ 10) = 10 :: rest ∧ (t ++ 10 :: rest).takeWhile (· ≠ 10) = t := by
  have before : ∀ b ∈ t, decide (b ≠ 10) = true := fun b member => by
    simpa using fun same : b = 10 => one (same ▸ member)
  rw [List.dropWhile_append_of_pos before, List.takeWhile_append_of_pos before]
  simp

theorem lines_cons {t : Text} (one : 10 ∉ t) (rest : Text) : lines (t ++ 10 :: rest) = t :: lines rest := by
  obtain ⟨drop, take⟩ := cut_line one rest
  rw [lines]
  split
  · next none => rw [drop] at none; cases none
  · next some =>
    rw [drop] at some
    rw [take, (List.cons.inj some).2]

theorem lines_framed {texts : List Text} (one : ∀ t ∈ texts, 10 ∉ t) : lines (framed texts) = texts := by
  induction texts with
  | nil =>
    rw [lines]
    split
    · rfl
    · next some => cases some
  | cons t texts ih =>
    have split : framed (t :: texts) = t ++ 10 :: framed texts := by simp [framed]
    rw [split, lines_cons (one t List.mem_cons_self), ih fun t member => one t (List.mem_cons_of_mem _ member)]

def Kept (c : WsClient) : Prop :=
  c.closed = true ∨ ∃ taken queued, c.taken = framed taken ∧ c.queue = framed queued ∧
    c.wire = framesOf c.sent ∧ textsOf c.sent ++ (taken ++ queued) = c.broadcasts ∧
    ∀ t ∈ taken ++ queued, 10 ∉ t ∧ t.length < 65536

theorem Kept.delivered (kept : Kept c) (there : c.closed = false) : Delivered c := by
  obtain isClosed | ⟨taken, queued, isTaken, isQueued, wire, order, one⟩ := kept
  · rw [there] at isClosed
    cases isClosed
  · refine ⟨wire, ?_⟩
    rw [isTaken, isQueued, lines_framed fun t member => (one t (List.mem_append_left _ member)).1,
      lines_framed fun t member => (one t (List.mem_append_right _ member)).1]
    exact order

theorem kept_enqueue (kept : Kept c) (one : 10 ∉ text) (short : text.length < 65536) : Kept (enqueue text true c) := by
  unfold enqueue
  split
  · next isClosed => exact .inl isClosed
  · obtain isClosed | ⟨taken, queued, isTaken, isQueued, wire, order, each⟩ := kept
    · contradiction
    · refine .inr ⟨taken, queued ++ [text], isTaken, ?_, wire, ?_, ?_⟩
      · have room : c.queue.length + text.length + 2 ≤
            if c.cap < c.queue.length + text.length + 2 ∧ true = true then (c.queue.length + text.length + 2) * 2
            else c.cap := by
          by_cases full : c.cap < c.queue.length + text.length + 2
          · rw [if_pos ⟨full, rfl⟩]
            omega
          · rw [if_neg fun grow => full grow.1]
            omega
        dsimp only
        rw [if_pos room, isQueued]
        simp [framed]
      · rw [← order]
        simp
      · intro t member
        rw [← List.append_assoc] at member
        rcases List.mem_append.mp member with old | new
        · exact each t old
        · rw [List.mem_singleton.mp new]
          exact ⟨one, short⟩

theorem getLast_framed {texts : List Text} (some_text : texts ≠ []) : ∃ s, framed texts = s ++ [10] := by
  obtain ⟨before, last, rfl⟩ := (List.eq_nil_or_concat texts).resolve_left some_text
  exact ⟨framed before ++ last, by simp [framed]⟩

theorem kept_take (kept : Kept c) (allocated : Bool) : Kept (take allocated c) := by
  unfold take
  dsimp only
  split
  · exact kept
  · next free =>
    rw [not_or, not_or, not_not] at free
    obtain isClosed | ⟨taken, queued, isTaken, isQueued, wire, order, each⟩ := kept
    · exact .inl isClosed
    · have nothing : taken = [] := by
        rw [free.1] at isTaken
        cases taken with
        | nil => rfl
        | cons t taken => simp [framed] at isTaken
      subst nothing
      have some_text : queued ≠ [] := by
        rintro rfl
        exact free.2.1 (by simp [isQueued, framed])
      -- the queue ends with a line break, so all of it is taken
      have all : (c.queue.reverse.dropWhile (· ≠ 10)).length = c.queue.length := by
        obtain ⟨s, ends⟩ := getLast_framed some_text
        rw [isQueued, ends]
        simp
      rw [all]
      refine .inr ⟨queued, [], ?_, ?_, wire, ?_, ?_⟩
      · simpa using isQueued
      · simp [framed]
      · simpa using order
      · simpa using each

theorem framesOf_snoc (sent : List (Nat × Text)) {frame : Nat × Text} (short : frame.2.length < 65536)
    (stale : Nat → UInt8) : framesOf (sent ++ [frame]) = framesOf sent ++ (outgoing stale frame).frame := by
  have built : (outgoing stale frame).frame = (outgoing (fun _ => 0) frame).written :=
    @Outgoing.frame_eq (outgoing stale frame) short
  simp [framesOf, built]

theorem kept_sendLine (kept : Kept c) (stale : Nat → UInt8) {outcome : Outcome} (built : outcome ≠ .unbuilt) :
    Kept (sendLine stale outcome c) := by
  obtain isClosed | ⟨taken, queued, isTaken, isQueued, wire, order, each⟩ := kept
  · left
    unfold sendLine
    split
    · exact isClosed
    · rw [wsSendFrame.eq_def, if_pos isClosed]
      exact isClosed
  · cases taken with
    | nil =>
      have none : c.taken.dropWhile (· ≠ 10) = [] := by simp [isTaken, framed]
      unfold sendLine
      rw [none]
      exact .inr ⟨[], queued, isTaken, isQueued, wire, order, each⟩
    | cons t taken =>
      have first : c.taken = t ++ 10 :: framed taken := by simp [isTaken, framed]
      obtain ⟨one, short⟩ := each t (List.mem_append_left _ List.mem_cons_self)
      obtain ⟨drop, line⟩ := cut_line one (framed taken)
      unfold sendLine
      rw [first, drop, line]
      by_cases isClosed : c.closed = true
      · rw [wsSendFrame.eq_def, if_pos isClosed]
        exact .inl isClosed
      · rw [wsSendFrame.eq_def, if_neg isClosed]
        cases outcome with
        | unbuilt => contradiction
        | short => exact .inl rfl
        | whole =>
          refine .inr ⟨taken, queued, rfl, isQueued, ?_, ?_, ?_⟩
          · rw [framesOf_snoc _ short stale, ← wire]
          · rw [← order]
            simp [textsOf]
          · intro t' member
            exact each t' (by simpa using .inr (List.mem_append.mp member))

theorem kept_sendPong (kept : Kept c) (payload : Text) (stale : Nat → UInt8) (outcome : Outcome) :
    Kept (sendPong payload stale outcome c) := by
  unfold sendPong
  split
  · exact kept
  · split
    · exact .inl rfl
    · next small =>
      obtain isClosed | ⟨taken, queued, isTaken, isQueued, wire, order, each⟩ := kept
      · rw [wsSendFrame.eq_def, if_pos isClosed]
        exact .inl isClosed
      · by_cases isClosed : c.closed = true
        · rw [wsSendFrame.eq_def, if_pos isClosed]
          exact .inl isClosed
        · rw [wsSendFrame.eq_def, if_neg isClosed]
          cases outcome with
          | unbuilt => exact .inr ⟨taken, queued, isTaken, isQueued, wire, order, each⟩
          | short => exact .inl rfl
          | whole =>
            refine .inr ⟨taken, queued, isTaken, isQueued, ?_, ?_, each⟩
            · rw [framesOf_snoc _ (by dsimp only; omega) stale, ← wire]
            · rw [← order]
              simp [textsOf]

theorem kept_onClient {s : WsServer} (kept : ∀ c ∈ s, Kept c) (id : Nat) {f : WsClient → WsClient}
    (keeps : ∀ c, Kept c → Kept (f c)) : ∀ c ∈ onClient id f s, Kept c := by
  intro c member
  obtain ⟨c, before, rfl⟩ := List.mem_map.mp member
  split
  · exact keeps c (kept c before)
  · exact kept c before

theorem kept_step {s : WsServer} (kept : ∀ c ∈ s, Kept c) {label : Label} (oneLine : OneLine s label)
    (allocated : Allocated s label) : ∀ c ∈ step s label, Kept c := by
  cases label with
  | accept id =>
    intro c member
    rcases List.mem_append.mp member with old | new
    · exact kept c old
    · rw [List.mem_singleton.mp new]
      exact .inr ⟨[], [], rfl, rfl, rfl, rfl, by simp⟩
  | broadcast text grown =>
    intro c member
    obtain ⟨c, before, rfl⟩ := List.mem_map.mp member
    rw [allocated.2]
    exact kept_enqueue (kept c before) oneLine allocated.1
  | take id room => exact kept_onClient kept id fun c kept => kept_take kept room
  | send id stale outcome => exact kept_onClient kept id fun c kept => kept_sendLine kept stale allocated
  | pong id payload stale outcome => exact kept_onClient kept id fun c kept => kept_sendPong kept payload stale outcome
  | close id => exact kept_onClient kept id fun c _ => .inl rfl
  | remove id => exact fun c member => kept c (List.mem_filter.mp member).1

/-- In a run in which no text is too long for a frame and no allocation fails, the frames that went out
to a client that is not dropped and those still queued are the broadcasts since it joined. -/
theorem broadcasts_delivered {labels : List Label} {s : WsServer}
    (run : (wsServer.restrict Allocated).Run [] labels s) : ∀ c ∈ s, c.closed = false → Delivered c := by
  have kept : ∀ c ∈ s, Kept c := by
    refine @Machine.Run.invariant _ _ _ (fun s => ∀ c ∈ s, Kept c) ?_ _ _ _ run ?_
    · rintro s label _ before ⟨allocated, oneLine, rfl⟩
      exact kept_step before oneLine allocated
    · exact fun c member => absurd member List.not_mem_nil
  exact fun c member there => (kept c member).delivered there

theorem wire_of_one (one : 10 ∉ text) (stale : Nat → UInt8) : ∃ (s : WsServer) (c : WsClient),
    wsServer.Run [] [.accept 0, .broadcast text fun _ => true, .take 0 true, .send 0 stale .whole] s ∧ c ∈ s ∧
      c.closed = false ∧ c.wire = (outgoing stale (1, text)).frame ∧ c.sent = [(1, text)] := by
  let queued : WsClient :=
    { id := 0, queue := text ++ [10], cap := (text.length + 2) * 2, broadcasts := [text] }
  let taken : WsClient := { queued with queue := [], taken := text ++ [10] }
  let went : WsClient :=
    { taken with taken := [], wire := (outgoing stale (1, text)).frame, sent := [(1, text)] }
  have enqueues : step [{ id := 0 }] (.broadcast text fun _ => true) = [queued] := by
    have room : text.length + 2 ≤ (text.length + 2) * 2 := by omega
    simp [step, enqueue, queued, room]
  have takes : step [queued] (.take 0 true) = [taken] := by
    have whole : (text ++ [10]).take (text.length + 1) = text ++ [10] := List.take_of_length_le (by simp)
    simp [step, onClient, take, queued, taken, whole]
  have sends : step [taken] (.send 0 stale .whole) = [went] := by
    obtain ⟨drop, line⟩ := cut_line one []
    have first : sendLine stale .whole taken = went := by
      unfold sendLine
      rw [show taken.taken = text ++ [10] from rfl, drop, line, wsSendFrame.eq_def]
      rfl
    exact congrArg (fun c => [c]) first
  exact ⟨[went], went, Machine.Run.cons ⟨trivial, rfl⟩ (Machine.Run.cons ⟨one, enqueues⟩
    (Machine.Run.cons ⟨trivial, takes⟩ (Machine.Run.single ⟨trivial, sends⟩))),
    List.mem_singleton.mpr rfl, rfl, rfl, rfl⟩

theorem not_whole (long : 65536 ≤ text.length) (stale : Nat → UInt8) :
    (outgoing stale (1, text)).frame ≠ framesOf [(1, text)] := by
  intro same
  have length := congrArg List.length same
  have written := Outgoing.length_written (outgoing stale (1, text))
  have more : 2 ≤ (outgoing stale (1, text)).outLen := by
    rw [Outgoing.outLen]
    omega
  rw [if_pos (show 65536 ≤ (outgoing stale (1, text)).payload.length from long)] at written
  have rest : (outgoing (fun _ => 0) (1, text)).written.length = (outgoing stale (1, text)).written.length := rfl
  simp [framesOf, Outgoing.frame, rest] at length
  omega

/-- Behind the frame of a text of 65536 bytes two more bytes go out. -/
theorem long_broadcast_spoiled : ∃ s : WsServer, wsServer.Run []
    [.accept 0, .broadcast (List.replicate 65536 120) fun _ => true, .take 0 true, .send 0 (fun _ => 0) .whole] s ∧
      ¬ ∀ c ∈ s, c.closed = false → Delivered c := by
  have one : (10 : UInt8) ∉ List.replicate 65536 120 := fun member =>
    absurd (List.eq_of_mem_replicate member) (show (10 : UInt8) ≠ 120 by decide)
  obtain ⟨s, c, run, member, there, wire, sent⟩ := wire_of_one one fun _ => 0
  refine ⟨s, run, fun all => ?_⟩
  have whole := (all c member there).wire
  rw [wire, sent] at whole
  exact not_whole (by rw [List.length_replicate]) _ whole

/-- A client joins, and a text is broadcast and sent. -/
theorem broadcasts_delivered_hi : ∃ s : WsServer, (wsServer.restrict Allocated).Run []
    [.accept 0, .broadcast (ascii "hi") fun _ => true, .take 0 true, .send 0 (fun _ => 0) .whole] s ∧
      ∀ c ∈ s, c.closed = false → Delivered c :=
  have run := Machine.Run.cons ⟨trivial, trivial, rfl⟩
    (Machine.Run.cons ⟨⟨by decide, fun _ => rfl⟩, by show (10 : UInt8) ∉ ascii "hi"; decide, rfl⟩
      (Machine.Run.cons ⟨trivial, trivial, rfl⟩
        (Machine.Run.single ⟨by show Outcome.whole ≠ .unbuilt; decide, trivial, rfl⟩)))
  ⟨_, run, broadcasts_delivered run⟩

end CognitiveOs.Api.WebSocket
