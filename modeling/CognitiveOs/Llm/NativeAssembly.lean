import CognitiveOs.Infra.Print

/-!
# Native tool streams

`openai_native_stream` assembles the events of a provider stream to one response, which
`openai_chat` turns into tool actions.
-/

namespace CognitiveOs.Llm

open Infra Cjson

/-! ### The stream -/

structure ToolCall where
  id : Text := []
  name : Text := []
  arguments : Text := []
  deriving DecidableEq

structure Native where
  line : Text := []
  calls : Nat → ToolCall := fun _ => {}
  /-- `highest + 1`. -/
  count : Nat := 0
  content : Text := []
  finish : Text := []
  valid : Bool := true
  done : Bool := false

/-- `cJSON_GetStringValue`, as a C string. -/
def stringOf (json : Option Json) : Option Text :=
  (json.bind Json.string?).map cstr

def textOf (json : Option Json) : Text :=
  (stringOf json).getD []

def field (json : Option Json) (key : String) : Option Json :=
  json.bind fun json => json.get? (ascii key)

def callIndex (call : Json) : Option Nat :=
  match field (some call) "index" with
  | some (.number value) => if 0 ≤ value ∧ value ≤ 127 ∧ value.den = 1 then some value.num.toNat else none
  | _ => none

def ToolCall.append (c : ToolCall) (call : Json) : ToolCall :=
  let fn := field (some call) "function"
  { id := c.id ++ textOf (field (some call) "id")
    name := c.name ++ textOf (field fn "name")
    arguments := c.arguments ++ textOf (field fn "arguments") }

/-- `cJSON_GetArrayItem(.., 0)` of the choices. -/
def choiceOf (event : Json) : Option Json :=
  (field (some event) "choices").bind fun choices => choices.children.head?

def deltaOf (event : Json) : Option Json :=
  field (choiceOf event) "delta"

def callsOf (event : Json) : List Json :=
  ((field (deltaOf event) "tool_calls").map Json.children).getD []

namespace Native

def takeCall (n : Native) (call : Json) : Native :=
  if n.valid then
    match callIndex call with
    | none => { n with valid := false }
    | some i =>
      { n with
        calls := Function.update n.calls i ((n.calls i).append call)
        count := max n.count (i + 1) }
  else n

def onEvent (n : Native) (event : Json) : Native :=
  let finish :=
    match stringOf (field (choiceOf event) "finish_reason") with
    | some reason => snprintf 64 reason
    | none => n.finish
  let content := n.content ++ textOf (field (deltaOf event) "content")
  (callsOf event).foldl takeCall { n with finish, content }

end Native

def isData (line : Text) : Bool :=
  (ascii "data:").isPrefixOf line

def payloadOf (line : Text) : Text :=
  let payload := ((cstr line).drop 5).dropWhile (· = 32)
  (payload.reverse.dropWhile fun c => c = 10 || c = 13).reverse

def endMark : Text :=
  ascii "[DONE]"

namespace Native

def onLine (n : Native) (line : Text) : Native :=
  if isData line then
    if payloadOf line = endMark then { n with done := true }
    else
      match parse (payloadOf line) with
      | none => { n with valid := false }
      | some event => n.onEvent event
  else n

def feed (n : Native) (c : UInt8) : Native :=
  if n.valid && !n.done then
    if c = 10 then onLine { n with line := [] } (n.line ++ [c]) else { n with line := n.line ++ [c] }
  else n

end Native

/-- What successive reads return, none of them empty. -/
abbrev Reads := List { read : Text // read ≠ [] }

def Reads.bytes (reads : Reads) : Text :=
  reads.flatMap Subtype.val

def callJson (c : ToolCall) : Json :=
  .object
    [(ascii "id", .string c.id),
      (ascii "function", .object [(ascii "name", .string c.name), (ascii "arguments", .string c.arguments)])]

def responseJson (finish content : Text) (calls : List ToolCall) : Json :=
  let message := (ascii "content", Json.string content) ::
    (if calls = [] then [] else [(ascii "tool_calls", Json.array (calls.map callJson))])
  .object
    [(ascii "choices",
      .array [.object [(ascii "finish_reason", .string finish), (ascii "message", .object message)]])]

def printResponse (json : Json) : Text :=
  json.print fun _ => []

/-- `openai_native_stream`: the status and the body of the response. -/
def openaiNativeStream (status : Nat) (reads : Reads) : Nat × Text :=
  if status ≠ 200 then (status, ascii "native stream provider rejected request")
  else
    let n := reads.foldl (fun n read => read.val.foldl Native.feed n) {}
    if !n.valid || !n.done || n.finish = [] then
      (502, ascii "incomplete or malformed native stream; no actions executed")
    else (200, printResponse (responseJson n.finish n.content ((List.range n.count).map n.calls)))

/-! ### The response -/

structure ChatResponse where
  content : Text
  truncated : Bool
  /-- `tool_actions_json`. -/
  actions : Option (List (Text × Json))

def readAction (call : Json) : Option (Text × Json) :=
  let fn := field (some call) "function"
  match stringOf (field fn "name"), stringOf (field fn "arguments") with
  | some name, some arguments =>
    match parseWhole arguments with
    | some (.object members) => if name = [] then none else some (name, .object members)
    | _ => none
  | _, _ => none

/-- `openai_chat` after the response; none when it returns an error. -/
def openaiChat (response : Nat × Text) : Option ChatResponse :=
  if response.1 ≠ 200 then none
  else
    match parse response.2 with
    | none => none
    | some root =>
      let choice := (field (some root) "choices").bind fun choices => choices.children.head?
      let msg := field choice "message"
      let finish := stringOf (field choice "finish_reason")
      let truncated := finish = some (ascii "length")
      let content := textOf (field msg "content")
      let result (actions : Option (List (Text × Json))) : Option ChatResponse :=
        if actions.isNone ∧ finish = some (ascii "tool_calls") then none
        else if content = [] ∧ actions.isNone then none
        else some { content, truncated, actions }
      match field msg "tool_calls" with
      | none | some .null | some (.array []) => result none
      | some (.array (call :: calls)) =>
        if truncated then none
        else
          match (call :: calls).mapM readAction with
          | none => none
          | some actions => result (some actions)
      | some _ => none

end CognitiveOs.Llm

/-!
## Assembled responses

What a native stream is assembled to, from its bytes alone, and when it is executed.
-/

namespace CognitiveOs.Llm

open Infra Cjson

/-! ### The events of a stream -/

/-- The complete lines, with their ends; `line` has been read of the first. -/
def streamLines : Text → Text → List Text
  | [], _ => []
  | c :: rest, line => if c = 10 then (line ++ [c]) :: streamLines rest [] else streamLines rest (line ++ [c])

def eventLines : List Text → List Text × Option Text
  | [] => ([], none)
  | line :: lines =>
    if isData line then
      if payloadOf line = endMark then ([], some line)
      else
        let (before, marker) := eventLines lines
        (line :: before, marker)
    else eventLines lines

def IndexesValid (event : Json) : Prop :=
  ∀ call ∈ callsOf event, callIndex call ≠ none

instance (event : Json) : Decidable (IndexesValid event) :=
  inferInstanceAs (Decidable (∀ call ∈ callsOf event, callIndex call ≠ none))

def readEvent (line : Text) : Option Json :=
  match parse (payloadOf line) with
  | none => none
  | some event => if IndexesValid event then some event else none

def readEvents (lines : List Text) : Option (List Json) :=
  (eventLines lines).1.mapM readEvent

def finishReason (event : Json) : Option Text :=
  stringOf (field (choiceOf event) "finish_reason")

/-! ### What is assembled -/

def finishOf (events : List Json) : Text :=
  ((events.filterMap finishReason).getLast?.map (snprintf 64)).getD []

def contentOf (events : List Json) : Text :=
  events.flatMap fun event => textOf (field (deltaOf event) "content")

def fragments (events : List Json) (i : Nat) : List Json :=
  (events.flatMap callsOf).filter fun call => callIndex call = some i

def callOf (events : List Json) (i : Nat) : ToolCall :=
  let parts := fragments events i
  { id := parts.flatMap fun call => textOf (field (some call) "id")
    name := parts.flatMap fun call => textOf (field (field (some call) "function") "name")
    arguments := parts.flatMap fun call => textOf (field (field (some call) "function") "arguments") }

def countOf (events : List Json) : Nat :=
  ((events.flatMap callsOf).filterMap callIndex).foldl (fun count i => max count (i + 1)) 0

def callsAssembled (events : List Json) : List ToolCall :=
  (List.range (countOf events)).map (callOf events)

/-! ### The bytes alone decide -/

theorem reads_foldl (reads : Reads) (n : Native) :
    reads.foldl (fun n read => read.val.foldl Native.feed n) n = (Reads.bytes reads).foldl Native.feed n := by
  induction reads generalizing n with
  | nil => rfl
  | cons read reads ih =>
    have split : Reads.bytes (read :: reads) = read.val ++ Reads.bytes reads := List.flatMap_cons ..
    rw [List.foldl_cons, ih, split, List.foldl_append]

theorem ToolCall.foldl_append (c : ToolCall) (parts : List Json) :
    parts.foldl ToolCall.append c =
      { id := c.id ++ parts.flatMap fun call => textOf (field (some call) "id")
        name := c.name ++ parts.flatMap fun call => textOf (field (field (some call) "function") "name")
        arguments :=
          c.arguments ++ parts.flatMap fun call => textOf (field (field (some call) "function") "arguments") } := by
  induction parts generalizing c with
  | nil => simp
  | cons call parts ih =>
    rw [List.foldl_cons, ih]
    simp [ToolCall.append]

namespace Native

def lineStep (n : Native) (line : Text) : Native :=
  if n.valid && !n.done then n.onLine line else n

variable {n : Native}

theorem foldl_feed_stopped (stopped : (n.valid && !n.done) = false) (bytes : Text) : bytes.foldl feed n = n := by
  induction bytes with
  | nil => rfl
  | cons c bytes ih =>
    rw [List.foldl_cons, feed, stopped, if_neg Bool.false_ne_true, ih]

theorem foldl_lineStep_stopped (stopped : (n.valid && !n.done) = false) (lines : List Text) :
    lines.foldl lineStep n = n := by
  induction lines with
  | nil => rfl
  | cons line lines ih =>
    rw [List.foldl_cons, lineStep, stopped, if_neg Bool.false_ne_true, ih]

def setLine (n : Native) (line : Text) : Native :=
  { n with line }

theorem takeCall_setLine (n : Native) (line : Text) (call : Json) :
    (n.setLine line).takeCall call = (n.takeCall call).setLine line := by
  unfold takeCall setLine
  split
  · cases callIndex call <;> rfl
  · rfl

theorem foldl_takeCall_setLine (n : Native) (line : Text) (calls : List Json) :
    calls.foldl takeCall (n.setLine line) = (calls.foldl takeCall n).setLine line := by
  induction calls generalizing n with
  | nil => rfl
  | cons call calls ih =>
    rw [List.foldl_cons, List.foldl_cons, takeCall_setLine, ih]

theorem onEvent_setLine (n : Native) (line : Text) (event : Json) :
    (n.setLine line).onEvent event = (n.onEvent event).setLine line := by
  unfold onEvent
  rw [← foldl_takeCall_setLine]
  rfl

theorem onLine_setLine (n : Native) (line text : Text) :
    (n.setLine line).onLine text = (n.onLine text).setLine line := by
  unfold onLine
  split
  · split
    · rfl
    · cases parse (payloadOf text) with
      | none => rfl
      | some event => exact onEvent_setLine n line event
  · rfl

theorem feed_setLine (reading : (n.valid && !n.done) = true) (line : Text) (c : UInt8) :
    (n.setLine line).feed c =
      if c = 10 then (n.onLine (line ++ [c])).setLine [] else n.setLine (line ++ [c]) := by
  rw [← onLine_setLine]
  exact if_pos reading

theorem foldl_feed (n : Native) (bytes line : Text) (reading : (n.valid && !n.done) = true) :
    ∃ rest, bytes.foldl feed (n.setLine line) = ((streamLines bytes line).foldl lineStep n).setLine rest := by
  induction bytes generalizing n line with
  | nil => exact ⟨line, rfl⟩
  | cons c bytes ih =>
    rw [List.foldl_cons, streamLines, feed_setLine reading]
    split
    · rw [List.foldl_cons, lineStep, if_pos reading]
      cases later : (n.onLine (line ++ [c])).valid && !(n.onLine (line ++ [c])).done with
      | true => exact ih _ [] later
      | false =>
        have stopped : (((n.onLine (line ++ [c])).setLine []).valid &&
            !((n.onLine (line ++ [c])).setLine []).done) = false := later
        rw [foldl_feed_stopped stopped, foldl_lineStep_stopped later]
        exact ⟨[], rfl⟩
    · exact ih n (line ++ [c]) reading

/-! ### One event -/

theorem foldl_takeCall_valid (n : Native) (calls : List Json) :
    (calls.foldl takeCall n).valid = true ↔ n.valid = true ∧ ∀ call ∈ calls, callIndex call ≠ none := by
  induction calls generalizing n with
  | nil => simp
  | cons call calls ih =>
    rw [List.foldl_cons, ih, List.forall_mem_cons]
    unfold takeCall
    cases valid : n.valid with
    | false => simp [valid]
    | true => cases index : callIndex call <;> simp

theorem onEvent_valid (n : Native) (event : Json) :
    (n.onEvent event).valid = true ↔ n.valid = true ∧ IndexesValid event :=
  foldl_takeCall_valid _ _

theorem foldl_takeCall_frame (n : Native) (calls : List Json) :
    (calls.foldl takeCall n).content = n.content ∧ (calls.foldl takeCall n).finish = n.finish ∧
      (calls.foldl takeCall n).done = n.done := by
  induction calls generalizing n with
  | nil => exact ⟨rfl, rfl, rfl⟩
  | cons call calls ih =>
    have frame : (n.takeCall call).content = n.content ∧ (n.takeCall call).finish = n.finish ∧
        (n.takeCall call).done = n.done := by
      unfold takeCall
      split
      · cases callIndex call <;> exact ⟨rfl, rfl, rfl⟩
      · exact ⟨rfl, rfl, rfl⟩
    rw [List.foldl_cons]
    rcases ih (n.takeCall call) with ⟨content, finish, done⟩
    exact ⟨content.trans frame.1, finish.trans frame.2.1, done.trans frame.2.2⟩

theorem foldl_takeCall_calls {calls : List Json} (valid : n.valid = true)
    (indexes : ∀ call ∈ calls, callIndex call ≠ none) (i : Nat) :
    (calls.foldl takeCall n).calls i =
        (calls.filter fun call => callIndex call = some i).foldl ToolCall.append (n.calls i) ∧
      (calls.foldl takeCall n).count =
        (calls.filterMap callIndex).foldl (fun count i => max count (i + 1)) n.count := by
  induction calls generalizing n with
  | nil => exact ⟨rfl, rfl⟩
  | cons call calls ih =>
    rw [List.forall_mem_cons] at indexes
    obtain ⟨j, index⟩ := Option.ne_none_iff_exists'.mp indexes.1
    have step : n.takeCall call =
        { n with
          calls := Function.update n.calls j ((n.calls j).append call)
          count := max n.count (j + 1) } := by
      unfold takeCall
      rw [if_pos valid, index]
    rcases ih (n := n.takeCall call) (by rw [step]; exact valid) indexes.2 with ⟨later, count⟩
    rw [List.foldl_cons, List.filterMap_cons, index, List.foldl_cons]
    constructor
    · rw [later, step]
      by_cases same : j = i
      · subst same
        simp [index]
      · simp [index, same, Function.update_of_ne (Ne.symm same)]
    · rw [count, step]

end Native

/-! ### The events up to the end marker -/

variable {line : Text}

theorem eventLines_quiet (quiet : ¬ isData line = true) (lines : List Text) :
    eventLines (line :: lines) = eventLines lines :=
  if_neg quiet

theorem eventLines_mark (data : isData line = true) (mark : payloadOf line = endMark) (lines : List Text) :
    eventLines (line :: lines) = ([], some line) := by
  rw [eventLines, if_pos data, if_pos mark]

theorem eventLines_event (data : isData line = true) (event : payloadOf line ≠ endMark) (lines : List Text) :
    eventLines (line :: lines) = (line :: (eventLines lines).1, (eventLines lines).2) := by
  rw [eventLines, if_pos data, if_neg event]

theorem readEvents_event (data : isData line = true) (event : payloadOf line ≠ endMark) (lines : List Text) :
    readEvents (line :: lines) = (readEvent line).bind fun event => (readEvents lines).map (event :: ·) := by
  rw [readEvents, eventLines_event data event, List.mapM_cons]
  cases readEvent line with
  | none => rfl
  | some first =>
    show (readEvents lines).bind _ = _
    cases readEvents lines <;> rfl

namespace Native

theorem onEvent_done (n : Native) (event : Json) : (n.onEvent event).done = n.done :=
  (foldl_takeCall_frame _ _).2.2

theorem onLine_readEvent {line : Text} {event : Json} (data : isData line = true)
    (unmarked : payloadOf line ≠ endMark) (n : Native) (read : readEvent line = some event) :
    n.onLine line = n.onEvent event ∧ IndexesValid event := by
  unfold readEvent at read
  unfold onLine
  rw [if_pos data, if_neg unmarked]
  cases parsed : parse (payloadOf line) with
  | none => rw [parsed] at read; cases read
  | some json =>
    rw [parsed] at read
    obtain ⟨indexes, same⟩ := Option.ite_none_right_eq_some.mp read
    cases same
    exact ⟨rfl, indexes⟩

theorem onLine_unread {line : Text} (data : isData line = true) (unmarked : payloadOf line ≠ endMark)
    (n : Native) (unread : readEvent line = none) : (n.onLine line).valid = false := by
  unfold readEvent at unread
  unfold onLine
  rw [if_pos data, if_neg unmarked]
  cases parsed : parse (payloadOf line) with
  | none => rfl
  | some json =>
    rw [parsed] at unread
    apply Bool.eq_false_iff.mpr
    intro valid
    have read := (if_pos ((onEvent_valid n json).mp valid).2).symm.trans unread
    cases read

variable {n : Native}

theorem foldl_lineStep_read {lines : List Text} {events : List Json} (read : readEvents lines = some events)
    (valid : n.valid = true) (running : n.done = false) :
    lines.foldl lineStep n = { events.foldl onEvent n with done := (eventLines lines).2.isSome } ∧
      ∀ event ∈ events, IndexesValid event := by
  induction lines generalizing n events with
  | nil =>
    cases read
    cases n
    cases running
    exact ⟨rfl, by simp⟩
  | cons line lines ih =>
    have step : n.lineStep line = n.onLine line := by
      unfold lineStep
      rw [valid, running]
      rfl
    rw [List.foldl_cons, step]
    by_cases data : isData line = true
    · by_cases mark : payloadOf line = endMark
      · rw [readEvents, eventLines_mark data mark] at read
        cases read
        have stop : n.onLine line = { n with done := true } := by
          unfold onLine
          rw [if_pos data, if_pos mark]
        rw [stop, eventLines_mark data mark, foldl_lineStep_stopped (by simp)]
        exact ⟨rfl, by simp⟩
      · rw [readEvents_event data mark] at read
        obtain ⟨event, first, later⟩ := Option.bind_eq_some_iff.mp read
        obtain ⟨rest, readRest, same⟩ := Option.map_eq_some_iff.mp later
        subst same
        obtain ⟨onEvent, indexes⟩ := onLine_readEvent data mark n first
        rw [onEvent, eventLines_event data mark, List.foldl_cons, List.forall_mem_cons]
        rcases ih readRest ((onEvent_valid n event).mpr ⟨valid, indexes⟩)
          ((onEvent_done n event).trans running) with ⟨result, all⟩
        exact ⟨result, indexes, all⟩
    · have quiet : n.onLine line = n := if_neg data
      rw [readEvents, eventLines_quiet data] at read
      rw [quiet, eventLines_quiet data]
      exact ih read valid running

theorem foldl_lineStep_unread {lines : List Text} (unread : readEvents lines = none) (valid : n.valid = true)
    (running : n.done = false) : (lines.foldl lineStep n).valid = false := by
  induction lines generalizing n with
  | nil => cases unread
  | cons line lines ih =>
    have step : n.lineStep line = n.onLine line := by
      unfold lineStep
      rw [valid, running]
      rfl
    rw [List.foldl_cons, step]
    by_cases data : isData line = true
    · by_cases mark : payloadOf line = endMark
      · rw [readEvents, eventLines_mark data mark] at unread
        cases unread
      · rw [readEvents_event data mark] at unread
        cases first : readEvent line with
        | none =>
          have invalid := onLine_unread data mark n first
          rw [foldl_lineStep_stopped (by rw [invalid]; rfl)]
          exact invalid
        | some event =>
          obtain ⟨onEvent, indexes⟩ := onLine_readEvent data mark n first
          rw [first, Option.bind_some, Option.map_eq_none_iff] at unread
          rw [onEvent]
          exact ih unread ((onEvent_valid n event).mpr ⟨valid, indexes⟩) ((onEvent_done n event).trans running)
    · have quiet : n.onLine line = n := if_neg data
      rw [readEvents, eventLines_quiet data] at unread
      rw [quiet]
      exact ih unread valid running

theorem onEvent_content (n : Native) (event : Json) :
    (n.onEvent event).content = n.content ++ textOf (field (deltaOf event) "content") :=
  (foldl_takeCall_frame _ _).1

theorem onEvent_finish (n : Native) (event : Json) :
    (n.onEvent event).finish = ((finishReason event).map (snprintf 64)).getD n.finish := by
  rw [finishReason]
  apply (foldl_takeCall_frame _ _).2.1.trans
  cases stringOf (field (choiceOf event) "finish_reason") <;> rfl

theorem foldl_onEvent {events : List Json} (valid : n.valid = true) (indexes : ∀ event ∈ events, IndexesValid event) :
    (events.foldl onEvent n).valid = true ∧
      (events.foldl onEvent n).content = n.content ++ contentOf events ∧
      (events.foldl onEvent n).finish =
        ((events.filterMap finishReason).getLast?.map (snprintf 64)).getD n.finish ∧
      (events.foldl onEvent n).count =
        ((events.flatMap callsOf).filterMap callIndex).foldl (fun count i => max count (i + 1)) n.count ∧
      ∀ i, (events.foldl onEvent n).calls i = (fragments events i).foldl ToolCall.append (n.calls i) := by
  induction events generalizing n with
  | nil => exact ⟨valid, (List.append_nil _).symm, rfl, rfl, fun _ => rfl⟩
  | cons event events ih =>
    rw [List.forall_mem_cons] at indexes
    rcases ih ((onEvent_valid n event).mpr ⟨valid, indexes.1⟩) indexes.2 with
      ⟨later, content, finish, count, calls⟩
    have first (i : Nat) :
        (n.onEvent event).calls i =
            ((callsOf event).filter fun call => callIndex call = some i).foldl ToolCall.append (n.calls i) ∧
          (n.onEvent event).count =
            ((callsOf event).filterMap callIndex).foldl (fun count i => max count (i + 1)) n.count :=
      foldl_takeCall_calls (by exact valid) indexes.1 i
    rw [List.foldl_cons, List.flatMap_cons]
    refine ⟨later, ?_, ?_, ?_, fun i => ?_⟩
    · rw [content, onEvent_content, List.append_assoc]
      rfl
    · rw [finish, onEvent_finish, List.filterMap_cons]
      cases finishReason event with
      | none => rfl
      | some reason =>
        simp only [List.getLast?_cons]
        cases (events.filterMap finishReason).getLast? <;> rfl
    · rw [count, (first 0).2, List.filterMap_append, List.foldl_append]
    · rw [calls, (first i).1, fragments, fragments, List.flatMap_cons, List.filter_append, List.foldl_append]

end Native

/-! ### The response -/

def Accepted (bytes : Text) (events : List Json) : Prop :=
  readEvents (streamLines bytes []) = some events ∧ (eventLines (streamLines bytes [])).2.isSome ∧
    finishOf events ≠ []

theorem read_stream (reads : Reads) :
    ∃ rest, reads.foldl (fun n read => read.val.foldl Native.feed n) {} =
      ((streamLines (Reads.bytes reads) []).foldl Native.lineStep {}).setLine rest := by
  rw [reads_foldl]
  exact Native.foldl_feed {} (Reads.bytes reads) [] rfl

theorem openaiNativeStream_accepted {reads : Reads} {events : List Json}
    (accepted : Accepted (Reads.bytes reads) events) :
    openaiNativeStream 200 reads =
      (200, printResponse (responseJson (finishOf events) (contentOf events) (callsAssembled events))) := by
  rcases accepted with ⟨read, marker, finish⟩
  obtain ⟨rest, fed⟩ := read_stream reads
  obtain ⟨lines, indexes⟩ := Native.foldl_lineStep_read (n := {}) read rfl rfl
  obtain ⟨valid, content, last, count, calls⟩ := Native.foldl_onEvent (n := {}) rfl indexes
  have reason : (events.foldl Native.onEvent {}).finish = finishOf events := last
  have assembled : (events.foldl Native.onEvent {}).calls = callOf events := by
    funext i
    rw [calls i, ToolCall.foldl_append]
    rfl
  unfold openaiNativeStream
  rw [fed, lines, marker, if_neg (by simp)]
  simp only [Native.setLine, valid, reason, finish]
  rw [assembled, content, count]
  rfl

theorem openaiNativeStream_refused {status : Nat} {reads : Reads}
    (refused : status ≠ 200 ∨ ∀ events, ¬ Accepted (Reads.bytes reads) events) :
    (openaiNativeStream status reads).1 ≠ 200 := by
  unfold openaiNativeStream
  by_cases ok : status ≠ 200
  · rw [if_pos ok]
    exact ok
  · rw [if_neg ok]
    have unread := refused.resolve_left ok
    obtain ⟨rest, fed⟩ := read_stream reads
    rw [fed]
    cases read : readEvents (streamLines (Reads.bytes reads) []) with
    | none =>
      have invalid := Native.foldl_lineStep_unread (n := {}) read rfl rfl
      simp [Native.setLine, invalid]
    | some events =>
      obtain ⟨lines, indexes⟩ := Native.foldl_lineStep_read (n := {}) read rfl rfl
      obtain ⟨valid, -, last, -⟩ := Native.foldl_onEvent (n := {}) rfl indexes
      have reason : (events.foldl Native.onEvent {}).finish = finishOf events := last
      have missing : (eventLines (streamLines (Reads.bytes reads) [])).2.isSome = false ∨ finishOf events = [] := by
        by_contra both
        rw [not_or, Bool.not_eq_false] at both
        exact unread events ⟨read, both.1, both.2⟩
      rw [lines]
      simp only [Native.setLine, valid, reason]
      rcases missing with marker | finish
      · simp [marker]
      · simp [finish]

end CognitiveOs.Llm
