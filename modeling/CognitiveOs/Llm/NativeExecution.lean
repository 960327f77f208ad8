import CognitiveOs.Foundation.Options
import CognitiveOs.Llm.NativeAssembly

/-!
# Execution of native streams

`openai_chat` on an assembled response, and which streams are executed.
-/

namespace CognitiveOs.Llm

open Foundation Infra Cjson

/-! ### The assembled response is read back -/

variable {c : ToolCall} {calls : List ToolCall} {finish content : Text}

theorem textOf_clean (json : Option Json) : 0 ∉ textOf json := by
  unfold textOf stringOf
  cases json.bind Json.string? with
  | none => simp
  | some s => exact not_mem_cstr s

def ToolCall.Clean (c : ToolCall) : Prop :=
  0 ∉ c.id ∧ 0 ∉ c.name ∧ 0 ∉ c.arguments

theorem callOf_clean (events : List Json) (i : Nat) : (callOf events i).Clean := by
  simp [ToolCall.Clean, callOf, textOf_clean]

theorem contentOf_clean (events : List Json) : 0 ∉ contentOf events := by
  simp [contentOf, textOf_clean]

theorem finishOf_clean (events : List Json) : 0 ∉ finishOf events := by
  unfold finishOf
  cases last : (events.filterMap finishReason).getLast? with
  | none => simp
  | some reason =>
    obtain ⟨event, -, read⟩ := List.mem_filterMap.mp (List.mem_of_getLast? last)
    obtain ⟨s, -, same⟩ := Option.map_eq_some_iff.mp read
    intro found
    subst same
    exact not_mem_cstr s (List.mem_of_mem_take found)

theorem callJson_plain (clean : c.Clean) : Json.Plain 2 (callJson c) := by
  rcases clean with ⟨id, name, arguments⟩
  apply Json.Plain.object
  apply Json.PlainMembers.cons (by simp [ascii]) (.string id)
  apply Json.PlainMembers.cons (by simp [ascii]) _ .nil
  apply Json.Plain.object
  apply Json.PlainMembers.cons (by simp [ascii]) (.string name)
  exact .cons (by simp [ascii]) (.string arguments) .nil

theorem callsJson_plain (clean : ∀ c ∈ calls, c.Clean) : Json.PlainItems 2 (calls.map callJson) := by
  induction calls with
  | nil => exact .nil
  | cons c calls ih =>
    rw [List.forall_mem_cons] at clean
    exact .cons (callJson_plain clean.1) (ih clean.2)

theorem responseJson_plain (finishClean : 0 ∉ finish) (contentClean : 0 ∉ content) (clean : ∀ c ∈ calls, c.Clean) :
    Json.Plain 7 (responseJson finish content calls) := by
  apply Json.Plain.object
  apply Json.PlainMembers.cons (by simp [ascii]) _ .nil
  apply Json.Plain.array
  apply Json.PlainItems.cons _ .nil
  apply Json.Plain.object
  apply Json.PlainMembers.cons (by simp [ascii]) (.string finishClean)
  apply Json.PlainMembers.cons (by simp [ascii]) _ .nil
  apply Json.Plain.object
  apply Json.PlainMembers.cons (by simp [ascii]) (.string contentClean)
  split
  · exact .nil
  · exact .cons (by simp [ascii]) (.array (callsJson_plain clean)) .nil

/-! ### What is executed -/

def ToolCall.Executable (c : ToolCall) : Prop :=
  c.name ≠ [] ∧ ∃ members, parseWhole c.arguments = some (.object members)

def Usable (finish content : Text) (calls : List ToolCall) : Prop :=
  if calls = [] then finish ≠ ascii "tool_calls" ∧ content ≠ []
  else finish ≠ ascii "length" ∧ ∀ c ∈ calls, c.Executable

@[simp] theorem stringOf_string (s : Text) : stringOf (some (.string s)) = some (cstr s) :=
  rfl

theorem readAction_callJson (clean : c.Clean) :
    readAction (callJson c) =
      match parseWhole c.arguments with
      | some (.object members) => if c.name = [] then none else some (c.name, .object members)
      | _ => none := by
  rcases clean with ⟨-, name, arguments⟩
  have fn : field (some (callJson c)) "function" =
      some (.object [(ascii "name", .string c.name), (ascii "arguments", .string c.arguments)]) := by
    have other : ascii "id" ≠ ascii "function" := by simp [ascii]
    simp [field, callJson, Json.get?, other]
  have other : ascii "name" ≠ ascii "arguments" := by simp [ascii]
  unfold readAction
  rw [fn]
  cases whole : parseWhole c.arguments with
  | none => simp [field, Json.get?, other, cstr_eq_self name, cstr_eq_self arguments, whole]
  | some json =>
    cases json <;> simp [field, Json.get?, other, cstr_eq_self name, cstr_eq_self arguments, whole]

theorem readAction_isSome (clean : c.Clean) : (readAction (callJson c)).isSome ↔ c.Executable := by
  rw [readAction_callJson clean]
  unfold ToolCall.Executable
  cases whole : parseWhole c.arguments with
  | none => simp
  | some json => cases json <;> simp

theorem parse_printResponse (finishClean : 0 ∉ finish) (contentClean : 0 ∉ content) (clean : ∀ c ∈ calls, c.Clean) :
    parse (printResponse (responseJson finish content calls)) = some (responseJson finish content calls) :=
  parse_print _ (responseJson_plain finishClean contentClean clean) (by decide)

theorem openaiChat_text (finishClean : 0 ∉ finish) (contentClean : 0 ∉ content) :
    openaiChat (200, printResponse (responseJson finish content [])) =
      if finish = ascii "tool_calls" then none
      else if content = [] then none
      else some { content, truncated := decide (finish = ascii "length"), actions := none } := by
  have other : ascii "finish_reason" ≠ ascii "message" := by simp [ascii]
  have another : ascii "content" ≠ ascii "tool_calls" := by simp [ascii]
  unfold openaiChat
  rw [if_neg (by simp), parse_printResponse finishClean contentClean (by simp)]
  simp [field, responseJson, Json.get?, Json.children, other, another, textOf, cstr_eq_self finishClean,
    cstr_eq_self contentClean]

theorem openaiChat_calls (finishClean : 0 ∉ finish) (contentClean : 0 ∉ content) (clean : ∀ c ∈ calls, c.Clean)
    (some_call : calls ≠ []) :
    openaiChat (200, printResponse (responseJson finish content calls)) =
      if finish = ascii "length" then none
      else ((calls.map callJson).mapM readAction).map fun actions =>
        { content, truncated := false, actions := some actions } := by
  have other : ascii "finish_reason" ≠ ascii "message" := by simp [ascii]
  have another : ascii "content" ≠ ascii "tool_calls" := by simp [ascii]
  obtain ⟨c, rest, same⟩ := List.exists_cons_of_ne_nil some_call
  subst same
  unfold openaiChat
  rw [if_neg (by simp), parse_printResponse finishClean contentClean clean]
  simp [field, responseJson, Json.get?, Json.children, other, another, textOf, cstr_eq_self finishClean,
    cstr_eq_self contentClean, -List.mapM_cons]
  split
  · rfl
  · next long =>
    rw [decide_eq_false long]
    cases (callJson c :: rest.map callJson).mapM readAction <;> rfl

theorem openaiChat_response (finishClean : 0 ∉ finish) (contentClean : 0 ∉ content) (clean : ∀ c ∈ calls, c.Clean) :
    (openaiChat (200, printResponse (responseJson finish content calls))).isSome ↔
      Usable finish content calls := by
  unfold Usable
  by_cases none_call : calls = []
  · subst none_call
    rw [openaiChat_text finishClean contentClean, if_pos rfl]
    split
    · next stop => simp [stop]
    · next stop => split <;> simp [*]
  · rw [openaiChat_calls finishClean contentClean clean none_call, if_neg none_call]
    have executable : ((calls.map callJson).mapM readAction).isSome ↔ ∀ c ∈ calls, c.Executable := by
      rw [mapM_isSome, List.forall_mem_map]
      exact forall₂_congr fun c member => readAction_isSome (clean c member)
    split
    · next stop => simp [stop]
    · next stop => rw [Option.isSome_map, executable, and_iff_right stop]

/-! ### Which streams are executed -/

def Whole (bytes : Text) : Prop :=
  (∀ mark, (eventLines (streamLines bytes [])).2 = some mark → 0 ∉ mark) ∧
    ∀ line ∈ (eventLines (streamLines bytes [])).1, 0 ∉ line ∧ (parseWhole (payloadOf line)).isSome

/-- The stream has an end marker and a finish reason, and each event before the marker is one JSON value. -/
def Complete (status : Nat) (bytes : Text) : Prop :=
  status = 200 ∧ (eventLines (streamLines bytes [])).2.isSome ∧ Whole bytes ∧
    ∃ line ∈ (eventLines (streamLines bytes [])).1, ∃ event reason,
      parseWhole (payloadOf line) = some event ∧ finishReason event = some reason ∧ reason ≠ []

theorem parse_of_parseWhole {s : Text} {json : Json} (whole : parseWhole s = some json) :
    parse s = some json := by
  unfold parseWhole at whole
  unfold parse
  cases read : parseWithEnd s with
  | none => rw [read] at whole; cases whole
  | some result =>
    rw [read] at whole
    obtain ⟨-, same⟩ := Option.ite_none_right_eq_some.mp whole
    rw [Option.map_some, same]

theorem complete_of_accepted {bytes : Text} {events : List Json} (accepted : Accepted bytes events)
    (whole : Whole bytes) : Complete 200 bytes := by
  rcases accepted with ⟨read, marker, finish⟩
  refine ⟨rfl, marker, whole, ?_⟩
  unfold finishOf at finish
  cases last : (events.filterMap finishReason).getLast? with
  | none =>
    rw [last] at finish
    exact absurd rfl finish
  | some reason =>
    rw [last] at finish
    obtain ⟨event, member, stop⟩ := List.mem_filterMap.mp (List.mem_of_getLast? last)
    obtain ⟨line, lineMember, readLine⟩ := mem_mapM read member
    obtain ⟨json, one⟩ := Option.isSome_iff_exists.mp (whole.2 line lineMember).2
    have same : json = event := by
      unfold readEvent at readLine
      rw [parse_of_parseWhole one] at readLine
      obtain ⟨-, same⟩ := Option.ite_none_right_eq_some.mp readLine
      exact Option.some.inj same
    refine ⟨line, lineMember, event, reason, same ▸ one, stop, ?_⟩
    intro empty
    subst empty
    exact finish rfl

/-- The response is that of the bytes, whatever the reads; it has each call whole, and only a complete
stream is executed. -/
structure Exact (status : Nat) (reads : Reads) : Prop where
  sameReads : ∀ others : Reads, Reads.bytes others = Reads.bytes reads →
    openaiNativeStream status others = openaiNativeStream status reads
  assembled : ∀ events, status = 200 → Accepted (Reads.bytes reads) events →
    openaiNativeStream status reads =
      (200, printResponse (responseJson (finishOf events) (contentOf events) (callsAssembled events)))
  complete : ¬ Complete status (Reads.bytes reads) → openaiChat (openaiNativeStream status reads) = none

theorem native_stream_exact (status : Nat) (reads : Reads) :
    Exact status reads ↔
      ∀ events, status = 200 → Accepted (Reads.bytes reads) events →
        Usable (finishOf events) (contentOf events) (callsAssembled events) →
        Whole (Reads.bytes reads) := by
  have chat {events : List Json} (ok : status = 200) (accepted : Accepted (Reads.bytes reads) events) :
      (openaiChat (openaiNativeStream status reads)).isSome ↔
        Usable (finishOf events) (contentOf events) (callsAssembled events) := by
    rw [ok, openaiNativeStream_accepted accepted]
    apply openaiChat_response (finishOf_clean events) (contentOf_clean events)
    exact List.forall_mem_map.mpr fun i _ => callOf_clean events i
  constructor
  · intro holds events ok accepted usable
    by_contra cut
    have executed := (chat ok accepted).mpr usable
    rw [holds.complete fun complete => cut complete.2.2.1] at executed
    cases executed
  · intro whole
    refine ⟨fun others same => ?_, fun events ok accepted => ?_, fun incomplete => ?_⟩
    · unfold openaiNativeStream
      rw [reads_foldl, reads_foldl, same]
    · rw [ok]
      exact openaiNativeStream_accepted accepted
    · by_cases accepted : status = 200 ∧ ∃ events, Accepted (Reads.bytes reads) events
      · rcases accepted with ⟨ok, events, accepted⟩
        apply Option.not_isSome_iff_eq_none.mp
        intro executed
        have usable := (chat ok accepted).mp executed
        exact incomplete (ok ▸ complete_of_accepted accepted (whole events ok accepted usable))
      · apply if_pos
        apply openaiNativeStream_refused
        by_cases ok : status = 200
        · exact .inr fun events read => accepted ⟨ok, events, read⟩
        · exact .inl ok

def trailingEvent : Text :=
  ascii "data: \x7b\"choices\":[\x7b\"finish_reason\":\"tool_calls\",\"delta\":\x7b\"tool_calls\":[\x7b\"index\":0,\"function\":\x7b\"name\":\"f\",\"arguments\":\"\x7b\x7d\"\x7d\x7d]\x7d\x7d]\x7d x\n"

def trailing : Text :=
  trailingEvent ++ ascii "data: [DONE]\n"

theorem trailing_ne_nil : trailing ≠ [] :=
  List.append_ne_nil_of_right_ne_nil _ (by decide)

theorem native_stream_exact_fails :
    ∃ reads : Reads, ¬ Complete 200 (Reads.bytes reads) ∧
      ((openaiChat (openaiNativeStream 200 reads)).bind ChatResponse.actions).isSome = true := by
  -- one evaluation reads the lines once
  have facts : (eventLines (streamLines (Reads.bytes [⟨trailing, trailing_ne_nil⟩]) [])).1.contains trailingEvent = true ∧
      (parseWhole (payloadOf trailingEvent)).isSome = false ∧
      ((openaiChat (openaiNativeStream 200 [⟨trailing, trailing_ne_nil⟩])).bind ChatResponse.actions).isSome = true := by
    decide +kernel
  obtain ⟨event, cut, executed⟩ := facts
  refine ⟨[⟨trailing, trailing_ne_nil⟩], fun complete => ?_, executed⟩
  have whole := (complete.2.2.1.2 trailingEvent (List.contains_iff_mem.mp event)).2
  exact Bool.false_ne_true (cut.symm.trans whole)

end CognitiveOs.Llm
