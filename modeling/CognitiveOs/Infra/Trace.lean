import CognitiveOs.Foundation.Window
import CognitiveOs.Infra.CodePoints
import CognitiveOs.Infra.Numerals
import CognitiveOs.Security.SshPasswords

/-!
# The trace of spans

`trace.c`: a ring of spans that keeps the latest ones. A log of all spans since the last
`trace_clear` says what the ring shows.
-/

namespace CognitiveOs.Infra

open Foundation.Window Security

/-- What a span keeps of a command or of its result, and whether that is cut. -/
structure Detail where
  text : Text
  truncated : Bool
  deriving DecidableEq

structure Span where
  id : Int := 0
  taskId : Int := 0
  name : Option Text := none
  startMs : Int := 0
  /-- 0 while the span is open -/
  endMs : Int := 0
  status : Int := 0
  command : Option Detail := none
  result : Option Detail := none
  deriving DecidableEq

structure Trace where
  spans : List Span
  count : Nat := 0
  next : Nat := 0
  nextId : Int := 1

namespace Trace

def boundedDetail (ps : Passwords) (text : Text) : Detail :=
  let valid := strUtf8Sanitize (secretRedactSshPasswords ps text)
  if 4096 < valid.length then ⟨valid.take (boundaryBefore valid 4096), true⟩ else ⟨valid, false⟩

def new (capacity : Nat) : Trace where
  spans := List.replicate (if capacity = 0 then 256 else capacity) {}

/-- `trace_begin_task`; `trace_begin` is that of task -1. -/
def beginTask (t : Trace) (taskId : Int) (name : Option Text) (now : Int) : Trace :=
  match name with
  | none => t
  | some name =>
    { spans := t.spans.set t.next { id := t.nextId, taskId, name := some name, startMs := now }
      count := if t.count < t.spans.length then t.count + 1 else t.count
      next := (t.next + 1) % t.spans.length
      nextId := t.nextId + 1 }

def closing (status now : Int) (s : Span) : Span :=
  { s with endMs := now, status }

def isOpen (id : Int) (s : Span) : Bool :=
  s.id = id ∧ s.endMs = 0

/-- `trace_end`, which looks at the latest span first. -/
def endSpan (t : Trace) (id status now : Int) : Trace :=
  { t with
    spans := modifyFirst (isOpen id) (closing status now) t.spans
      ((List.range t.count).map fun i => (t.next + t.spans.length - 1 - i) % t.spans.length) }

def hasId (id : Int) (s : Span) : Bool :=
  s.id = id

def addDetails (command result : Option Detail) (s : Span) : Span :=
  { s with command := command.or s.command, result := result.or s.result }

def commandDetails (t : Trace) (ps : Passwords) (id : Int) (command result : Option Text) : Trace :=
  { t with
    spans := modifyFirst (hasId id)
      (addDetails (command.map (boundedDetail ps)) (result.map (boundedDetail ps))) t.spans (List.range t.count) }

def clear (t : Trace) : Trace :=
  { t with spans := List.replicate t.count {} ++ t.spans.drop t.count, count := 0, next := 0 }

def detailMembers (key : String) : Option Detail → List (Text × Json)
  | none => []
  | some d => [(ascii key, .string d.text), (ascii (key ++ "_truncated"), .bool d.truncated)]

/-- `now id` is the clock when the span `id` is shown. -/
def spanJson (now : Int → Int) (s : Span) : Json :=
  .object
    ([(ascii "id", .number (toDouble s.id)), (ascii "task_id", .number (toDouble s.taskId)),
      (ascii "name", .string (s.name.getD [])), (ascii "start_ms", .number (toDouble s.startMs)),
      (ascii "end_ms", .number (toDouble s.endMs)),
      (ascii "duration_ms", .number (toDouble ((if s.endMs ≠ 0 then s.endMs else now s.id) - s.startMs))),
      (ascii "status", .number (toDouble s.status))] ++
      detailMembers "command" s.command ++ detailMembers "result" s.result)

/-- The spans in the order in which `trace_json_task_limit` goes over them. -/
def shown (t : Trace) : List Span :=
  listed t.spans t.next t.count

/-- The array of `trace_json_task_limit`, which drops its first item when there are more than the
limit. -/
def traceJsonTaskLimit (t : Trace) (taskId : Int) (limit : Nat) (now : Int → Int) : List Json :=
  t.shown.foldl (fun arr s =>
    if 0 ≤ taskId ∧ s.taskId ≠ taskId then arr
    else if limit ≠ 0 ∧ limit < (arr ++ [spanJson now s]).length then (arr ++ [spanJson now s]).tail
    else arr ++ [spanJson now s]) []

inductive Op where
  | begin (taskId : Int) (name : Option Text) (now : Int)
  | finish (id status now : Int)
  | details (ps : Passwords) (id : Int) (command result : Option Text)
  | clear

def step (t : Trace) : Op → Trace
  | .begin taskId name now => t.beginTask taskId name now
  | .finish id status now => t.endSpan id status now
  | .details ps id command result => t.commandDetails ps id command result
  | .clear => t.clear

def run (capacity : Nat) (ops : List Op) : Trace :=
  ops.foldl step (new capacity)

end Trace

/-- All spans since the last `trace_clear`, and the id of the next one. -/
structure Log where
  spans : List Span := []
  nextId : Int := 1

namespace Log

open Trace

def record (log : Log) : Op → Log
  | .begin _ none _ => log
  | .begin taskId (some name) now =>
    { spans := log.spans ++ [{ id := log.nextId, taskId, name := some name, startMs := now }]
      nextId := log.nextId + 1 }
  | .finish id status now =>
    { log with spans := log.spans.map fun s => if isOpen id s then closing status now s else s }
  | .details ps id command result =>
    { log with
      spans := log.spans.map fun s =>
        if hasId id s then addDetails (command.map (boundedDetail ps)) (result.map (boundedDetail ps)) s else s }
  | .clear => { log with spans := [] }

def ofOps (ops : List Op) : Log :=
  ops.foldl record {}

theorem ofOps_snoc (ops : List Op) (op : Op) : ofOps (ops ++ [op]) = (ofOps ops).record op :=
  List.foldl_append

/-- The ids go up. -/
structure Ordered (log : Log) : Prop where
  ascending : (log.spans.map Span.id).Pairwise (· < ·)
  fresh : ∀ s ∈ log.spans, s.id < log.nextId

theorem Ordered.map {log : Log} (ordered : log.Ordered) {f : Span → Span} (same : ∀ s, (f s).id = s.id) :
    Ordered { log with spans := log.spans.map f } := by
  refine ⟨?_, fun s member => ?_⟩
  · rw [List.map_map, show Span.id ∘ f = Span.id from funext same]
    exact ordered.ascending
  · obtain ⟨s', member', rfl⟩ := List.mem_map.mp member
    rw [same]
    exact ordered.fresh s' member'

theorem Ordered.record {log : Log} (ordered : log.Ordered) (op : Op) : (log.record op).Ordered := by
  cases op with
  | begin taskId name now =>
    cases name with
    | none => exact ordered
    | some name =>
      constructor
      · rw [Log.record, List.map_append, List.pairwise_append]
        refine ⟨ordered.ascending, List.pairwise_singleton .., fun a before b here => ?_⟩
        obtain ⟨s, member, rfl⟩ := List.mem_map.mp before
        obtain rfl : b = log.nextId := by simpa using here
        exact ordered.fresh s member
      · intro s member
        rcases List.mem_append.mp member with before | here
        · exact Int.lt_trans (ordered.fresh s before) (Int.lt_succ _)
        · obtain rfl := List.mem_singleton.mp here
          exact Int.lt_succ _
  | finish id status now => exact ordered.map fun s => by split <;> rfl
  | details ps id command result => exact ordered.map fun s => by split <;> rfl
  | clear => exact ⟨List.Pairwise.nil, fun _ member => absurd member List.not_mem_nil⟩

/-- At most one span has an id. -/
theorem Ordered.one {log : Log} (ordered : log.Ordered) (n : Nat) {p : Span → Bool} {id : Int}
    (named : ∀ s, p s → s.id = id) (i j : Nat) (s s' : Span) (here : (lastN n log.spans)[i]? = some s)
    (there : (lastN n log.spans)[j]? = some s') (has : p s) (has' : p s') : i = j := by
  have ids := (lastN_map Span.id n log.spans).symm
  have distinct : ((lastN n log.spans).map Span.id).Nodup := by
    rw [ids, lastN]
    exact (ordered.ascending.imp Int.ne_of_lt).drop
  refine (List.getElem?_inj ?_ distinct).mp ?_
  · rw [List.length_map]
    exact (List.getElem?_eq_some_iff.mp here).1
  · rw [List.getElem?_map, List.getElem?_map, here, there, Option.map_some, Option.map_some, named s has, named s' has']

end Log

namespace Trace

/-- The ring shows the end of the log. -/
structure Follows (t : Trace) (log : Log) : Prop where
  holds : Holds t.spans t.next t.count (lastN t.spans.length log.spans)
  nextId : t.nextId = log.nextId
  ordered : log.Ordered

theorem covers_newest {t : Trace} {items : List Span} (holds : Holds t.spans t.next t.count items) (k : Nat) :
    k ∈ (List.range t.count).map (fun i => (t.next + t.spans.length - 1 - i) % t.spans.length) ↔
      ∃ i < t.count, slotOf t.spans.length t.next t.count i = k := by
  have room := holds.room
  have mirror {i : Nat} (below : i < t.count) :
      slotOf t.spans.length t.next t.count (t.count - 1 - i) = (t.next + t.spans.length - 1 - i) % t.spans.length := by
    unfold slotOf
    congr 1
    omega
  rw [List.mem_map]
  constructor
  · rintro ⟨i, member, rfl⟩
    have below := List.mem_range.mp member
    exact ⟨t.count - 1 - i, by omega, mirror below⟩
  · rintro ⟨i, below, rfl⟩
    refine ⟨t.count - 1 - i, List.mem_range.mpr (by omega), ?_⟩
    rw [← mirror (by omega)]
    congr 1
    omega

theorem Follows.step {t : Trace} {log : Log} (follows : Follows t log) (op : Op) :
    Follows (t.step op) (log.record op) ∧ (t.step op).spans.length = t.spans.length := by
  have holds := follows.holds
  have changed {p : Span → Bool} {f : Span → Span} {order : List Nat} :
      (modifyFirst p f t.spans order).length = t.spans.length := length_modifyFirst ..
  have ordered := follows.ordered.record op
  cases op with
  | begin taskId name now =>
    cases name with
    | none => exact ⟨follows, rfl⟩
    | some name =>
      refine ⟨⟨?_, congrArg (· + 1) follows.nextId, ordered⟩, List.length_set⟩
      have put := holds.put { id := t.nextId, taskId, name := some name, startMs := now }
      rw [lastN_snoc, follows.nextId] at put
      rw [Trace.step, beginTask, follows.nextId, Log.record, List.length_set]
      exact put
  | finish id status now =>
    refine ⟨⟨?_, follows.nextId, ordered⟩, changed⟩
    have modified := holds.modifyFirst (covers_newest holds)
      (follows.ordered.one _ fun s has => (show s.id = id ∧ s.endMs = 0 from of_decide_eq_true has).1)
      (closing status now)
    rw [← lastN_map] at modified
    rw [Trace.step, endSpan, changed]
    exact modified
  | details ps id command result =>
    refine ⟨⟨?_, follows.nextId, ordered⟩, changed⟩
    have modified := holds.modifyFirst (fun k => List.mem_range.trans (holds.lt_count k))
      (follows.ordered.one _ fun s has => show s.id = id from of_decide_eq_true has)
      (addDetails (command.map (boundedDetail ps)) (result.map (boundedDetail ps)))
    rw [← lastN_map] at modified
    rw [Trace.step, commandDetails, changed]
    exact modified
  | clear =>
    have size : (List.replicate t.count ({} : Span) ++ t.spans.drop t.count).length = t.spans.length := by
      rw [List.length_append, List.length_replicate, List.length_drop]
      have room := holds.room
      omega
    have room : 0 < (t.step .clear).spans.length := by
      rw [show (t.step .clear).spans.length = t.spans.length from size]
      exact Nat.zero_lt_of_lt holds.inside
    refine ⟨⟨?_, follows.nextId, ordered⟩, size⟩
    rw [Log.record, lastN, List.drop_nil]
    exact Holds.empty room

theorem follows_new (capacity : Nat) : Follows (new capacity) {} := by
  have room : 0 < (new capacity).spans.length := by
    rw [new, List.length_replicate]
    split <;> omega
  refine ⟨?_, rfl, List.Pairwise.nil, fun _ member => absurd member List.not_mem_nil⟩
  rw [lastN, List.drop_nil]
  exact Holds.empty room

theorem follows_run (capacity : Nat) (ops : List Op) :
    Follows (run capacity ops) (Log.ofOps ops) ∧
      (run capacity ops).spans.length = if capacity = 0 then 256 else capacity := by
  induction ops using List.reverseRecOn with
  | nil => exact ⟨follows_new capacity, List.length_replicate ..⟩
  | append_singleton ops op ih =>
    rw [run, Log.ofOps, List.foldl_append, List.foldl_append]
    obtain ⟨follows, size⟩ := ih.1.step op
    exact ⟨follows, size.trans ih.2⟩

theorem shown_run (capacity : Nat) (ops : List Op) :
    (run capacity ops).shown = lastN (if capacity = 0 then 256 else capacity) (Log.ofOps ops).spans := by
  obtain ⟨follows, size⟩ := follows_run capacity ops
  rw [shown, follows.holds.listed_eq, size]

theorem mem_log {capacity : Nat} {ops : List Op} {s : Span} (member : s ∈ (run capacity ops).shown) :
    s ∈ (Log.ofOps ops).spans := by
  rw [shown_run] at member
  exact List.mem_of_mem_drop member

def ofTask (taskId : Int) (s : Span) : Bool :=
  taskId < 0 ∨ s.taskId = taskId

theorem showLoop_eq (taskId : Int) (limit : Nat) (now : Int → Int) (spans : List Span) :
    spans.foldl (fun arr s =>
        if 0 ≤ taskId ∧ s.taskId ≠ taskId then arr
        else if limit ≠ 0 ∧ limit < (arr ++ [spanJson now s]).length then (arr ++ [spanJson now s]).tail
        else arr ++ [spanJson now s]) [] =
      (if limit = 0 then id else lastN limit) ((spans.filter (ofTask taskId)).map (spanJson now)) := by
  have skips (arr : List Json) (s : Span) (next : List Json) :
      (if 0 ≤ taskId ∧ s.taskId ≠ taskId then arr else next) = if ofTask taskId s then next else arr := by
    rw [← ite_not]
    refine if_congr ?_ rfl rfl
    rw [ofTask, decide_eq_true_iff, not_and_or, Int.not_le, not_not]
  simp only [skips]
  rw [← List.foldl_filter, ← List.foldl_map (f := spanJson now)
    (g := fun arr o => if limit ≠ 0 ∧ limit < (arr ++ [o]).length then (arr ++ [o]).tail else arr ++ [o])]
  by_cases unlimited : limit = 0
  · rw [if_pos unlimited]
    simp only [unlimited, ne_eq, not_true, false_and, if_false]
    rw [List.foldl_append_eq_append, List.nil_append, ← List.flatMap_def, List.flatMap_singleton']
    rfl
  · rw [if_neg unlimited, ← foldl_lastN]
    simp only [unlimited, ne_eq, not_false_eq_true, true_and]

/-- The trace shows the latest spans since it was cleared, in their order: as many as it has
room for, of these the ones of the task, and of those as many as the limit allows. -/
theorem trace_shows_latest (capacity : Nat) (ops : List Op) (taskId : Int) (limit : Nat) (now : Int → Int) :
    (run capacity ops).traceJsonTaskLimit taskId limit now =
      (if limit = 0 then id else lastN limit)
        (((lastN (if capacity = 0 then 256 else capacity) (Log.ofOps ops).spans).filter (ofTask taskId)).map
          (spanJson now)) := by
  rw [traceJsonTaskLimit, shown_run, showLoop_eq]

/-- A span later on: it is still the same span, and one that had ended has not changed its end. -/
structure KeptIn (s s' : Span) : Prop where
  id : s'.id = s.id
  origin : s'.taskId = s.taskId ∧ s'.name = s.name ∧ s'.startMs = s.startMs
  ended : s.endMs ≠ 0 → s'.endMs = s.endMs ∧ s'.status = s.status

theorem KeptIn.trans {s s' s'' : Span} (first : KeptIn s s') (second : KeptIn s' s'') : KeptIn s s'' := by
  obtain ⟨task, name, start⟩ := first.origin
  obtain ⟨task', name', start'⟩ := second.origin
  refine ⟨second.id.trans first.id, ⟨task'.trans task, name'.trans name, start'.trans start⟩, fun ended => ?_⟩
  obtain ⟨same, status⟩ := first.ended ended
  obtain ⟨same', status'⟩ := second.ended (same ▸ ended)
  exact ⟨same'.trans same, status'.trans status⟩

/-- Every span of the later log is one of the earlier log or newer than all of them. -/
structure Later (log log' : Log) : Prop where
  nextId : log.nextId ≤ log'.nextId
  kept : ∀ s' ∈ log'.spans, (∃ s ∈ log.spans, KeptIn s s') ∨ log.nextId ≤ s'.id

theorem Later.refl (log : Log) : Later log log :=
  ⟨Int.le_refl _, fun s member => .inl ⟨s, member, rfl, ⟨rfl, rfl, rfl⟩, fun _ => ⟨rfl, rfl⟩⟩⟩

theorem later_map {log : Log} {f : Span → Span} (keeps : ∀ s, KeptIn s (f s)) :
    Later log { log with spans := log.spans.map f } := by
  refine ⟨Int.le_refl _, fun s' member => ?_⟩
  obtain ⟨s, old, rfl⟩ := List.mem_map.mp member
  exact .inl ⟨s, old, keeps s⟩

theorem Later.record {log log' : Log} (later : Later log log') (op : Op) : Later log (log'.record op) := by
  have after : Later log' (log'.record op) := by
    cases op with
    | begin taskId name now =>
      cases name with
      | none => exact Later.refl log'
      | some name =>
        refine ⟨Int.le_of_lt (Int.lt_succ _), fun s' member => ?_⟩
        rcases List.mem_append.mp member with old | new
        · exact (Later.refl log').kept s' old
        · obtain rfl := List.mem_singleton.mp new
          exact .inr (Int.le_refl _)
    | finish id status now =>
      refine later_map fun s => ?_
      split
      · rename_i isOpen
        have running : s.id = id ∧ s.endMs = 0 := of_decide_eq_true isOpen
        exact ⟨rfl, ⟨rfl, rfl, rfl⟩, fun ended => absurd running.2 ended⟩
      · exact ⟨rfl, ⟨rfl, rfl, rfl⟩, fun _ => ⟨rfl, rfl⟩⟩
    | details ps id command result =>
      refine later_map fun s => ?_
      split <;> exact ⟨rfl, ⟨rfl, rfl, rfl⟩, fun _ => ⟨rfl, rfl⟩⟩
    | clear => exact ⟨Int.le_refl _, fun _ member => absurd member List.not_mem_nil⟩
  refine ⟨Int.le_trans later.nextId after.nextId, fun s'' member => ?_⟩
  rcases after.kept s'' member with ⟨s', member', kept⟩ | new
  · rcases later.kept s' member' with ⟨s, member, kept'⟩ | new
    · exact .inl ⟨s, member, kept'.trans kept⟩
    · exact .inr (kept.id ▸ new)
  · exact .inr (Int.le_trans later.nextId new)

theorem later_run (before after : List Op) : Later (Log.ofOps before) (Log.ofOps (before ++ after)) := by
  induction after using List.reverseRecOn with
  | nil => rw [List.append_nil]; exact Later.refl _
  | append_singleton after op ih =>
    rw [← List.append_assoc, Log.ofOps_snoc]
    exact ih.record op

/-- The shown spans have ascending ids, and whatever is called later an id stays that of its span:
neither what the span is nor how it has ended changes any more. -/
theorem span_stays (capacity : Nat) (before after : List Op) :
    ((run capacity before).shown.map Span.id).Pairwise (· < ·) ∧
      ∀ s ∈ (run capacity before).shown, ∀ s' ∈ (run capacity (before ++ after)).shown, s'.id = s.id → KeptIn s s' := by
  have ordered := (follows_run capacity before).1.ordered
  refine ⟨?_, fun s shown s' shown' same => ?_⟩
  · rw [shown_run, ← lastN_map, lastN]
    exact ordered.ascending.drop
  · have old := ordered.fresh s (mem_log shown)
    rcases (later_run before after).kept s' (mem_log shown') with ⟨t, member, kept⟩ | new
    · have one : s = t := List.inj_on_of_nodup_map (ordered.ascending.imp Int.ne_of_lt) (mem_log shown) member
        (same.symm.trans kept.id)
      exact one ▸ kept
    · omega

/-- What some call recorded for the span of this id. -/
def Recorded (ops : List Op) (id : Int) (d : Detail) : Prop :=
  ∃ ps text command result, Op.details ps id command result ∈ ops ∧ (command = some text ∨ result = some text) ∧
    d = boundedDetail ps text

theorem recorded_run (ops : List Op) : ∀ s ∈ (Log.ofOps ops).spans, ∀ d, s.command = some d ∨ s.result = some d →
    Recorded ops s.id d := by
  induction ops using List.reverseRecOn with
  | nil => exact fun _ member => absurd member List.not_mem_nil
  | append_singleton ops op ih =>
    rw [Log.ofOps_snoc]
    have before {s : Span} (member : s ∈ (Log.ofOps ops).spans) {d : Detail}
        (has : s.command = some d ∨ s.result = some d) : Recorded (ops ++ [op]) s.id d := by
      obtain ⟨ps, text, command, result, called, given, same⟩ := ih s member d has
      exact ⟨ps, text, command, result, List.mem_append_left _ called, given, same⟩
    cases op with
    | begin taskId name now =>
      cases name with
      | none => exact fun s member d has => before member has
      | some name =>
        intro s member d has
        rcases List.mem_append.mp member with old | new
        · exact before old has
        · obtain rfl := List.mem_singleton.mp new
          rcases has with has | has <;> cases has
    | finish id status now =>
      intro s member d
      obtain ⟨s, old, rfl⟩ := List.mem_map.mp member
      split <;> exact before old
    | details ps id command result =>
      intro s member d
      obtain ⟨s, old, rfl⟩ := List.mem_map.mp member
      split
      · rename_i named
        obtain rfl : s.id = id := of_decide_eq_true named
        intro has
        have called : Op.details ps s.id command result ∈ ops ++ [.details ps s.id command result] :=
          List.mem_append_right _ (List.mem_singleton_self _)
        rcases has with has | has
        · rcases Option.or_eq_some_iff.mp has with new | ⟨-, has⟩
          · obtain ⟨text, given, rfl⟩ := Option.map_eq_some_iff.mp new
            exact ⟨ps, text, command, result, called, .inl given, rfl⟩
          · exact before old (.inl has)
        · rcases Option.or_eq_some_iff.mp has with new | ⟨-, has⟩
          · obtain ⟨text, given, rfl⟩ := Option.map_eq_some_iff.mp new
            exact ⟨ps, text, command, result, called, .inr given, rfl⟩
          · exact before old (.inr has)
      · exact before old
    | clear => exact fun _ member => absurd member List.not_mem_nil

/-- A detail is valid UTF-8 of at most 4096 bytes from the start of the redacted text; a cut takes
away less than one sequence more than it must. -/
theorem boundedDetail_spec (ps : Passwords) (text : Text) :
    (boundedDetail ps text).text <+: strUtf8Sanitize (secretRedactSshPasswords ps text) ∧
      strUtf8Valid (boundedDetail ps text).text = true ∧ (boundedDetail ps text).text.length ≤ 4096 ∧
      ((boundedDetail ps text).truncated = true → 4093 ≤ (boundedDetail ps text).text.length) ∧
      ((boundedDetail ps text).truncated = false →
        (boundedDetail ps text).text = strUtf8Sanitize (secretRedactSshPasswords ps text)) := by
  have valid := strUtf8Valid_sanitize (secretRedactSshPasswords ps text)
  unfold boundedDetail
  generalize strUtf8Sanitize (secretRedactSshPasswords ps text) = s at valid ⊢
  dsimp only
  split
  · rename_i long
    have low := boundaryBefore_le s 4096
    obtain ⟨l, -, short, behind, -⟩ := sequence_at_boundary valid long
    have length : (s.take (boundaryBefore s 4096)).length = boundaryBefore s 4096 := by
      rw [List.length_take]
      omega
    refine ⟨List.take_prefix .., strUtf8Valid_take valid (boundary_boundaryBefore valid 4096), ?_, fun _ => ?_, nofun⟩
    · rwa [length]
    · show 4093 ≤ (s.take _).length
      omega
  · exact ⟨List.prefix_refl _, valid, Nat.le_of_not_lt ‹_›, nofun, fun _ => rfl⟩

/-- Every detail that is shown was recorded for its own span, from a redacted text, and is bounded. -/
theorem details_bounded (capacity : Nat) (ops : List Op) {s : Span} (shown : s ∈ (run capacity ops).shown)
    {d : Detail} (has : s.command = some d ∨ s.result = some d) :
    Recorded ops s.id d ∧ strUtf8Valid d.text = true ∧ d.text.length ≤ 4096 ∧
      (d.truncated = true → 4093 ≤ d.text.length) := by
  have recorded := recorded_run ops s (mem_log shown) d has
  refine ⟨recorded, ?_⟩
  obtain ⟨ps, text, -, -, -, -, rfl⟩ := recorded
  obtain ⟨-, valid, short, long, -⟩ := boundedDetail_spec ps text
  exact ⟨valid, short, long⟩

/-- A span of a command in a ring of one. -/
def listing : Span :=
  { id := 1, taskId := -1, name := some (ascii "tool"), startMs := 5, command := some (boundedDetail [] (ascii "ls")) }

theorem details_bounded_listing : (boundedDetail [] (ascii "ls")).text.length ≤ 4096 :=
  (details_bounded 1 [.begin (-1) (some (ascii "tool")) 5, .details [] 1 (some (ascii "ls")) none]
    (s := listing) (List.mem_singleton.mpr rfl) (.inl rfl)).2.2.1

end Trace

end CognitiveOs.Infra
