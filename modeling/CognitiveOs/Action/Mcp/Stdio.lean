import CognitiveOs.Infra.Follow
import Mathlib.Algebra.Group.Int.Defs
import Mathlib.Data.Rat.Defs

/-!
# Replies of stdio servers

How `rpc_stdio` waits for the reply to a request: the reads until the deadline or the exit of
the server, and the line that `stdio_take_response` takes from the buffer.
-/

namespace CognitiveOs.Action.Stdio

open Infra Cjson

/-- `(long)valuedouble`; what does not fit is the smallest value. -/
def toLong (value : Rat) : Int :=
  if -2 ^ 63 ≤ value ∧ value < 2 ^ 63 then value.num.tdiv value.den else -2 ^ 63

def numbered (wantId : Int) (msg : Json) : Bool :=
  match msg.get? (ascii "id") with
  | some (.number value) => toLong value = wantId
  | _ => false

def isMatch (wantId : Int) (line : Text) : Bool :=
  match parse line with
  | some msg => numbered wantId msg
  | none => false

/-- The loop over the buffer, `line` being read of the current line: the line that matches, and
what the trim leaves. -/
def takeLine (wantId : Int) : Text → Text → Option (Text × Text)
  | line, [] => if isMatch wantId line then some (line, []) else none
  | line, c :: rest =>
    if c = 0 then if isMatch wantId line then some (line, c :: rest) else none
    else if c = 10 then if isMatch wantId line then some (line, rest) else takeLine wantId [] rest
    else takeLine wantId (line ++ [c]) rest

def stdioTakeResponse (wantId : Int) (buffer : Text) : Option (Text × Text) :=
  takeLine wantId [] buffer

def awaitLine (wantId : Int) : Text → List Text → Option (Text × Text)
  | _, [] => none
  | buffer, read :: reads =>
    match stdioTakeResponse wantId (buffer ++ read) with
    | some taken => some taken
    | none => awaitLine wantId (buffer ++ read) reads

inductive Outcome where
  | result (value : Json)
  | error (value : Json)
  | noResult
  | invalid
  | timeout

def interpret (msg : Json) : Outcome :=
  match msg.get? (ascii "error") with
  | some value => .error value
  | none =>
    match msg.get? (ascii "result") with
    | some value => .result value
    | none => .noResult

/-- `rpc_stdio` after the request is written: the buffer, and the reads up to the deadline or the
exit of the server. -/
def rpcStdio (id : Int) (buffer : Text) (reads : List Text) : Outcome :=
  match awaitLine id buffer reads with
  | none => .timeout
  | some (line, _) =>
    match parse line with
    | none => .invalid
    | some msg => interpret msg

/-! ### Messages -/

def visibleLines : Text → Text → List Text
  | line, [] => [line]
  | line, c :: rest =>
    if c = 0 then [line]
    else if c = 10 then line :: visibleLines [] rest
    else visibleLines (line ++ [c]) rest

def firstNumbered (wantId : Int) (lines : List Text) : Option Json :=
  lines.findSome? fun line => (parse line).filter (numbered wantId)

def completeLines : Text → Text → List Text
  | _, [] => []
  | line, c :: rest => if c = 10 then line :: completeLines [] rest else completeLines (line ++ [c]) rest

def isResponse (id : Int) (msg : Json) : Bool :=
  match msg.get? (ascii "id") with
  | some (.number value) =>
    value = id && (msg.get? (ascii "method")).isNone &&
      ((msg.get? (ascii "error")).isSome || (msg.get? (ascii "result")).isSome)
  | _ => false

def firstResponse (id : Int) (output : Text) : Option Json :=
  (completeLines [] output).findSome? fun line =>
    if 0 ∈ line then none else (parseWhole line).filter (isResponse id)

/-! ### The cut into reads -/

variable {wantId : Int} {line : Text} {msg : Json}

theorem isMatch_iff : isMatch wantId line = true ↔ ∃ msg, parse line = some msg ∧ numbered wantId msg = true := by
  unfold isMatch
  cases parse line <;> simp

theorem firstNumbered_match (read : parse line = some msg) (found : numbered wantId msg = true) (lines : List Text) :
    firstNumbered wantId (line :: lines) = some msg := by
  unfold firstNumbered
  rw [List.findSome?_cons, read, Option.filter_some, if_pos found]

theorem firstNumbered_other (other : ¬ isMatch wantId line = true) (lines : List Text) :
    firstNumbered wantId (line :: lines) = firstNumbered wantId lines := by
  unfold firstNumbered
  rw [List.findSome?_cons]
  cases read : parse line with
  | none => rfl
  | some msg =>
    have skipped : ¬ numbered wantId msg = true := fun found => other (isMatch_iff.mpr ⟨msg, read, found⟩)
    rw [Option.filter_some, if_neg skipped]

theorem take_or {rest : Text} {lines : List Text} {later : Option (Text × Text)}
    (spec : later.map (fun taken => parse taken.1) = (firstNumbered wantId lines).map some) :
    (if isMatch wantId line then some (line, rest) else later).map (fun taken => parse taken.1) =
      (firstNumbered wantId (line :: lines)).map some := by
  by_cases found : isMatch wantId line = true
  · obtain ⟨msg, read, number⟩ := isMatch_iff.mp found
    rw [if_pos found, firstNumbered_match read number, Option.map_some, read]
    rfl
  · rw [if_neg found, firstNumbered_other found]
    exact spec

theorem takeLine_spec (wantId : Int) (line bytes : Text) :
    (takeLine wantId line bytes).map (fun taken => parse taken.1) =
      (firstNumbered wantId (visibleLines line bytes)).map some := by
  induction bytes generalizing line with
  | nil => exact take_or rfl
  | cons c bytes ih =>
    unfold takeLine visibleLines
    split
    · exact take_or rfl
    · split
      · exact take_or (ih [])
      · exact ih (line ++ [c])

theorem visibleLines_head (line bytes : Text) :
    ∃ part lines, visibleLines line bytes = (line ++ part) :: lines ∧ 0 ∉ part := by
  induction bytes generalizing line with
  | nil => exact ⟨[], [], by simp [visibleLines]⟩
  | cons c bytes ih =>
    unfold visibleLines
    split
    · exact ⟨[], [], by simp⟩
    · next nul =>
      split
      · exact ⟨[], _, by simp; rfl⟩
      · obtain ⟨part, lines, same, text⟩ := ih (line ++ [c])
        refine ⟨c :: part, lines, by rw [same]; simp, ?_⟩
        rw [List.mem_cons, not_or]
        exact ⟨Ne.symm nul, text⟩

theorem object_of_numbered (found : numbered wantId msg = true) : ∃ members, msg = .object members := by
  cases msg with
  | object members => exact ⟨members, rfl⟩
  | _ => cases found

theorem firstNumbered_append {s : Text} (text : 0 ∉ line)
    (first : firstNumbered wantId (visibleLines line s) = some msg) (t : Text) :
    firstNumbered wantId (visibleLines line (s ++ t)) = some msg := by
  induction s generalizing line with
  | nil =>
    obtain ⟨part, lines, same, clean⟩ := visibleLines_head line t
    by_cases found : isMatch wantId line = true
    · obtain ⟨here, read, number⟩ := isMatch_iff.mp found
      have one := (firstNumbered_match read number []).symm.trans first
      cases one
      obtain ⟨members, rfl⟩ := object_of_numbered number
      rw [List.nil_append, same]
      exact firstNumbered_match (parse_append read text clean) number lines
    · have none_here := (firstNumbered_other found []).symm.trans first
      cases none_here
  | cons c s ih =>
    unfold visibleLines at first
    rw [List.cons_append]
    unfold visibleLines
    split at first
    · next nul =>
      rw [if_pos nul]
      exact first
    · next nul =>
      rw [if_neg nul]
      split at first
      · next ends =>
        rw [if_pos ends]
        by_cases found : isMatch wantId line = true
        · obtain ⟨here, read, number⟩ := isMatch_iff.mp found
          have one := (firstNumbered_match read number _).symm.trans first
          cases one
          exact firstNumbered_match read number _
        · rw [firstNumbered_other found] at first ⊢
          exact ih (by simp) first
      · next ends =>
        rw [if_neg ends]
        apply ih _ first
        rw [List.mem_append, List.mem_singleton, not_or]
        exact ⟨text, Ne.symm nul⟩

def received (buffer : Text) : List Text → Text
  | [] => []
  | read :: reads => buffer ++ (read :: reads).flatten

theorem awaitLine_spec (wantId : Int) (buffer : Text) (reads : List Text) :
    (awaitLine wantId buffer reads).map (fun taken => parse taken.1) =
      (firstNumbered wantId (visibleLines [] (received buffer reads))).map some := by
  induction reads generalizing buffer with
  | nil => rfl
  | cons read reads ih =>
    have spec := takeLine_spec wantId [] (buffer ++ read)
    have split : received buffer (read :: reads) = buffer ++ read ++ reads.flatten := by
      rw [received, List.flatten_cons, List.append_assoc]
    rw [split]
    unfold awaitLine stdioTakeResponse
    cases taken : takeLine wantId [] (buffer ++ read) with
    | some pair =>
      rw [taken] at spec
      cases first : firstNumbered wantId (visibleLines [] (buffer ++ read)) with
      | none => rw [first] at spec; cases spec
      | some msg =>
        rw [first] at spec
        rw [firstNumbered_append (by simp) first]
        exact spec
    | none =>
      rw [taken] at spec
      simp only
      rw [ih]
      cases reads with
      | nil =>
        rw [List.flatten_nil, List.append_nil, ← spec]
        rfl
      | cons next reads => rfl

theorem rpcStdio_eq (id : Int) (buffer : Text) (reads : List Text) :
    rpcStdio id buffer reads =
      match firstNumbered id (visibleLines [] (received buffer reads)) with
      | none => .timeout
      | some msg => interpret msg := by
  have spec := awaitLine_spec id buffer reads
  unfold rpcStdio
  cases taken : awaitLine id buffer reads with
  | none =>
    rw [taken] at spec
    cases first : firstNumbered id (visibleLines [] (received buffer reads)) with
    | none => rfl
    | some msg => rw [first] at spec; cases spec
  | some pair =>
    rw [taken] at spec
    cases first : firstNumbered id (visibleLines [] (received buffer reads)) with
    | none => rw [first] at spec; cases spec
    | some msg =>
      rw [first] at spec
      have read : parse pair.1 = some msg := Option.some.inj spec
      simp only [read]

/-! ### Which replies reach their request -/

/-- A call returns the error or the result of the response in the output, `unread` being what was
not read in time, and takes no message with a method for it. -/
structure Reaches (id : Int) (buffer : Text) (reads : List Text) (unread : Text) : Prop where
  response : ∀ msg, firstResponse id (buffer ++ reads.flatten ++ unread) = some msg →
    rpcStdio id buffer reads = interpret msg
  method : ∀ line rest msg, awaitLine id buffer reads = some (line, rest) → parse line = some msg →
    msg.get? (ascii "method") = none

/-- The first message that is numbered so, if there is one, has no method, and it has the error or
the result of the response in the output. -/
structure Clear (id : Int) (received output : Text) : Prop where
  method : ∀ msg, firstNumbered id (visibleLines [] received) = some msg → msg.get? (ascii "method") = none
  response : ∀ msg, firstResponse id output = some msg →
    ∃ first, firstNumbered id (visibleLines [] received) = some first ∧ interpret first = interpret msg

theorem interpret_ne_timeout (msg : Json) : interpret msg ≠ .timeout := by
  unfold interpret
  cases msg.get? (ascii "error") with
  | some value => exact fun same => by cases same
  | none => cases msg.get? (ascii "result") <;> exact fun same => by cases same

theorem rpc_stdio_reaches (id : Int) (buffer : Text) (reads : List Text) (unread : Text) :
    Reaches id buffer reads unread ↔
      Clear id (received buffer reads) (buffer ++ reads.flatten ++ unread) := by
  have spec := awaitLine_spec id buffer reads
  have outcome := rpcStdio_eq id buffer reads
  constructor
  · intro reaches
    constructor
    · intro msg first
      rw [first] at spec
      obtain ⟨⟨line, rest⟩, taken, read⟩ := Option.map_eq_some_iff.mp spec
      exact reaches.method line rest msg taken read
    · intro msg wanted
      have right := reaches.response msg wanted
      rw [outcome] at right
      cases first : firstNumbered id (visibleLines [] (received buffer reads)) with
      | none =>
        rw [first] at right
        exact absurd right.symm (interpret_ne_timeout msg)
      | some found =>
        rw [first] at right
        exact ⟨found, rfl, right⟩
  · intro clear
    constructor
    · intro msg wanted
      obtain ⟨found, first, same⟩ := clear.response msg wanted
      rw [outcome, first]
      exact same
    · intro line rest msg taken read
      rw [taken] at spec
      cases first : firstNumbered id (visibleLines [] (received buffer reads)) with
      | none => rw [first] at spec; cases spec
      | some found =>
        rw [first] at spec
        have same : some msg = some found := read.symm.trans (Option.some.inj spec)
        cases same
        exact clear.method msg first

def pinged : Text :=
  ascii "\x7b\"id\":1,\"method\":\"ping\"\x7d\n\x7b\"id\":1,\"result\":\x7b\x7d\x7d\n"

theorem rpc_stdio_reaches_fails : ¬ Reaches 1 [] [pinged] [] := by
  intro reaches
  have ping : (awaitLine 1 [] [pinged]).any (fun taken =>
      (parse taken.1).any fun msg => (msg.get? (ascii "method")).isSome) = true := by decide +kernel
  obtain ⟨⟨line, rest⟩, taken, named⟩ := (Option.any_eq_true ..).mp ping
  obtain ⟨msg, read, named⟩ := (Option.any_eq_true ..).mp named
  rw [reaches.method line rest msg taken read] at named
  cases named

end CognitiveOs.Action.Stdio
