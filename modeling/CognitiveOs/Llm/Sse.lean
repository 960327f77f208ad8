import CognitiveOs.Os.Http.Lines

/-!
# Server-sent events

`sse_next` on a line reader, and what successive calls return. On every transport these are
the payloads of the data lines up to the end marker, when the lines fit the line buffer.
-/

namespace CognitiveOs.Llm

open Infra Http

/-! ### The calls -/

def payload? (line : Text) : Option Text :=
  if (ascii "data:").isPrefixOf line then some ((line.drop 5).dropWhile (· = 32)) else none

def endMarker : Text :=
  ascii "[DONE]"

/-- `char line[8192]`. -/
def lineCap : Nat :=
  8192

section Calls

variable {S : Type} (readLine : S → Option Text × S)

/-- `sse_next` with a large buffer; `fuel` bounds the lines it reads. -/
def sseNext : Nat → S → Option Text × S
  | 0, s => (none, s)
  | fuel + 1, s =>
    match readLine s with
    | (none, s) => (none, s)
    | (some line, s) =>
      match payload? (cstr line) with
      | none => sseNext fuel s
      | some payload => if payload = endMarker then (none, s) else (some payload, s)

def sseEvents (fuel : Nat) : Nat → S → List Text
  | 0, _ => []
  | calls + 1, s =>
    match sseNext readLine fuel s with
    | (none, _) => []
    | (some payload, s) => payload :: sseEvents fuel calls s

/-- The payloads that `n` lines read from a state yield. -/
inductive Yields : Nat → S → List Text → Prop where
  | stop {s s' : S} : readLine s = (none, s') → Yields 1 s []
  | done {s s' : S} {line : Text} :
      readLine s = (some line, s') → payload? (cstr line) = some endMarker → Yields 1 s []
  | skip {n : Nat} {s s' : S} {line : Text} {payloads : List Text} :
      readLine s = (some line, s') → payload? (cstr line) = none → Yields n s' payloads →
      Yields (n + 1) s payloads
  | event {n : Nat} {s s' : S} {line payload : Text} {payloads : List Text} :
      readLine s = (some line, s') → payload? (cstr line) = some payload → payload ≠ endMarker →
      Yields n s' payloads → Yields (n + 1) s (payload :: payloads)

variable {readLine}

variable {n : Nat} {s : S} {payloads : List Text}

theorem Yields.sseNext {fuel : Nat} (yields : Yields readLine n s payloads) (enough : n ≤ fuel) :
    (∃ s', sseNext readLine fuel s = (none, s') ∧ payloads = []) ∨
    ∃ payload rest s' m, sseNext readLine fuel s = (some payload, s') ∧ payloads = payload :: rest ∧
      m < n ∧ Yields readLine m s' rest := by
  induction yields generalizing fuel with
  | stop read =>
    obtain ⟨fuel, rfl⟩ := Nat.exists_eq_add_of_le' enough
    exact Or.inl ⟨_, by simp [Llm.sseNext, read]; rfl, rfl⟩
  | done read marker =>
    obtain ⟨fuel, rfl⟩ := Nat.exists_eq_add_of_le' enough
    exact Or.inl ⟨_, by simp [Llm.sseNext, read, marker]; rfl, rfl⟩
  | @skip n s s' line payloads read other _ ih =>
    obtain ⟨fuel, rfl⟩ : ∃ k, fuel = k + 1 := ⟨fuel - 1, by omega⟩
    have same : Llm.sseNext readLine (fuel + 1) s = Llm.sseNext readLine fuel s' := by
      simp [Llm.sseNext, read, other]
    rw [same]
    rcases ih (Nat.le_of_succ_le_succ enough) with none' | ⟨payload, rest, s'', m, next, cut, less, later⟩
    · exact Or.inl none'
    · exact Or.inr ⟨payload, rest, s'', m, next, cut, less.trans (Nat.lt_succ_self n), later⟩
  | @event n s s' line payload payloads read data more rest _ =>
    obtain ⟨fuel, rfl⟩ : ∃ k, fuel = k + 1 := ⟨fuel - 1, by omega⟩
    exact Or.inr ⟨payload, payloads, s', n, by simp [Llm.sseNext, read, data, more], rfl,
      Nat.lt_succ_self n, rest⟩

theorem Yields.sseEvents {fuel calls : Nat} (yields : Yields readLine n s payloads) (enough : n ≤ fuel)
    (enough' : n ≤ calls) : sseEvents readLine fuel calls s = payloads := by
  induction calls generalizing n s payloads with
  | zero =>
    obtain rfl := Nat.le_zero.mp enough'
    cases yields
  | succ calls ih =>
    unfold Llm.sseEvents
    rcases yields.sseNext enough with ⟨s', next, rfl⟩ | ⟨payload, rest, s', m, next, rfl, less, later⟩
    · rw [next]
    · rw [next]
      simp only
      rw [ih later (less.le.trans enough) (by omega)]

theorem Yields.of_bytes {next : Text → Option Text × Text} {left : S → Text → Prop}
    (simulates : ∀ s bytes, left s bytes → ∃ s', readLine s = ((next bytes).1, s') ∧ left s' (next bytes).2) {bytes : Text}
    (yields : Yields next n bytes payloads) (here : left s bytes) : Yields readLine n s payloads := by
  induction yields generalizing s with
  | stop read =>
    rcases simulates s _ here with ⟨s', step, -⟩
    rw [read] at step
    exact .stop step
  | done read marker =>
    rcases simulates s _ here with ⟨s', step, -⟩
    rw [read] at step
    exact .done step marker
  | skip read other _ ih =>
    rcases simulates s _ here with ⟨s', step, later⟩
    rw [read] at step later
    exact .skip step other (ih later)
  | event read data more _ ih =>
    rcases simulates s _ here with ⟨s', step, later⟩
    rw [read] at step later
    exact .event step data more (ih later)

end Calls

/-! ### The events of a body -/

def bodyLines (body : Text) : List Text :=
  (body.splitOn newline).map lineText

def payloads : List Text → List Text
  | [] => []
  | line :: lines =>
    match payload? line with
    | none => payloads lines
    | some payload => if payload = endMarker then [] else payload :: payloads lines

/-- A data line fits the buffer and is text; no later part of another line looks like one. -/
def LineOk (step : Nat) (line : Text) : Prop :=
  if (ascii "data:").isPrefixOf line then line.length < lineCap ∧ 0 ∉ line
  else ∀ k, ¬ (ascii "data:").isPrefixOf (line.drop (k * step))

def LinesFit (step : Nat) : List Text → Prop
  | [] => True
  | line :: lines => LineOk step line ∧ (payload? line ≠ some endMarker → LinesFit step lines)

theorem bodyLines_cons {raw rest : Text} (oneLine : newline ∉ raw) :
    bodyLines (raw ++ newline :: rest) = lineText raw :: bodyLines rest := by
  unfold bodyLines
  rw [List.splitOn_eq_splitOnP, List.splitOnP_append_cons_of_forall_mem]
  · rfl
  · intro c member
    simpa using fun same : c = newline => oneLine (same ▸ member)
  · simp

theorem bodyLines_last {raw : Text} (oneLine : newline ∉ raw) : bodyLines raw = [lineText raw] := by
  unfold bodyLines
  rw [List.splitOn_eq_splitOnP, List.splitOnP_eq_singleton]
  · rfl
  · intro c member
    simpa using fun same : c = newline => oneLine (same ▸ member)

theorem payload?_eq_none_iff (line : Text) :
    payload? line = none ↔ ¬ (ascii "data:").isPrefixOf line := by
  unfold payload?
  split <;> simp_all

theorem prefix_of_cstr {p line : Text} (starts : p.isPrefixOf (cstr line)) : p.isPrefixOf line := by
  rw [List.isPrefixOf_iff_prefix] at starts ⊢
  exact starts.trans (List.takeWhile_prefix _)

section Lines

variable {step : Nat} {next : Text → Option Text × Text}

theorem Yields.of_nil (reads : ReadsLines lineCap step next) {n : Nat} {payloads : List Text}
    (yields : Yields next n [] payloads) : payloads = [] := by
  have stop := reads.stop
  cases yields with
  | stop => rfl
  | done => rfl
  | skip read => simp [stop] at read
  | event read => simp [stop] at read

theorem yields_quiet (reads : ReadsLines lineCap step next) {raw tail : Text} {n : Nat}
    {payloads : List Text} (oneLine : newline ∉ raw) (ends : tail = [] ∨ tail.head? = some newline)
    (quiet : ∀ k, ¬ (ascii "data:").isPrefixOf ((lineText raw).drop (k * step)))
    (later : Yields next n tail.tail payloads) (few : n ≤ tail.tail.length + 1) :
    ∃ m ≤ (raw ++ tail).length + 1, Yields next m (raw ++ tail) payloads := by
  induction size : raw.length using Nat.strong_induction_on generalizing raw with
  | _ size ih =>
    subst size
    by_cases spent : raw ++ tail = []
    · obtain ⟨rfl, rfl⟩ := List.append_eq_nil_iff.mp spent
      exact ⟨n, few, later⟩
    · have progress : tail.tail.length + 1 ≤ (raw ++ tail).length := by
        rw [List.length_append, List.length_tail]
        have some' := List.length_pos_iff.mpr spent
        rw [List.length_append] at some'
        omega
      rcases reads.line raw tail oneLine ends spent with
        whole | ⟨-, last, none'⟩ | ⟨raw', oneLine', shorter, -, part, text⟩
      · refine ⟨n + 1, by omega, .skip whole ?_ later⟩
        rw [payload?_eq_none_iff]
        intro starts
        exact quiet 0 (by simpa using prefix_of_cstr starts)
      · rw [last] at later
        rw [later.of_nil reads]
        exact ⟨1, by omega, .stop none'⟩
      · have quiet' (k : Nat) : ¬ (ascii "data:").isPrefixOf ((lineText raw').drop (k * step)) := by
          rw [text, List.drop_drop]
          intro starts
          apply quiet (k + 1)
          rwa [Nat.succ_mul, Nat.add_comm]
        rcases ih _ shorter oneLine' quiet' rfl with ⟨m, few', yields⟩
        refine ⟨m + 1, ?_, .skip part ?_ yields⟩
        · rw [List.length_append] at few' ⊢
          omega
        · rw [payload?_eq_none_iff]
          intro starts
          apply quiet 0
          rw [Nat.zero_mul, List.drop_zero, List.isPrefixOf_iff_prefix]
          have starts := prefix_of_cstr starts
          rw [List.isPrefixOf_iff_prefix] at starts
          exact starts.trans (List.take_prefix _ _)

theorem yields_line (reads : ReadsLines lineCap step next) (large : lineCap - 1 ≤ step)
    {raw tail : Text} {lines : List Text} (oneLine : newline ∉ raw)
    (ends : tail = [] ∨ tail.head? = some newline) (fits : LineOk step (lineText raw))
    (later : payload? (lineText raw) ≠ some endMarker →
      ∃ n ≤ tail.tail.length + 1, Yields next n tail.tail (payloads lines)) :
    ∃ m ≤ (raw ++ tail).length + 1, Yields next m (raw ++ tail) (payloads (lineText raw :: lines)) := by
  unfold LineOk at fits
  split at fits
  · rename_i data
    rcases fits with ⟨short, text⟩
    have whole : cstr (lineText raw) = lineText raw := cstr_eq_self text
    have some' : lineText raw ≠ [] := by
      intro empty
      rw [empty] at data
      exact absurd data (by decide)
    have spent : raw ++ tail ≠ [] := by
      intro nothing
      obtain ⟨rfl, -⟩ := List.append_eq_nil_iff.mp nothing
      exact some' rfl
    have payload : payload? (lineText raw) = some (((lineText raw).drop 5).dropWhile (· = 32)) := if_pos data
    -- the reader takes the whole line, and may leave carriage returns of it
    have taken : ∃ raw' : Text, newline ∉ raw' ∧ lineText raw' = [] ∧ (raw'.length < raw.length) ∧
        (next (raw ++ tail) = (some (lineText raw), raw' ++ tail) ∨
          next (raw ++ tail) = (some (lineText raw), tail.tail)) := by
      have positive : 0 < raw.length := by
        apply List.length_pos_iff.mpr
        rintro rfl
        exact some' rfl
      rcases reads.line raw tail oneLine ends spent with
        all | ⟨empty, -, -⟩ | ⟨raw', oneLine', shorter, long, part, rest⟩
      · exact ⟨[], List.not_mem_nil, rfl, positive, Or.inr all⟩
      · exact absurd empty some'
      · refine ⟨raw', oneLine', ?_, shorter, Or.inl ?_⟩
        · rw [rest, List.drop_eq_nil_iff]
          omega
        · rw [part, List.take_of_length_le (by omega)]
    rcases taken with ⟨raw', oneLine', nothing, shorter, read⟩
    by_cases marker : ((lineText raw).drop 5).dropWhile (· = 32) = endMarker
    · have ended : payloads (lineText raw :: lines) = [] := by simp [payloads, payload, marker]
      rw [ended]
      rw [marker] at payload
      rcases read with read | read
      · exact ⟨1, by omega, .done read (by rw [whole]; exact payload)⟩
      · exact ⟨1, by omega, .done read (by rw [whole]; exact payload)⟩
    · have first : payloads (lineText raw :: lines) =
          ((lineText raw).drop 5).dropWhile (· = 32) :: payloads lines := by
        simp [payloads, payload, marker]
      rw [first]
      rcases later (by rw [payload]; exact fun same => marker (Option.some.inj same)) with ⟨n, few, yields⟩
      rcases read with read | read
      · rcases yields_quiet reads oneLine' ends (by simp [nothing]; decide) yields few with
          ⟨m, few', yields⟩
        refine ⟨m + 1, ?_, .event read (by rw [whole]; exact payload) marker yields⟩
        rw [List.length_append] at few' ⊢
        omega
      · refine ⟨n + 1, ?_, .event read (by rw [whole]; exact payload) marker yields⟩
        rw [List.length_tail] at few
        rw [List.length_append]
        omega
  · have none' : payload? (lineText raw) = none := by
      rw [payload?_eq_none_iff]
      assumption
    have same : payloads (lineText raw :: lines) = payloads lines := by simp [payloads, none']
    rw [same]
    rcases later (by simp [none']) with ⟨n, few, yields⟩
    exact yields_quiet reads oneLine ends fits yields few

theorem line_split (bytes : Text) :
    ∃ raw tail : Text, bytes = raw ++ tail ∧ newline ∉ raw ∧ (tail = [] ∨ tail.head? = some newline) := by
  refine ⟨bytes.takeWhile (· ≠ newline), bytes.dropWhile (· ≠ newline),
    List.takeWhile_append_dropWhile.symm, ?_, ?_⟩
  · intro member
    simpa using List.mem_takeWhile_imp member
  · cases rest : bytes.dropWhile (· ≠ newline) with
    | nil => exact Or.inl rfl
    | cons c tail =>
      have first := List.head?_dropWhile_not (· ≠ newline) bytes
      rw [rest] at first
      exact Or.inr (by simpa using first)

theorem yields_payloads (reads : ReadsLines lineCap step next) (large : lineCap - 1 ≤ step)
    (body : Text) (fits : LinesFit step (bodyLines body)) :
    ∃ n ≤ body.length + 1, Yields next n body (payloads (bodyLines body)) := by
  induction size : body.length using Nat.strong_induction_on generalizing body with
  | _ size ih =>
    subst size
    rcases line_split body with ⟨raw, tail, rfl, oneLine, ends⟩
    cases tail with
    | nil =>
      rw [List.append_nil] at fits ⊢
      rw [bodyLines_last oneLine] at fits ⊢
      have last := @yields_line _ _ reads large _ [] [] oneLine ends fits.1 fun _ =>
        ⟨1, le_refl _, .stop reads.stop⟩
      rwa [List.append_nil] at last
    | cons c rest =>
      obtain rfl : c = newline := by simpa using ends
      rw [bodyLines_cons oneLine] at fits ⊢
      apply yields_line reads large oneLine ends fits.1
      intro more
      exact ih rest.length (by simp only [List.length_append, List.length_cons]; omega) rest (fits.2 more) rfl

end Lines

/-! ### The transports -/

/-- A stream that has been opened: a plain socket after the head of the response, a body that
libcurl has received, or a transfer that it is receiving. -/
inductive Connection where
  | plain (h : Stream)
  | buffered (received : Text)
  | live (h : Live)

namespace Connection

/-- What successive calls of `sse_next` return. The buffered body is a C string. -/
def events (fuel calls : Nat) : Connection → List Text
  | plain h => sseEvents (Stream.readLine lineCap) fuel calls h
  | buffered received => sseEvents (bufferedLine lineCap) fuel calls (cstr received)
  | live h => sseEvents (Live.readLine lineCap) fuel calls h

inductive Body : Connection → Text → Prop where
  | plain {h : Stream} {body : Text} : (h.chunked = true → h.cstate = .size) →
      WholeBody { chunked := h.chunked, contentLen := h.contentRemaining } h.wire.bytes true body →
      Body (.plain h) body
  | buffered (received : Text) : Body (.buffered received) received
  | live (h : Live) : Body (.live h) h.bytes

/-- The lines of a body fit the reader of the transport, and its size lines the decoder. -/
def Fits : Connection → Text → Prop
  | .plain h, body => LinesFit lineCap (bodyLines body) ∧ (h.chunked = true → SizesFit h.wire.bytes)
  | .buffered _, body => LinesFit (lineCap - 1) (bodyLines body) ∧ 0 ∉ body
  | .live _, body => LinesFit (lineCap - 1) (bodyLines body)

end Connection

theorem plain_simulates (h' h : Stream) (bytes : Text) (left : Decodes h bytes h') :
    ∃ after, h.readLine lineCap = ((plainBytes lineCap bytes []).1, after) ∧
      Decodes after (plainBytes lineCap bytes []).2 h' :=
  Stream.lineLoop_eq left (Nat.lt_succ_of_le left.length_le)

theorem live_simulates (h : Live) (bytes : Text) (left : h.bytes = bytes) :
    ∃ after : Live, h.readLine lineCap = ((liveBytes lineCap bytes []).1, after) ∧
      after.bytes = (liveBytes lineCap bytes []).2 := by
  subst left
  exact Live.lineLoop_eq (Nat.lt_succ_self _)

variable {cap : Nat}

theorem bufferedLoop_short (body line : Text) (short : line.length < cap) :
    (bufferedLoop cap body line).1.length < cap := by
  induction body generalizing line with
  | nil => exact short
  | cons c rest ih =>
    unfold bufferedLoop
    split
    · rename_i room
      split
      · exact short
      · split
        · exact ih line short
        · exact ih (line ++ [c]) (by simpa using room)
    · exact short

theorem bufferedLine_short (room : 0 < cap) {body line rest : Text} (read : bufferedLine cap body = (some line, rest)) :
    line.length < cap := by
  unfold bufferedLine at read
  simp only at read
  split at read
  · cases read
  · rw [← Option.some.inj (Prod.mk.inj read).1]
    exact bufferedLoop_short body [] room

theorem sseNext_short {S : Type} {readLine : S → Option Text × S}
    (short : ∀ s line s', readLine s = (some line, s') → line.length < cap) {fuel : Nat} {s s' : S} {payload : Text}
    (next : sseNext readLine fuel s = (some payload, s')) : payload.length < cap := by
  induction fuel generalizing s with
  | zero => cases next
  | succ fuel ih =>
    unfold sseNext at next
    split at next
    · cases next
    · rename_i line after read
      split at next
      · exact ih next
      · rename_i found data
        split at next
        · cases next
        · obtain rfl := Option.some.inj (Prod.mk.inj next).1
          have size := short s line after read
          have cut : (cstr line).length ≤ line.length := (List.takeWhile_sublist _).length_le
          unfold payload? at data
          split at data
          · obtain rfl := Option.some.inj data
            have stripped := (List.dropWhile_sublist (fun c => c = 32) (l := (cstr line).drop 5)).length_le
            rw [List.length_drop] at stripped
            omega
          · cases data

theorem sseEvents_short {S : Type} {readLine : S → Option Text × S}
    (short : ∀ s line s', readLine s = (some line, s') → line.length < cap) (fuel calls : Nat) (s : S) :
    ∀ payload ∈ sseEvents readLine fuel calls s, payload.length < cap := by
  induction calls generalizing s with
  | zero =>
    intro payload member
    cases member
  | succ calls ih =>
    intro payload member
    unfold sseEvents at member
    split at member
    · cases member
    · rename_i first after next
      rcases List.mem_cons.mp member with rfl | later
      · exact sseNext_short short next
      · exact ih after payload later

theorem buffered_short (received : Text) (fuel calls : Nat) :
    ∀ payload ∈ (Connection.buffered received).events fuel calls, payload.length < lineCap :=
  sseEvents_short (fun _ _ _ => bufferedLine_short (by decide)) fuel calls (cstr received)

end CognitiveOs.Llm
