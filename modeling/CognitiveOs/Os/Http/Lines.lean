import CognitiveOs.Os.Http.Whole

/-!
# Lines of a stream

`http_stream_read_line` on its three transports: the decoded bytes of a plain socket, a body
that libcurl has buffered, and the blocks of a live transfer. Each reads what is left of the
body line by line into a buffer, and cuts a line that is too long in its own way.
-/

namespace CognitiveOs.Http

open Infra

/-! ### The three readers -/

def Stream.lineLoop (cap : Nat) : Nat → Stream → Text → Option Text × Stream
  | 0, h, _ => (none, h)
  | fuel + 1, h, line =>
    match h.decodeGetc with
    | (none, h) => (if line = [] then none else some line, h)
    | (some (c, _), h) =>
      if c = newline then (some line, h)
      else if c = carriageReturn then Stream.lineLoop cap fuel h line
      else if line.length + 1 < cap then Stream.lineLoop cap fuel h (line ++ [c])
      else (some line, h)

def Stream.readLine (cap : Nat) (h : Stream) : Option Text × Stream :=
  h.lineLoop cap (h.wire.length + 1) []

def bufferedLoop (cap : Nat) : Text → Text → Text × Text
  | [], line => (line, [])
  | c :: rest, line =>
    if line.length + 1 < cap then
      if c = newline then (line, rest)
      else if c = carriageReturn then bufferedLoop cap rest line
      else bufferedLoop cap rest (line ++ [c])
    else (line, c :: rest)

def bufferedLine (cap : Nat) (body : Text) : Option Text × Text :=
  let (line, rest) := bufferedLoop cap body []
  if line = [] ∧ rest = [] then (none, rest) else (some line, rest)

/-- A live transfer: what has been received and not read, and what further rounds of
`curl_multi_perform` append. -/
structure Live where
  data : Text
  blocks : List Text

def nextBlock : List Text → Text × List Text
  | [] => ([], [])
  | [] :: blocks => nextBlock blocks
  | block :: blocks => (block, blocks)

namespace Live

/-- `curl_pump`. -/
def pump (h : Live) : Live :=
  if h.data = [] then
    let (data, blocks) := nextBlock h.blocks
    { data, blocks }
  else h

def lineLoop (cap : Nat) : Nat → Live → Text → Option Text × Live
  | 0, h, _ => (none, h)
  | fuel + 1, h, line =>
    if line.length + 1 < cap then
      match h.pump with
      | { data := [], blocks } => (if line = [] then none else some line, { data := [], blocks })
      | { data := c :: data, blocks } =>
        if c = newline then (some line, { data, blocks })
        else if c = carriageReturn then lineLoop cap fuel { data, blocks } line
        else lineLoop cap fuel { data, blocks } (line ++ [c])
    else (some line, h)

def bytes (h : Live) : Text :=
  h.data ++ h.blocks.flatten

def readLine (cap : Nat) (h : Live) : Option Text × Live :=
  h.lineLoop cap (h.bytes.length + 1) []

end Live

/-! ### On the bytes that are left -/

def plainBytes (cap : Nat) : Text → Text → Option Text × Text
  | [], line => (if line = [] then none else some line, [])
  | c :: rest, line =>
    if c = newline then (some line, rest)
    else if c = carriageReturn then plainBytes cap rest line
    else if line.length + 1 < cap then plainBytes cap rest (line ++ [c])
    else (some line, rest)

def liveBytes (cap : Nat) : Text → Text → Option Text × Text
  | [], line =>
    if line.length + 1 < cap then (if line = [] then none else some line, []) else (some line, [])
  | c :: rest, line =>
    if line.length + 1 < cap then
      if c = newline then (some line, rest)
      else if c = carriageReturn then liveBytes cap rest line
      else liveBytes cap rest (line ++ [c])
    else (some line, c :: rest)

variable {cap : Nat}

theorem Decodes.length_le {h h' : Stream} {body : Text} (decodes : Decodes h body h') :
    body.length ≤ h.wire.length := by
  induction decodes with
  | stop _ => exact Nat.zero_le _
  | byte got _ ih =>
    have shorter := Stream.decodeGetc_length got
    simp only [Option.isSome_some, Bool.toNat_true] at shorter
    rw [List.length_cons]
    omega

variable {line : Text}

theorem Stream.lineLoop_eq {fuel : Nat} {h h' : Stream} {body : Text} (decodes : Decodes h body h')
    (enough : body.length < fuel) :
    ∃ after, h.lineLoop cap fuel line = ((plainBytes cap body line).1, after) ∧
      Decodes after (plainBytes cap body line).2 h' := by
  induction fuel generalizing h body line with
  | zero => exact absurd enough (Nat.not_lt_zero _)
  | succ fuel ih =>
    unfold Stream.lineLoop
    cases decodes with
    | stop stopped =>
      rw [stopped]
      exact ⟨h', rfl, .stop (Stream.decodeGetc_stop stopped)⟩
    | byte got rest =>
      rw [got]
      unfold plainBytes
      simp only
      have enough := Nat.lt_of_succ_lt_succ enough
      split
      · exact ⟨_, rfl, rest⟩
      · split
        · exact ih rest enough
        · split
          · exact ih rest enough
          · exact ⟨_, rfl, rest⟩

theorem nextBlock_flatten (blocks : List Text) :
    (nextBlock blocks).1 ++ (nextBlock blocks).2.flatten = blocks.flatten := by
  induction blocks with
  | nil => rfl
  | cons block blocks ih =>
    cases block with
    | nil => exact ih
    | cons c block => rfl

theorem nextBlock_nil (blocks : List Text) (empty : (nextBlock blocks).1 = []) :
    (nextBlock blocks).2 = [] := by
  induction blocks with
  | nil => rfl
  | cons block blocks ih =>
    cases block with
    | nil => exact ih empty
    | cons c block => cases empty

theorem Live.pump_bytes (h : Live) :
    h.pump.bytes = h.bytes ∧ (h.pump.data = [] → h.pump.blocks = []) := by
  unfold pump
  split
  · rename_i empty
    refine ⟨?_, nextBlock_nil h.blocks⟩
    simp only [bytes, empty, List.nil_append]
    exact nextBlock_flatten h.blocks
  · rename_i more
    exact ⟨rfl, fun empty => absurd empty more⟩

theorem Live.lineLoop_eq {fuel : Nat} {h : Live} (enough : h.bytes.length < fuel) :
    ∃ after, h.lineLoop cap fuel line = ((liveBytes cap h.bytes line).1, after) ∧
      after.bytes = (liveBytes cap h.bytes line).2 := by
  induction fuel generalizing h line with
  | zero => exact absurd enough (Nat.not_lt_zero _)
  | succ fuel ih =>
    rcases h.pump_bytes with ⟨same, spent⟩
    unfold lineLoop
    by_cases room : line.length + 1 < cap
    · rw [if_pos room]
      rcases pumped : h.pump with ⟨_ | ⟨c, data⟩, blocks⟩
      · rw [pumped] at same spent
        obtain rfl : blocks = [] := spent rfl
        have nothing : h.bytes = [] := same.symm
        rw [nothing, liveBytes, if_pos room]
        exact ⟨_, rfl, rfl⟩
      · rw [pumped] at same
        have first : h.bytes = c :: Live.bytes { data, blocks } := same.symm
        rw [first] at enough ⊢
        have enough := Nat.lt_of_succ_lt_succ enough
        rw [liveBytes, if_pos room]
        simp only
        split
        · exact ⟨_, rfl, rfl⟩
        · split <;> exact ih enough
    · rw [if_neg room]
      refine ⟨h, ?_, ?_⟩
      · cases h.bytes <;> simp [liveBytes, room]
      · cases h.bytes <;> simp [liveBytes, room]

/-! ### One line -/

variable {raw tail : Text}

/-- A line as a reader with a buffer of `cap` bytes takes it: whole, as the end of the body, or
its first part, after which it goes on `step` bytes into the line. -/
structure ReadsLines (cap step : Nat) (next : Text → Option Text × Text) : Prop where
  stop : next [] = (none, [])
  line : ∀ raw tail : Text, newline ∉ raw → (tail = [] ∨ tail.head? = some newline) → raw ++ tail ≠ [] →
    next (raw ++ tail) = (some (lineText raw), tail.tail) ∨
    (lineText raw = [] ∧ tail.tail = [] ∧ next (raw ++ tail) = (none, [])) ∨
    ∃ raw', newline ∉ raw' ∧ raw'.length < raw.length ∧ cap ≤ (lineText raw).length + 1 ∧
      next (raw ++ tail) = (some ((lineText raw).take (cap - 1)), raw' ++ tail) ∧
      lineText raw' = (lineText raw).drop step

@[simp] theorem lineText_cr (raw : Text) : lineText (carriageReturn :: raw) = lineText raw := by
  simp [lineText]

theorem lineText_char {c : UInt8} (char : c ≠ carriageReturn) (raw : Text) :
    lineText (c :: raw) = c :: lineText raw := by
  simp [lineText, char]

/-- What a reader makes of a line, after `line`. -/
def LineRead (cap step : Nat) (raw tail line : Text) (read : Option Text × Text) : Prop :=
  read = (some (line ++ lineText raw), tail.tail) ∨
  (line ++ lineText raw = [] ∧ tail.tail = [] ∧ read = (none, [])) ∨
  ∃ raw', newline ∉ raw' ∧ raw'.length ≤ raw.length ∧ (line.length + 1 < cap → raw'.length < raw.length) ∧
    cap ≤ (line ++ lineText raw).length + 1 ∧
    read = (some ((line ++ lineText raw).take (cap - 1)), raw' ++ tail) ∧
    lineText raw' = (line ++ lineText raw).drop step

theorem LineRead.cr {step : Nat} {read : Option Text × Text} (later : LineRead cap step raw tail line read) :
    LineRead cap step (carriageReturn :: raw) tail line read := by
  unfold LineRead at later ⊢
  rw [lineText_cr]
  rcases later with whole | last | ⟨raw', oneLine, le, lt, rest⟩
  · exact Or.inl whole
  · exact Or.inr (Or.inl last)
  · exact Or.inr (Or.inr ⟨raw', oneLine, Nat.le_succ_of_le le, fun room => (lt room).trans (Nat.lt_succ_self _),
      rest⟩)

theorem LineRead.char {step : Nat} {c : UInt8} {raw tail line : Text} {read : Option Text × Text}
    (other : c ≠ carriageReturn) (later : LineRead cap step raw tail (line ++ [c]) read) :
    LineRead cap step (c :: raw) tail line read := by
  unfold LineRead at later ⊢
  rw [List.append_assoc, List.singleton_append] at later
  rw [lineText_char other]
  rcases later with whole | last | ⟨raw', oneLine, le, -, rest⟩
  · exact Or.inl whole
  · exact Or.inr (Or.inl last)
  · exact Or.inr (Or.inr ⟨raw', oneLine, Nat.le_succ_of_le le, fun _ => Nat.lt_succ_of_le le, rest⟩)

theorem LineRead.readsLines {step : Nat} {next : Text → Option Text × Text} (room : 1 < cap)
    (stop : next [] = (none, []))
    (line : ∀ raw tail : Text, newline ∉ raw → (tail = [] ∨ tail.head? = some newline) →
      LineRead cap step raw tail [] (next (raw ++ tail))) : ReadsLines cap step next where
  stop := stop
  line := by
    intro raw tail oneLine ends _
    rcases line raw tail oneLine ends with whole | last | ⟨raw', oneLine', -, lt, long, rest⟩
    · exact Or.inl whole
    · exact Or.inr (Or.inl last)
    · exact Or.inr (Or.inr ⟨raw', oneLine', lt (by simpa using room), long, rest⟩)

theorem plainBytes_line (oneLine : newline ∉ raw) (ends : tail = [] ∨ tail.head? = some newline)
    (fits : line.length < cap) : LineRead cap cap raw tail line (plainBytes cap (raw ++ tail) line) := by
  induction raw generalizing line with
  | nil =>
    cases tail with
    | nil =>
      by_cases empty : line = []
      · exact Or.inr (Or.inl (by simp [lineText, plainBytes, empty]))
      · exact Or.inl (by simp [lineText, plainBytes, empty])
    | cons c rest =>
      obtain rfl : c = newline := by simpa using ends
      exact Or.inl (by simp [lineText, plainBytes])
  | cons c raw ih =>
    rw [List.mem_cons, not_or] at oneLine
    rw [List.cons_append, plainBytes, if_neg (Ne.symm oneLine.1)]
    split
    · rename_i cr
      rw [cr]
      exact (ih oneLine.2 fits).cr
    · rename_i char
      split
      · rename_i room
        exact (ih oneLine.2 (by simpa using room)).char char
      · rename_i full
        have length : line.length = cap - 1 := by omega
        refine Or.inr (Or.inr ⟨raw, oneLine.2, Nat.le_succ _, fun room => absurd room full, ?_, ?_, ?_⟩)
        · rw [List.length_append]
          omega
        · rw [← length, List.take_left]
        · have after : cap = (line ++ [c]).length := by simp only [List.length_append, List.length_singleton]; omega
          rw [lineText_char char, ← List.singleton_append, ← List.append_assoc]
          conv => rhs; rw [after, List.drop_left]

theorem LineRead.full (oneLine : newline ∉ raw) (fits : line.length < cap) (full : ¬ line.length + 1 < cap) :
    LineRead cap (cap - 1) raw tail line (some line, raw ++ tail) := by
  have length : line.length = cap - 1 := by omega
  refine Or.inr (Or.inr ⟨raw, oneLine, le_refl _, fun room => absurd room full, ?_, ?_, ?_⟩)
  · rw [List.length_append]
    omega
  · rw [← length, List.take_left]
  · rw [← length, List.drop_left]

theorem liveBytes_line {raw tail line : Text} (oneLine : newline ∉ raw)
    (ends : tail = [] ∨ tail.head? = some newline) (fits : line.length < cap) :
    LineRead cap (cap - 1) raw tail line (liveBytes cap (raw ++ tail) line) := by
  induction raw generalizing line with
  | nil =>
    by_cases room : line.length + 1 < cap
    · cases tail with
      | nil =>
        by_cases empty : line = []
        · refine Or.inr (Or.inl ⟨by simp [empty, lineText], rfl, ?_⟩)
          rw [List.append_nil, liveBytes, if_pos room, if_pos empty]
        · exact Or.inl (by simp [lineText, liveBytes, room, empty])
      | cons c rest =>
        obtain rfl : c = newline := by simpa using ends
        exact Or.inl (by simp [lineText, liveBytes, room])
    · cases tail with
      | nil => exact Or.inl (by simp [lineText, liveBytes, room])
      | cons c rest =>
        rw [List.nil_append, liveBytes, if_neg room]
        exact LineRead.full List.not_mem_nil fits room
  | cons c raw ih =>
    have both := oneLine
    rw [List.mem_cons, not_or] at both
    rw [List.cons_append, liveBytes, if_neg (Ne.symm both.1)]
    by_cases room : line.length + 1 < cap
    · rw [if_pos room]
      split
      · rename_i cr
        rw [cr]
        exact (ih both.2 fits).cr
      · rename_i char
        exact (ih both.2 (by simpa using room)).char char
    · rw [if_neg room]
      exact LineRead.full oneLine fits room

theorem bufferedLoop_eq (body line : Text) :
    bufferedLoop cap body line = ((liveBytes cap body line).1.getD [], (liveBytes cap body line).2) := by
  induction body generalizing line with
  | nil =>
    unfold bufferedLoop liveBytes
    split
    · split <;> simp_all
    · rfl
  | cons c rest ih =>
    unfold bufferedLoop liveBytes
    split
    · split
      · rfl
      · split <;> exact ih _
    · rfl

theorem bufferedLine_line (room : 1 < cap) (oneLine : newline ∉ raw) (ends : tail = [] ∨ tail.head? = some newline) :
    LineRead cap (cap - 1) raw tail [] (bufferedLine cap (raw ++ tail)) := by
  unfold bufferedLine
  rw [bufferedLoop_eq]
  rcases @liveBytes_line cap raw tail [] oneLine ends (Nat.zero_lt_of_lt room) with
    whole | ⟨empty, spent, last⟩ | ⟨raw', oneLine', le, lt, long, read, text⟩
  · rw [whole]
    simp only [Option.getD_some]
    split
    · rename_i nothing
      exact Or.inr (Or.inl ⟨nothing.1, nothing.2, by rw [nothing.2]⟩)
    · exact Or.inl rfl
  · rw [last]
    exact Or.inr (Or.inl ⟨empty, spent, by simp⟩)
  · rw [read]
    refine Or.inr (Or.inr ⟨raw', oneLine', le, lt, long, ?_, text⟩)
    have some' : ([] ++ lineText raw).take (cap - 1) ≠ [] := by
      intro empty
      have length := congrArg List.length empty
      rw [List.length_take, List.length_nil] at length
      omega
    simp only [Option.getD_some, some', false_and, if_false]

theorem plainBytes_readsLines (room : 1 < cap) :
    ReadsLines cap cap fun bytes => plainBytes cap bytes [] :=
  LineRead.readsLines room rfl fun _ _ oneLine ends =>
    plainBytes_line oneLine ends (Nat.zero_lt_of_lt room)

theorem liveBytes_readsLines (room : 1 < cap) :
    ReadsLines cap (cap - 1) fun bytes => liveBytes cap bytes [] :=
  LineRead.readsLines room (by simp [liveBytes, room]) fun _ _ oneLine ends =>
    liveBytes_line oneLine ends (Nat.zero_lt_of_lt room)

theorem bufferedLine_readsLines (room : 1 < cap) : ReadsLines cap (cap - 1) (bufferedLine cap) :=
  LineRead.readsLines room rfl fun _ _ oneLine ends => bufferedLine_line room oneLine ends

end CognitiveOs.Http
