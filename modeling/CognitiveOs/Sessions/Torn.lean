import CognitiveOs.Sessions.Transcript

/-!
# Torn transcripts

A crash leaves the first part of the last record that was appended, later turns are appended
after it, and the session is loaded again.
-/

namespace CognitiveOs.Sessions

open Infra Cjson

def newest (turns : List (Text × Text)) : List (Text × Text) :=
  turns.drop (turns.length - persistMax)

def appendAll (file : Text) (turns : List Exchange) : Text :=
  turns.foldl persistAppend file

theorem appendAll_eq (file : Text) (turns : List Exchange) :
    appendAll file turns = file ++ turns.flatMap Exchange.line := by
  induction turns generalizing file with
  | nil => exact (List.append_nil file).symm
  | cons e turns ih =>
    rw [appendAll, List.foldl_cons]
    exact (ih _).trans (List.append_assoc file e.line _)

/-- Loading finds the earlier turns and all later ones, up to the newest; the torn one may be
missing. -/
def Recovers (earlier : List Exchange) (torn : Exchange) (cut : Text) (later : List Exchange) : Prop :=
  ∃ kept, (kept = [] ∨ kept = [torn]) ∧
    loadPersisted (appendAll (appendAll [] earlier ++ cut) later) =
      newest ((earlier ++ kept ++ later).map Exchange.pair)

theorem filterMap_records (turns : List Exchange) :
    (turns.map Exchange.record).filterMap readTurn = turns.map Exchange.pair := by
  rw [List.filterMap_map, ← List.filterMap_eq_map]
  congr 1
  funext e
  have read := readTurn_record e [] List.not_mem_nil
  rwa [List.append_nil] at read

theorem clean_of_cut {torn : Exchange} {cut : Text} (within : cut <+: torn.record) : 0 ∉ cut ∧ 10 ∉ cut :=
  ⟨fun member => torn.record_clean.1 (within.subset member),
    fun member => torn.record_clean.2 (within.subset member)⟩

theorem load_torn {torn : Exchange} {cut : Text} (within : cut <+: torn.record) (earlier : List Exchange) :
    loadPersisted (appendAll [] earlier ++ cut) =
      (earlier.map Exchange.pair).drop (earlier.length - persistMax) ++ (readTurn cut).toList := by
  rcases clean_of_cut within with ⟨text, oneLine⟩
  have clean : 0 ∉ earlier.flatMap Exchange.line ++ cut := by
    rw [List.mem_append, not_or]
    exact ⟨lines_clean earlier, text⟩
  have last : (bufferLines cut []).filterMap readTurn = (readTurn cut).toList := by
    rw [bufferLines_last oneLine]
    by_cases empty : cut = []
    · rw [empty]
      rfl
    · rw [if_neg (by simpa using empty), List.nil_append]
      cases read : readTurn cut <;> simp [read]
  rw [appendAll_eq, List.nil_append]
  unfold loadPersisted
  simp only
  rw [cstr_eq_self clean, bufferLines_records, List.count_append, count_records,
    List.count_eq_zero_of_not_mem oneLine, Nat.add_zero,
    List.drop_append_of_le_length (by rw [List.length_map]; omega), List.filterMap_append, last,
    ← List.map_drop, filterMap_records, List.map_drop]

theorem load_merged {torn : Exchange} {cut : Text} (within : cut <+: torn.record)
    (earlier later : List Exchange) (first : Exchange) :
    loadPersisted (appendAll (appendAll [] earlier ++ cut) (first :: later)) =
      ((earlier.map Exchange.record ++ (cut ++ first.record) :: later.map Exchange.record).drop
        (earlier.length + (later.length + 1) - persistMax)).filterMap readTurn := by
  rcases clean_of_cut within with ⟨text, oneLine⟩
  have clean : 0 ∉ earlier.flatMap Exchange.line ++ cut ++ (first :: later).flatMap Exchange.line := by
    rw [List.mem_append, List.mem_append, not_or, not_or]
    exact ⟨⟨lines_clean earlier, text⟩, lines_clean (first :: later)⟩
  have oneLine' : 10 ∉ cut ++ first.record := by
    rw [List.mem_append, not_or]
    exact ⟨oneLine, first.record_clean.2⟩
  have shape : cut ++ (first :: later).flatMap Exchange.line =
      (cut ++ first.record) ++ 10 :: (later.flatMap Exchange.line ++ []) := by
    rw [List.flatMap_cons, Exchange.line]
    simp
  rw [appendAll_eq, appendAll_eq, List.nil_append]
  unfold loadPersisted
  simp only
  rw [cstr_eq_self clean, List.append_assoc, bufferLines_records, shape, bufferLines_line oneLine',
    bufferLines_records, List.nil_append, List.count_append, count_records]
  have total : (cut ++ first.record ++ 10 :: (later.flatMap Exchange.line ++ [])).count 10 =
      later.length + 1 := by
    rw [List.count_append, List.count_eq_zero_of_not_mem oneLine', List.count_cons_self, List.append_nil,
      count_records]
    omega
  rw [total]
  simp [bufferLines]

theorem drop_records (turns : List Exchange) (n : Nat) :
    ((turns.map Exchange.record).drop n).filterMap readTurn = (turns.map Exchange.pair).drop n := by
  rw [← List.map_drop, filterMap_records, List.map_drop]

/-! ### When the turns are recovered -/

variable {earlier later : List Exchange} {torn first : Exchange} {cut : Text}

/-- A tear without later turns loses the torn one at most; one turn too many is loaded when the
torn record lacks only its end of line. -/
theorem recovers_last (within : cut <+: torn.record) :
    Recovers earlier torn cut [] ↔ cut = [] ∨ ¬ (cut = torn.record ∧ persistMax ≤ earlier.length) := by
  unfold Recovers
  rw [show appendAll (appendAll [] earlier ++ cut) [] = appendAll [] earlier ++ cut from rfl,
    load_torn within]
  by_cases whole : cut = torn.record
  · have read : readTurn cut = some torn.pair := by
      have read := readTurn_record torn [] List.not_mem_nil
      rwa [List.append_nil, ← whole] at read
    have some' : cut ≠ [] := by
      rw [whole]
      exact List.cons_ne_nil _ _
    rw [read]
    constructor
    · rintro ⟨kept, -, same⟩
      right
      rintro ⟨-, full⟩
      have lengths := congrArg List.length same
      simp only [newest, List.length_append, List.length_drop, List.length_map, Option.toList_some,
        List.length_singleton] at lengths
      omega
    · rintro (empty | short)
      · exact absurd empty some'
      · have less : earlier.length < persistMax := Nat.lt_of_not_le fun full => short ⟨whole, full⟩
        refine ⟨[torn], Or.inr rfl, ?_⟩
        have start : earlier.length - persistMax = 0 := by omega
        have start' : ((earlier ++ [torn] ++ []).map Exchange.pair).length - persistMax = 0 := by
          simp only [List.length_map, List.length_append, List.length_singleton, List.length_nil]
          omega
        rw [newest, start, start']
        simp
  · have read : readTurn cut = none := by
      by_cases empty : cut = []
      · rw [empty]
        rfl
      · have read := readTurn_cut within empty whole (Or.inl rfl)
        rwa [List.append_nil] at read
    rw [read]
    constructor
    · exact fun _ => Or.inr fun both => whole both.1
    · intro _
      refine ⟨[], Or.inl rfl, ?_⟩
      simp [newest]

theorem filterMap_window {line : Text} (few : later.length + 1 ≤ persistMax) :
    ((earlier.map Exchange.record ++ line :: later.map Exchange.record).drop
        (earlier.length + (later.length + 1) - persistMax)).filterMap readTurn =
      (earlier.map Exchange.pair).drop (earlier.length + (later.length + 1) - persistMax) ++
        ((readTurn line).toList ++ later.map Exchange.pair) := by
  rw [List.drop_append_of_le_length (by rw [List.length_map]; omega), List.filterMap_append, drop_records]
  congr 1
  rw [List.filterMap_cons, filterMap_records]
  cases readTurn line <;> rfl

theorem newest_window (few : later.length + 1 ≤ persistMax) :
    newest ((earlier ++ [] ++ first :: later).map Exchange.pair) =
      (earlier.map Exchange.pair).drop (earlier.length + (later.length + 1) - persistMax) ++
        first.pair :: later.map Exchange.pair := by
  have length : ((earlier ++ [] ++ first :: later).map Exchange.pair).length =
      earlier.length + (later.length + 1) := by simp
  rw [newest, length, List.append_nil, List.map_append,
    List.drop_append_of_le_length (by rw [List.length_map]; omega)]
  rfl

/-- A tear in front of later turns loses none of them when nothing was left of the record, the
window does not reach back to it, or the record lost is another copy of the torn one. -/
theorem recovers_merged (within : cut <+: torn.record) :
    Recovers earlier torn cut (first :: later) ↔
      cut = [] ∨ persistMax < (first :: later).length ∨ cut = torn.record ∧ first.pair = torn.pair := by
  unfold Recovers
  rw [load_merged within]
  by_cases empty : cut = []
  · refine iff_of_true ⟨[], Or.inl rfl, ?_⟩ (Or.inl empty)
    have length : ((earlier ++ [] ++ first :: later).map Exchange.pair).length =
        earlier.length + (later.length + 1) := by simp
    rw [newest, length, ← drop_records, empty]
    simp
  by_cases many : persistMax < (first :: later).length
  · refine iff_of_true ⟨[], Or.inl rfl, ?_⟩ (Or.inr (Or.inl many))
    rw [List.length_cons] at many
    obtain ⟨j, past⟩ : ∃ j, earlier.length + (later.length + 1) - persistMax = earlier.length + (j + 1) :=
      ⟨later.length - persistMax, by omega⟩
    have length : ((earlier ++ [] ++ first :: later).map Exchange.pair).length =
        earlier.length + (later.length + 1) := by simp
    rw [newest, length, past, List.append_nil, List.map_append, ← List.length_map Exchange.record,
      List.drop_length_add_append, List.length_map, ← List.length_map Exchange.pair,
      List.drop_length_add_append]
    exact drop_records later j
  · have few : later.length + 1 ≤ persistMax := Nat.le_of_not_lt many
    rw [filterMap_window few]
    by_cases whole : cut = torn.record
    · have read : readTurn (cut ++ first.record) = some torn.pair := by
        rw [whole]
        exact readTurn_record torn first.record first.record_clean.1
      rw [read]
      constructor
      · rintro ⟨kept, rfl | rfl, same⟩
        · rw [newest_window few] at same
          have tail := List.append_cancel_left same
          exact Or.inr (Or.inr ⟨whole, (List.cons.inj tail).1.symm⟩)
        · have length : ((earlier ++ [torn] ++ first :: later).map Exchange.pair).length =
              earlier.length + (later.length + 1) + 1 := by
            simp only [List.length_map, List.length_append, List.length_cons, List.length_nil]
            omega
          rw [newest, length] at same
          have full : persistMax ≤ earlier.length + (later.length + 1) := by
            have lengths := congrArg List.length same
            rw [List.length_drop, length] at lengths
            simp only [List.length_append, List.length_drop, List.length_map, Option.toList_some,
              List.length_singleton] at lengths
            omega
          have shape : (earlier ++ [torn] ++ first :: later).map Exchange.pair =
              (earlier ++ [torn]).map Exchange.pair ++ ([first.pair] ++ later.map Exchange.pair) := by simp
          rw [shape, List.drop_append_of_le_length
            (by rw [List.length_map, List.length_append, List.length_singleton]; omega),
            ← List.append_assoc, ← List.append_assoc] at same
          have before := List.append_cancel_right same
          have last := congrArg List.getLast? before
          simp only [Option.toList_some, List.getLast?_append, List.getLast?_singleton,
            Option.some_or] at last
          exact Or.inr (Or.inr ⟨whole, (Option.some.inj last).symm⟩)
      · rintro (none' | past | ⟨-, same⟩)
        · exact absurd none' empty
        · exact absurd past many
        · refine ⟨[], Or.inl rfl, ?_⟩
          rw [newest_window few, same]
          rfl
    · have read : readTurn (cut ++ first.record) = none :=
        readTurn_cut within empty whole (Or.inr ⟨first, rfl⟩)
      rw [read]
      constructor
      · rintro ⟨kept, keeps, same⟩
        have lengths := congrArg List.length same
        simp only [newest, List.length_append, List.length_drop, List.length_map, Option.toList_none,
          List.length_nil, List.length_cons] at lengths
        omega
      · rintro (none' | past | ⟨same, -⟩)
        · exact absurd none' empty
        · exact absurd past many
        · exact absurd same whole

/-- After a crash that leaves a proper part of the last line, the other turns are recovered exactly
when nothing is left of it, no later turn is merged into it (and, if it lacks only its end of line,
it fits the window), the window lies behind it, or the turn merged into it repeats it. -/
theorem torn_append_recovers (earlier : List Exchange) (torn : Exchange) (cut : Text)
    (later : List Exchange) (part : cut <+: torn.line) (proper : cut ≠ torn.line) :
    Recovers earlier torn cut later ↔
      cut = [] ∨ persistMax < later.length ∨
      (later = [] ∧ ¬ (cut = torn.record ∧ persistMax ≤ earlier.length)) ∨
      (cut = torn.record ∧ (later.head?.map Exchange.pair) = some torn.pair) := by
  have within : cut <+: torn.record := by
    rcases prefix_append_cases part with within | ⟨rest, rfl, last⟩
    · exact within
    · rcases List.prefix_cons_iff.mp last with rfl | ⟨nothing, rfl, end'⟩
      · exact ⟨[], by rw [List.append_nil, List.append_nil]⟩
      · obtain rfl := List.prefix_nil.mp end'
        exact absurd rfl proper
  cases later with
  | nil =>
    rw [recovers_last within]
    simp
  | cons first later =>
    rw [recovers_merged within]
    simp

def hello : Exchange where
  q := ascii "hello"
  a := ascii "hi"
  q_text := by decide
  a_text := by decide

/-- A record of which one byte is left. -/
theorem torn_append_recovers_hello :
    Recovers [hello] hello [123] [hello] ↔
      [123] = ([] : Text) ∨ persistMax < [hello].length ∨
      ([hello] = [] ∧ ¬ ([123] = hello.record ∧ persistMax ≤ [hello].length)) ∨
      ([123] = hello.record ∧ ([hello].head?.map Exchange.pair) = some hello.pair) :=
  torn_append_recovers [hello] hello [123] [hello] ⟨_, rfl⟩ (by decide)

/-- The turn after a tear is lost with it. -/
theorem torn_append_recovers_fails :
    ¬ ∀ (earlier : List Exchange) (torn : Exchange) (cut : Text) (later : List Exchange),
      cut <+: torn.line → cut ≠ torn.line → Recovers earlier torn cut later := by
  intro claim
  have recovers := claim [] hello [123] [hello] ⟨_, rfl⟩ (by decide)
  rw [recovers_merged ⟨_, rfl⟩] at recovers
  rcases recovers with none' | many | ⟨whole, -⟩
  · cases none'
  · exact absurd many (by decide)
  · exact absurd whole (by decide)

end CognitiveOs.Sessions
