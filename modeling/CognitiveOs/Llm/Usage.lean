import CognitiveOs.Infra.Numerals

/-!
# The usage ledger

The token counts of `llm/usage.c`: per model, in total, and by day, model and task, and the file
from which they are restored. The counts are integers that a double holds exactly.
-/

namespace CognitiveOs.Llm.Accounting

open Infra

/-! ### Counting -/

structure Counts where
  prompt : Int
  completion : Int
  reasoning : Int
  deriving DecidableEq

structure ModelEntry where
  model : Text
  prompt : Int := 0
  completion : Int := 0
  calls : Int := 0
  reasoning : Int := 0
  deriving DecidableEq

structure Row where
  day : Text
  model : Text
  taskId : Int
  prompt : Int := 0
  completion : Int := 0
  reasoning : Int := 0
  calls : Int := 0
  deriving DecidableEq

/-- `struct usage`, without the path of the ledger. -/
structure Usage where
  models : List ModelEntry := []
  promptTotal : Int := 0
  completionTotal : Int := 0
  reasoningTotal : Int := 0
  breakdown : List Row := []
  deriving DecidableEq

/-- The first item of a property is changed; if there is none, a fresh one is changed and added. -/
def bump {α : Type} (p : α → Bool) (f : α → α) (fresh : α) : List α → List α
  | [] => [f fresh]
  | x :: xs => if p x then f x :: xs else x :: bump p f fresh xs

def ModelEntry.add (c : Counts) (e : ModelEntry) : ModelEntry :=
  { e with
    prompt := e.prompt + c.prompt
    completion := e.completion + c.completion
    calls := e.calls + 1
    reasoning := if 0 < c.reasoning then e.reasoning + c.reasoning else e.reasoning }

def Row.add (c : Counts) (row : Row) : Row :=
  { row with
    prompt := row.prompt + c.prompt
    completion := row.completion + c.completion
    reasoning := row.reasoning + c.reasoning
    calls := row.calls + 1 }

def usageAddEx (u : Usage) (model : Text) (c : Counts) : Usage :=
  { u with
    models := bump (fun e => e.model = model) (ModelEntry.add c) { model } u.models
    promptTotal := u.promptTotal + c.prompt
    completionTotal := u.completionTotal + c.completion
    reasoningTotal := if 0 < c.reasoning then u.reasoningTotal + c.reasoning else u.reasoningTotal }

structure Event where
  day : Text
  model : Text
  taskId : Int
  counts : Counts
  deriving DecidableEq

def Event.at (e : Event) (row : Row) : Bool :=
  row.day = e.day && row.model = e.model && row.taskId = e.taskId

/-- `usage_event`, but for the ledger. -/
def usageEvent (u : Usage) (e : Event) : Usage :=
  let u := usageAddEx u e.model e.counts
  { u with
    breakdown := bump e.at (Row.add e.counts) { day := e.day, model := e.model, taskId := e.taskId } u.breakdown }

/-! ### The file -/

def Event.json (e : Event) : Json :=
  .object [(ascii "day", .string e.day), (ascii "model", .string e.model), (ascii "task_id", .number e.taskId),
    (ascii "prompt", .number e.counts.prompt), (ascii "completion", .number e.counts.completion),
    (ascii "reasoning", .number e.counts.reasoning)]

/-- What `usage_event` appends to the ledger. -/
def Event.line (number : Rat → Text) (e : Event) : Text :=
  e.json.print number ++ [10]

/-- `(long)cJSON_GetNumberValue(...)`. -/
def longOf (json : Json) (key : Text) : Int :=
  match json.get? key with
  | some (.number value) => value.num.tdiv value.den
  | _ => 0

/-- `fgets` with room for `room` bytes: one line with its end, or as much of it as there is room for. -/
def fgets (room : Nat) (s : Text) : Text × Text :=
  let line := s.takeWhile (· ≠ 10)
  if line.length < room then (s.take (line.length + 1), s.drop (line.length + 1)) else (s.take room, s.drop room)

/-- The lines that the loop of `usage_set_state` reads. -/
def fgetsLines : Nat → Text → List Text
  | 0, _ => []
  | fuel + 1, s => if s = [] then [] else (fgets 8191 s).1 :: fgetsLines fuel (fgets 8191 s).2

def replayLine (u : Usage) (line : Text) : Usage :=
  match Cjson.parse line with
  | none => u
  | some o =>
    match (o.get? (ascii "day")).bind Json.string?, (o.get? (ascii "model")).bind Json.string? with
    | some day, some model =>
      let counts : Counts :=
        { prompt := longOf o (ascii "prompt"), completion := longOf o (ascii "completion"),
          reasoning := longOf o (ascii "reasoning") }
      usageEvent u { day, model, taskId := longOf o (ascii "task_id"), counts }
    | _, _ => u

/-- `usage_set_state` on a new `usage`. -/
def usageSetState (file : Text) : Usage :=
  (fgetsLines file.length file).foldl replayLine {}

/-! ### Runs -/

structure System where
  usage : Usage := {}
  file : Text := []
  deriving DecidableEq

/-- A step: a report through `usage_add_task`, one through `usage_add_ex` alone (as `llm_simple_booked`
and `memory_summary_run` make them), or a restart. -/
inductive Step where
  | task (e : Event) (appended : Bool)
  | direct (model : Text) (c : Counts)
  | restart

def Event.copied (e : Event) : Event :=
  { e with day := cstr e.day, model := cstr e.model }

def Step.apply (number : Rat → Text) (s : System) : Step → System
  | .task e appended =>
    { usage := usageEvent s.usage e.copied, file := if appended then s.file ++ e.copied.line number else s.file }
  | .direct model c => { s with usage := usageAddEx s.usage (cstr model) c }
  | .restart => { s with usage := usageSetState s.file }

def run (number : Rat → Text) (steps : List Step) : System :=
  steps.foldl (Step.apply number) {}

/-! ### What is counted -/

variable {α : Type} {d : Int} {e : Event}

theorem sum_bump (p : α → Bool) {f : α → α} {fresh : α} {g : α → Int} (adds : ∀ x, g (f x) = g x + d)
    (zero : g fresh = 0) (xs : List α) : ((bump p f fresh xs).map g).sum = (xs.map g).sum + d := by
  induction xs with
  | nil => simp [bump, adds, zero]
  | cons x xs ih =>
    unfold bump
    split
    · rw [List.map_cons, List.sum_cons, List.map_cons, List.sum_cons, adds]
      omega
    · rw [List.map_cons, List.sum_cons, List.map_cons, List.sum_cons, ih]
      omega

def Extends {α : Type} (r : α → α → Prop) (xs ys : List α) : Prop :=
  ∀ (i : Nat) (x : α), xs[i]? = some x → ∃ y, ys[i]? = some y ∧ r x y

theorem extends_bump (p : α → Bool) {f : α → α} {fresh : α} {r : α → α → Prop} (refl : ∀ x, r x x)
    (grows : ∀ x, r x (f x)) (xs : List α) : Extends r xs (bump p f fresh xs) := by
  induction xs with
  | nil =>
    intro i x here
    simp at here
  | cons x xs ih =>
    intro i y here
    unfold bump
    split
    · cases i with
      | zero =>
        obtain rfl : x = y := by simpa using here
        exact ⟨f x, rfl, grows x⟩
      | succ i => exact ⟨y, by simpa using here, refl y⟩
    · cases i with
      | zero => exact ⟨y, by simpa using here, refl y⟩
      | succ i => exact ih i y (by simpa using here)

theorem Extends.trans {r : α → α → Prop} (trans : ∀ x y z, r x y → r y z → r x z) {xs ys zs : List α}
    (first : Extends r xs ys) (second : Extends r ys zs) : Extends r xs zs := by
  intro i x here
  obtain ⟨y, there, related⟩ := first i x here
  obtain ⟨z, place, related'⟩ := second i y there
  exact ⟨z, place, trans x y z related related'⟩

/-- The totals are the sums over the models and over the breakdown. -/
structure Consistent (u : Usage) : Prop where
  prompt : (u.models.map (·.prompt)).sum = u.promptTotal ∧ (u.breakdown.map (·.prompt)).sum = u.promptTotal
  completion : (u.models.map (·.completion)).sum = u.completionTotal ∧
    (u.breakdown.map (·.completion)).sum = u.completionTotal
  reasoning : (u.models.map (·.reasoning)).sum = u.reasoningTotal ∧
    (u.breakdown.map (·.reasoning)).sum = u.reasoningTotal

def ModelEntry.Le (e e' : ModelEntry) : Prop :=
  e.model = e'.model ∧ e.prompt ≤ e'.prompt ∧ e.completion ≤ e'.completion ∧ e.calls ≤ e'.calls ∧
    e.reasoning ≤ e'.reasoning

def Row.Le (row row' : Row) : Prop :=
  (row.day = row'.day ∧ row.model = row'.model ∧ row.taskId = row'.taskId) ∧ row.prompt ≤ row'.prompt ∧
    row.completion ≤ row'.completion ∧ row.reasoning ≤ row'.reasoning ∧ row.calls ≤ row'.calls

structure Grows (u u' : Usage) : Prop where
  models : Extends ModelEntry.Le u.models u'.models
  breakdown : Extends Row.Le u.breakdown u'.breakdown
  totals : u.promptTotal ≤ u'.promptTotal ∧ u.completionTotal ≤ u'.completionTotal ∧
    u.reasoningTotal ≤ u'.reasoningTotal

theorem Grows.refl (u : Usage) : Grows u u where
  models _ e here := ⟨e, here, rfl, Int.le_refl _, Int.le_refl _, Int.le_refl _, Int.le_refl _⟩
  breakdown _ row here := ⟨row, here, ⟨rfl, rfl, rfl⟩, Int.le_refl _, Int.le_refl _, Int.le_refl _, Int.le_refl _⟩
  totals := ⟨Int.le_refl _, Int.le_refl _, Int.le_refl _⟩

theorem Grows.trans {u v w : Usage} (first : Grows u v) (second : Grows v w) : Grows u w where
  models := first.models.trans (fun x y z h h' => ⟨h.1.trans h'.1, by
    obtain ⟨-, a, b, c, d⟩ := h
    obtain ⟨-, a', b', c', d'⟩ := h'
    exact ⟨a.trans a', b.trans b', c.trans c', d.trans d'⟩⟩) second.models
  breakdown := first.breakdown.trans (fun x y z h h' => by
    obtain ⟨⟨i, j, k⟩, a, b, c, d⟩ := h
    obtain ⟨⟨i', j', k'⟩, a', b', c', d'⟩ := h'
    exact ⟨⟨i.trans i', j.trans j', k.trans k'⟩, a.trans a', b.trans b', c.trans c', d.trans d'⟩) second.breakdown
  totals := by
    have := first.totals
    have := second.totals
    omega

def Counts.Valid (c : Counts) : Prop :=
  (0 ≤ c.prompt ∧ c.prompt < 10 ^ 15) ∧ (0 ≤ c.completion ∧ c.completion < 10 ^ 15) ∧
    0 ≤ c.reasoning ∧ c.reasoning < 10 ^ 15

theorem ModelEntry.add_reasoning {c : Counts} (valid : c.Valid) (e : ModelEntry) :
    (e.add c).reasoning = e.reasoning + c.reasoning := by
  obtain ⟨-, -, low, -⟩ := valid
  simp only [ModelEntry.add]
  split <;> omega

theorem usageEvent_reasoningTotal (valid : e.counts.Valid) (u : Usage) :
    (usageEvent u e).reasoningTotal = u.reasoningTotal + e.counts.reasoning := by
  obtain ⟨-, -, low, -⟩ := valid
  simp only [usageEvent, usageAddEx]
  split <;> omega

theorem sum_models (u : Usage) (e : Event) {g : ModelEntry → Int}
    (adds : ∀ x : ModelEntry, g (x.add e.counts) = g x + d) (zero : g { model := e.model } = 0) :
    ((usageEvent u e).models.map g).sum = (u.models.map g).sum + d :=
  sum_bump _ adds zero u.models

theorem sum_breakdown (u : Usage) (e : Event) {g : Row → Int} (adds : ∀ x : Row, g (x.add e.counts) = g x + d)
    (zero : g { day := e.day, model := e.model, taskId := e.taskId } = 0) :
    ((usageEvent u e).breakdown.map g).sum = (u.breakdown.map g).sum + d :=
  sum_bump _ adds zero u.breakdown

theorem Consistent.usageEvent {u : Usage} (consistent : Consistent u) (valid : e.counts.Valid) :
    Consistent (usageEvent u e) where
  prompt := by
    rw [sum_models u e (fun _ => rfl) rfl, sum_breakdown u e (fun _ => rfl) rfl, consistent.prompt.1,
      consistent.prompt.2]
    exact ⟨rfl, rfl⟩
  completion := by
    rw [sum_models u e (fun _ => rfl) rfl, sum_breakdown u e (fun _ => rfl) rfl, consistent.completion.1,
      consistent.completion.2]
    exact ⟨rfl, rfl⟩
  reasoning := by
    rw [sum_models u e (fun x => x.add_reasoning valid) rfl, sum_breakdown u e (fun _ => rfl) rfl,
      consistent.reasoning.1, consistent.reasoning.2, usageEvent_reasoningTotal valid]
    exact ⟨rfl, rfl⟩

theorem grows_usageEvent (u : Usage) (valid : e.counts.Valid) : Grows u (usageEvent u e) := by
  obtain ⟨⟨prompt, -⟩, ⟨completion, -⟩, reasoning, -⟩ := id valid
  constructor
  · refine extends_bump _ (fun x => ⟨rfl, Int.le_refl _, Int.le_refl _, Int.le_refl _, Int.le_refl _⟩) ?_ _
    intro x
    have total := x.add_reasoning valid
    refine ⟨rfl, ?_, ?_, ?_, ?_⟩
    · exact Int.le_add_of_nonneg_right prompt
    · exact Int.le_add_of_nonneg_right completion
    · exact Int.le_add_of_nonneg_right (by decide)
    · omega
  · refine extends_bump _ (fun x => ⟨⟨rfl, rfl, rfl⟩, Int.le_refl _, Int.le_refl _, Int.le_refl _, Int.le_refl _⟩) ?_ _
    intro x
    refine ⟨⟨rfl, rfl, rfl⟩, ?_, ?_, ?_, ?_⟩
    · exact Int.le_add_of_nonneg_right prompt
    · exact Int.le_add_of_nonneg_right completion
    · exact Int.le_add_of_nonneg_right reasoning
    · exact Int.le_add_of_nonneg_right (by decide)
  · have total := usageEvent_reasoningTotal valid u
    refine ⟨Int.le_add_of_nonneg_right prompt, Int.le_add_of_nonneg_right completion, ?_⟩
    omega

/-! ### What is replayed -/

variable {number : Rat → Text}

structure Event.Fits (number : Rat → Text) (e : Event) : Prop where
  counts : e.counts.Valid
  task : e.taskId.natAbs < 10 ^ 15
  line : (e.line number).length ≤ 8191

theorem rereads_event (prints : Cjson.PrintsIntegers number) (fits : e.copied.Fits number) :
    Json.Rereads number 1 e.copied.json e.copied.json := by
  obtain ⟨⟨prompt, prompt'⟩, ⟨completion, completion'⟩, reasoning, reasoning'⟩ := fits.counts
  have day : 0 ∉ e.copied.day := not_mem_cstr e.day
  have model : 0 ∉ e.copied.model := not_mem_cstr e.model
  refine .object (.cons (by decide) (.string day) (.cons (by decide) (.string model) (.cons (by decide) (.number
    (prints.reads_self fits.task)) (.cons (by decide) (.number (prints.reads_self ?_)) (.cons (by decide) (.number
    (prints.reads_self ?_)) (.cons (by decide) (.number (prints.reads_self ?_)) .nil))))))
  · omega
  · omega
  · omega

theorem longOf_int {json : Json} {key : Text} {k : Int} (found : json.get? key = some (.number k)) :
    longOf json key = k := by
  simp [longOf, found]

theorem replayLine_line (prints : Cjson.PrintsIntegers number) (u : Usage) (fits : e.copied.Fits number) :
    replayLine u (e.copied.line number) = usageEvent u e.copied := by
  have shown := rereads_event prints fits
  have read : Cjson.parse (e.copied.json.print number) = some e.copied.json := by
    rw [Cjson.parse, Cjson.parseWithEnd_print number shown (by decide)]
    rfl
  have parsed : Cjson.parse (e.copied.line number) = some e.copied.json :=
    Cjson.parse_append read (Cjson.print_clean number shown).1 (by decide)
  have keys : (ascii "day" ≠ ascii "model" ∧ ascii "day" ≠ ascii "task_id" ∧ ascii "day" ≠ ascii "prompt" ∧
      ascii "day" ≠ ascii "completion" ∧ ascii "day" ≠ ascii "reasoning") ∧
      (ascii "model" ≠ ascii "task_id" ∧ ascii "model" ≠ ascii "prompt" ∧ ascii "model" ≠ ascii "completion" ∧
        ascii "model" ≠ ascii "reasoning") ∧
      (ascii "task_id" ≠ ascii "prompt" ∧ ascii "task_id" ≠ ascii "completion" ∧
        ascii "task_id" ≠ ascii "reasoning") ∧
      (ascii "prompt" ≠ ascii "completion" ∧ ascii "prompt" ≠ ascii "reasoning") ∧
      ascii "completion" ≠ ascii "reasoning" := by decide
  obtain ⟨⟨dm, dt, dp, dc, dr⟩, ⟨mt, mp, mc, mr⟩, ⟨tp, tc, tr⟩, ⟨pc, pr⟩, cr⟩ := keys
  have task : longOf e.copied.json (ascii "task_id") = e.copied.taskId :=
    longOf_int (by simp [Event.json, Json.get?, dt, mt])
  have prompt : longOf e.copied.json (ascii "prompt") = e.copied.counts.prompt :=
    longOf_int (by simp [Event.json, Json.get?, dp, mp, tp])
  have completion : longOf e.copied.json (ascii "completion") = e.copied.counts.completion :=
    longOf_int (by simp [Event.json, Json.get?, dc, mc, tc, pc])
  have reasoning : longOf e.copied.json (ascii "reasoning") = e.copied.counts.reasoning :=
    longOf_int (by simp [Event.json, Json.get?, dr, mr, tr, pr, cr])
  have day : (e.copied.json.get? (ascii "day")).bind Json.string? = some e.copied.day := by
    simp [Event.json, Json.get?, Json.string?]
  have model : (e.copied.json.get? (ascii "model")).bind Json.string? = some e.copied.model := by
    simp [Event.json, Json.get?, Json.string?, dm]
  simp only [replayLine, parsed, day, model, task, prompt, completion, reasoning]

theorem fgets_line {room : Nat} {t : Text} (one : 10 ∉ t) (short : t.length < room) (rest : Text) :
    fgets room (t ++ 10 :: rest) = (t ++ [10], rest) := by
  have line : (t ++ 10 :: rest).takeWhile (· ≠ 10) = t := by
    rw [List.takeWhile_append_of_pos]
    · simp
    · intro b member
      simpa using fun same : b = 10 => one (same ▸ member)
  have split : t ++ 10 :: rest = (t ++ [10]) ++ rest := by simp
  have size : t.length + 1 = (t ++ [10]).length := by simp
  simp only [fgets, line, short, if_true]
  rw [split, size, List.take_left, List.drop_left]

theorem fgetsLines_flatten {lines : List Text}
    (each : ∀ l ∈ lines, ∃ t : Text, l = t ++ [10] ∧ 10 ∉ t ∧ t.length < 8191) {fuel : Nat}
    (enough : lines.length ≤ fuel) : fgetsLines fuel lines.flatten = lines := by
  induction lines generalizing fuel with
  | nil => cases fuel <;> simp [fgetsLines]
  | cons l lines ih =>
    obtain ⟨t, rfl, one, short⟩ := each l List.mem_cons_self
    cases fuel with
    | zero => simp at enough
    | succ fuel =>
      have more : ((t ++ [10]) :: lines).flatten = t ++ 10 :: lines.flatten := by simp
      have some' : t ++ 10 :: lines.flatten ≠ [] := by simp
      rw [more, fgetsLines, if_neg some', fgets_line one short,
        ih (fun l member => each l (List.mem_cons_of_mem _ member)) (by simpa using enough)]

theorem usageSetState_lines (prints : Cjson.PrintsIntegers number) {events : List Event}
    (fit : ∀ e ∈ events, e.copied.Fits number) :
    usageSetState (events.map fun e => e.copied.line number).flatten =
      (events.map Event.copied).foldl usageEvent {} := by
  have each : ∀ l ∈ events.map (fun e => e.copied.line number),
      ∃ t : Text, l = t ++ [10] ∧ 10 ∉ t ∧ t.length < 8191 := by
    intro l member
    obtain ⟨e, booked, rfl⟩ := List.mem_map.mp member
    have short := (fit e booked).line
    refine ⟨e.copied.json.print number, rfl, (Cjson.print_clean number (rereads_event prints (fit e booked))).2, ?_⟩
    simp only [Event.line, List.length_append, List.length_singleton] at short
    omega
  have count : (events.map fun e => e.copied.line number).length ≤
      (events.map fun e => e.copied.line number).flatten.length := by
    generalize events.map (fun e => e.copied.line number) = lines at each
    induction lines with
    | nil => simp
    | cons l lines ih =>
      obtain ⟨t, rfl, -⟩ := each l List.mem_cons_self
      have := ih fun l member => each l (List.mem_cons_of_mem _ member)
      simp only [List.length_cons, List.flatten_cons, List.length_append, List.length_nil]
      omega
  rw [usageSetState, fgetsLines_flatten each count]
  have replayed (u : Usage) : (events.map fun e => e.copied.line number).foldl replayLine u =
      (events.map Event.copied).foldl usageEvent u := by
    clear each count
    induction events generalizing u with
    | nil => rfl
    | cons e events ih =>
      rw [List.map_cons, List.foldl_cons, List.map_cons, List.foldl_cons,
        replayLine_line prints u (fit e List.mem_cons_self)]
      exact ih (fun e member => fit e (List.mem_cons_of_mem _ member)) _
  exact replayed {}

/-! ### Runs of booked reports -/

variable {steps : List Step}

/-- A report that goes through `usage_add_task` and is appended to the ledger; or a restart. -/
def Step.Booked (number : Rat → Text) : Step → Prop
  | .task e appended => appended = true ∧ e.copied.Fits number
  | .direct _ _ => False
  | .restart => True

theorem run_snoc (steps : List Step) (step : Step) :
    run number (steps ++ [step]) = Step.apply number (run number steps) step := by
  simp [run]

theorem run_spec (prints : Cjson.PrintsIntegers number) (booked : ∀ step ∈ steps, step.Booked number) :
    ∃ events : List Event, (∀ e ∈ events, e.copied.Fits number) ∧
      (run number steps).file = (events.map fun e => e.copied.line number).flatten ∧
      (run number steps).usage = (events.map Event.copied).foldl usageEvent {} := by
  induction steps using List.reverseRecOn with
  | nil => exact ⟨[], by simp, rfl, rfl⟩
  | append_singleton steps step ih =>
    obtain ⟨events, fit, file, usage⟩ := ih fun step member => booked step (List.mem_append_left _ member)
    have last := booked step (List.mem_append_right _ List.mem_cons_self)
    rw [run_snoc]
    cases step with
    | task e appended =>
      obtain ⟨rfl, fits⟩ := last
      refine ⟨events ++ [e], ?_, ?_, ?_⟩
      · intro e' member
        rcases List.mem_append.mp member with old | new
        · exact fit e' old
        · rw [List.mem_singleton.mp new]
          exact fits
      · simp [Step.apply, file]
      · simp [Step.apply, usage]
    | direct model c => exact last.elim
    | restart =>
      refine ⟨events, fit, file, ?_⟩
      rw [← usageSetState_lines prints fit, ← file]
      rfl

theorem restored (prints : Cjson.PrintsIntegers number) (booked : ∀ step ∈ steps, step.Booked number) :
    usageSetState (run number steps).file = (run number steps).usage := by
  obtain ⟨events, fit, file, usage⟩ := run_spec prints booked
  rw [file, usageSetState_lines prints fit, usage]

theorem consistent_run (prints : Cjson.PrintsIntegers number) (booked : ∀ step ∈ steps, step.Booked number) :
    Consistent (run number steps).usage := by
  obtain ⟨events, fit, -, usage⟩ := run_spec prints booked
  rw [usage, List.foldl_map]
  refine List.foldlRecOn events _ ⟨⟨rfl, rfl⟩, ⟨rfl, rfl⟩, rfl, rfl⟩ ?_
  intro u consistent e member
  exact consistent.usageEvent (fit e member).counts

theorem grows_run (prints : Cjson.PrintsIntegers number) {before after : List Step}
    (booked : ∀ step ∈ before ++ after, step.Booked number) :
    Grows (run number before).usage (run number (before ++ after)).usage := by
  induction after using List.reverseRecOn with
  | nil =>
    rw [List.append_nil]
    exact Grows.refl _
  | append_singleton after step ih =>
    rw [← List.append_assoc] at booked ⊢
    have earlier : ∀ step ∈ before ++ after, step.Booked number :=
      fun step member => booked step (List.mem_append_left _ member)
    refine (ih earlier).trans ?_
    have last := booked step (List.mem_append_right _ List.mem_cons_self)
    rw [run_snoc]
    cases step with
    | task e appended => exact grows_usageEvent _ last.2.counts
    | direct model c => exact last.elim
    | restart =>
      show Grows _ (usageSetState (run number (before ++ after)).file)
      rw [restored prints earlier]
      exact Grows.refl _

def bookedOnce : List Step :=
  [.task ⟨ascii "2026-01-02", ascii "m", -1, ⟨10, 5, 2⟩⟩ true, .restart]

end CognitiveOs.Llm.Accounting
