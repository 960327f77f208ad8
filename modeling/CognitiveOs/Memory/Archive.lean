import CognitiveOs.Infra.Print
import CognitiveOs.Memory.Episodes

/-!
# The archive of forgotten episodes

`memory_lifecycle_pass` of `memory/memory.c` with the file it appends to, `episodic_below_json` and
`episodic_drop_below` of `memory/episode.c`. `number` prints a double.
-/

namespace CognitiveOs.Memory.Archive

open Infra Episodes

/-- What a pass meets: the state root, and what memory and the file system give it. -/
structure Surroundings where
  root : Text
  /-- There is memory for the text of the episodes. -/
  prints : Bool
  /-- There is memory for the line. -/
  line : Bool
  /-- How many bytes `fs_append_file` gets into the file, `none` when it is not opened. -/
  append : Option Nat

/-- The episodes in memory, and the bytes of `archive.jsonl`. -/
structure Store where
  episodes : List Episode
  file : Text
  deriving DecidableEq

def episodeJson (e : Episode) : Json :=
  .object [(ascii "task", .string e.task), (ascii "result", .string e.result), (ascii "ts", .number e.ts),
    (ascii "strength", .number e.strength)]

section

variable (number : Rat → Text)

/-- `episodic_below_json`, an empty array when there is no memory. -/
def episodicBelowJson (prints : Bool) (es : List Episode) (minStrength : ℚ) : Text :=
  if prints then Json.print number (.array ((es.filter fun e => ¬ minStrength ≤ e.strength).map episodeJson))
  else ascii "[]"

def appended (s : Surroundings) (below : Text) : Text :=
  if s.root = [] ∨ s.line = false then []
  else (s.append.map fun n => (below ++ [10]).take n).getD []

/-- `memory_lifecycle_pass`, and its answer. -/
def lifecyclePass (s : Surroundings) (m : Store) (cfg : LifecycleCfg) : Store × Nat :=
  let es := aged m.episodes cfg
  if cfg.minStrength ≤ 0 then ({ m with episodes := es }, 0)
  else
    let below := episodicBelowJson number s.prints es cfg.minStrength
    let file := if cfg.archive = true ∧ below ≠ ascii "[]" then m.file ++ appended s below else m.file
    let kept := episodicDropBelow es cfg.minStrength
    ({ episodes := kept, file }, es.length - kept.length)

def archiveLine (es : List Episode) : Text :=
  if es = [] then [] else Json.print number (.array (es.map episodeJson)) ++ [10]

def below (es : List Episode) (cfg : LifecycleCfg) : List Episode :=
  if cfg.minStrength ≤ 0 then [] else (aged es cfg).filter fun e => e.strength < cfg.minStrength

def Writes (s : Surroundings) (m : Store) (cfg : LifecycleCfg) : Prop :=
  s.root ≠ [] ∧ s.prints = true ∧ s.line = true ∧
    ∃ n ∈ s.append, (archiveLine number (below m.episodes cfg)).length ≤ n

/-- A pass splits the episodes into those that stay, as they are and in their order, and those whose line is
added to the archive; when this cannot be written, all stay. -/
structure Faithful (s : Surroundings) (m : Store) (cfg : LifecycleCfg) : Prop where
  archived : Writes number s m cfg → ∃ stays : Episode → Bool,
    (lifecyclePass number s m cfg).1.episodes = (aged m.episodes cfg).filter stays ∧
      (lifecyclePass number s m cfg).1.file =
        m.file ++ archiveLine number ((aged m.episodes cfg).filter fun e => !stays e)
  failed : ¬ Writes number s m cfg → (lifecyclePass number s m cfg).1.episodes = aged m.episodes cfg

/-! ### What is dropped and what is written -/

variable {number}

theorem episodes_lifecyclePass (s : Surroundings) (m : Store) (cfg : LifecycleCfg) (memory : Episodes.State)
    (same : memory.episodes = m.episodes) :
    (lifecyclePass number s m cfg).1.episodes = (Episodes.lifecyclePass memory cfg).episodes := by
  unfold lifecyclePass Episodes.lifecyclePass
  rw [same]
  by_cases off : cfg.minStrength ≤ 0
  · simp only [off, if_true]
  · simp only [off, if_false]

theorem episodes_eq (s : Surroundings) (m : Store) {cfg : LifecycleCfg} (on : ¬ cfg.minStrength ≤ 0) :
    (lifecyclePass number s m cfg).1.episodes =
      (aged m.episodes cfg).filter fun e => !decide (e.strength < cfg.minStrength) := by
  unfold lifecyclePass
  simp only [on, if_false, episodicDropBelow, decide_not]

theorem below_eq (m : Store) {cfg : LifecycleCfg} (on : ¬ cfg.minStrength ≤ 0) :
    below m.episodes cfg = (aged m.episodes cfg).filter fun e => ¬ cfg.minStrength ≤ e.strength := by
  unfold below
  rw [if_neg on]
  exact List.filter_congr fun e _ => by simp [not_le]

theorem print_items (es : List Episode) (some_episodes : es ≠ []) :
    Json.print number (.array (es.map episodeJson)) ≠ ascii "[]" := by
  cases es with
  | nil => exact absurd rfl some_episodes
  | cons e es =>
    intro empty
    have second := congrArg (fun s => s[1]?) empty
    simp [Json.print, episodeJson, ascii] at second

theorem file_eq {s : Surroundings} {m : Store} {cfg : LifecycleCfg} (on : ¬ cfg.minStrength ≤ 0)
    (archiving : cfg.archive = true) (writes : Writes number s m cfg) :
    (lifecyclePass number s m cfg).1.file = m.file ++ archiveLine number (below m.episodes cfg) := by
  obtain ⟨root, prints, line, n, opened, enough⟩ := writes
  unfold lifecyclePass
  simp only [on, if_false, archiving, true_and, episodicBelowJson, prints, if_true]
  rw [← below_eq m on]
  by_cases nothing : below m.episodes cfg = []
  · rw [nothing, if_neg (by simp [Json.print, ascii])]
    simp [archiveLine]
  · unfold archiveLine at enough ⊢
    rw [if_neg nothing] at enough ⊢
    rw [if_pos (print_items _ nothing)]
    congr 1
    unfold appended
    rw [if_neg (by simp [root, line]), Option.mem_def.mp opened, Option.map_some, Option.getD_some,
      List.take_of_length_le enough]

/-- A pass archives exactly what it drops if and only if its line can be written or there is nothing to drop. -/
theorem faithful_iff (s : Surroundings) (m : Store) {cfg : LifecycleCfg} (archiving : cfg.archive = true) :
    Faithful number s m cfg ↔ Writes number s m cfg ∨ below m.episodes cfg = [] := by
  by_cases on : cfg.minStrength ≤ 0
  · have nothing : below m.episodes cfg = [] := if_pos on
    have pass : lifecyclePass number s m cfg = ({ m with episodes := aged m.episodes cfg }, 0) := by
      unfold lifecyclePass
      simp only [on, if_true]
    refine iff_of_true ⟨fun _ => ⟨fun _ => true, ?_, ?_⟩, fun _ => ?_⟩ (.inr nothing)
    · simp [pass]
    · simp [pass, archiveLine]
    · rw [pass]
  · have dropped : below m.episodes cfg =
        (aged m.episodes cfg).filter fun e => e.strength < cfg.minStrength := if_neg on
    constructor
    · intro faithful
      by_contra neither
      obtain ⟨failed, some_episodes⟩ := not_or.mp neither
      have kept := faithful.failed failed
      rw [episodes_eq s m on] at kept
      refine some_episodes ?_
      rw [dropped, List.filter_eq_nil_iff]
      intro e member
      simpa using List.filter_eq_self.mp kept e member
    · intro written
      refine ⟨fun writes => ⟨_, episodes_eq s m on, ?_⟩, fun failed => ?_⟩
      · simp only [Bool.not_not]
        rw [← dropped]
        exact file_eq on archiving writes
      · have nothing := written.resolve_left failed
        rw [dropped, List.filter_eq_nil_iff] at nothing
        rw [episodes_eq s m on, List.filter_eq_self]
        intro e member
        simpa using nothing e member

end

def twoEpisodes : Store where
  episodes := [⟨ascii "build", ascii "ok", 1, 1⟩, ⟨ascii "test", ascii "ok", 2, 3⟩]
  file := []

def forgetting : LifecycleCfg where
  now := 10
  halfLife := 0
  minStrength := 2
  archive := true

/-- The file cannot be opened, and the episode is gone. -/
theorem failed_archive_drops :
    ¬ Faithful (fun _ => ascii "1") ⟨ascii "state", true, true, none⟩ twoEpisodes forgetting := by
  intro faithful
  have kept := faithful.failed (by rintro ⟨-, -, -, n, opened, -⟩; cases opened)
  revert kept
  decide +kernel

theorem faithful_iff_written :
    Faithful (fun _ => ascii "1") ⟨ascii "state", true, true, some 60⟩ twoEpisodes forgetting :=
  (faithful_iff _ _ rfl).mpr (.inl ⟨by decide, rfl, rfl, 60, rfl, by decide +kernel⟩)

end CognitiveOs.Memory.Archive
