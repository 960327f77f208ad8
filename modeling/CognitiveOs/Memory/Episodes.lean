import CognitiveOs.Infra.Scan
import CognitiveOs.Memory.Gate.Model

/-!
# Episodes and their vectors

`memory/episode.c` and what `memory/memory.c` does with it: the recorded experience, its decay, what
is dropped or archived, and its vectors. The strengths are rationals, the vectors those of episodes.
-/

namespace CognitiveOs.Memory.Episodes

open Foundation Foundation.Upsert Infra Gate

structure Episode where
  task : Text
  result : Text
  ts : Int
  strength : ℚ
  deriving DecidableEq

/-! ### The store -/

def episodesCap : Nat :=
  512

def reinforceFirst (task result : Text) (now : Int) : List Episode → List Episode
  | [] => []
  | e :: rest =>
    if e.task = task then { e with result, ts := now, strength := e.strength + 1 } :: rest
    else e :: reinforceFirst task result now rest

def reinforce (es : List Episode) (task result : Text) (now : Int) : List Episode :=
  (reinforceFirst task result now es.reverse).reverse

/-- `episodic_add_full` at a time, with `ts` and `strength` as it is given them. -/
def episodicAddFull (es : List Episode) (task result : Text) (ts : Int) (strength : ℚ) (clock : Int) : List Episode :=
  let now := if 0 < ts then ts else clock
  if es.any fun e => e.task = task then reinforce es task result now
  else
    let kept := if episodesCap ≤ es.length then es.drop 1 else es
    kept ++ [{ task, result, ts := now, strength := if 0 < strength then strength else 1 }]

def halve (floor : ℚ) : Nat → ℚ → ℚ
  | 0, strength => strength
  | n + 1, strength => if floor < strength then halve floor n (strength / 2) else strength

def decayMaxHalvings : Nat :=
  30

def Episode.decayed (e : Episode) (now halfLife : Int) (floor : ℚ) : Episode :=
  let age := now - e.ts
  if age < halfLife then e
  else
    let strength := halve floor (min (age / halfLife).toNat decayMaxHalvings) e.strength
    { e with strength := if strength < floor then floor else strength }

def episodicDecay (es : List Episode) (now halfLife : Int) (floor : ℚ) : List Episode :=
  if halfLife ≤ 0 then es else es.map fun e => e.decayed now halfLife (if floor ≤ 0 then 1 / 1000 else floor)

def episodicDropBelow (es : List Episode) (minStrength : ℚ) : List Episode :=
  if minStrength ≤ 0 then es else es.filter fun e => ¬ e.strength < minStrength

/-! ### The memory -/

structure State where
  episodes : List Episode
  vectors : Vectors
  /-- The sequence that the identifiers of the vectors count. -/
  seq : Nat
  /-- The lines of `archive.jsonl`. -/
  archive : List (List Episode)

def episodeVid (n : Nat) : Text :=
  ascii "e:" ++ decimal n

def State.mirror (m : State) (text : Text) : State :=
  { m with vectors := m.vectors.add (episodeVid m.seq) text, seq := m.seq + 1 }

/-- `memory_record_experience`. -/
def recordExperience (m : State) (task result : Text) (clock : Int) : State :=
  { m.mirror task with episodes := episodicAddFull m.episodes task result 0 0 clock }

/-- `memory_lifecycle_cfg`, with the time that is in force. -/
structure LifecycleCfg where
  now : Int
  halfLife : Int
  minStrength : ℚ
  archive : Bool

def aged (es : List Episode) (cfg : LifecycleCfg) : List Episode :=
  if 0 < cfg.halfLife then episodicDecay es cfg.now cfg.halfLife (1 / 1000) else es

/-- `memory_lifecycle_pass`. -/
def lifecyclePass (m : State) (cfg : LifecycleCfg) : State :=
  let es := aged m.episodes cfg
  if cfg.minStrength ≤ 0 then { m with episodes := es }
  else
    let below := es.filter fun e => e.strength < cfg.minStrength
    { m with
      episodes := episodicDropBelow es cfg.minStrength
      archive := if cfg.archive ∧ below ≠ [] then m.archive ++ [below] else m.archive }

/-- An item of `episodes.json`, `none` for a field that is missing or has another type. -/
structure SavedEpisode where
  task : Option Text
  result : Option Text
  ts : Option Int
  strength : Option ℚ

def loadEpisodes (clock : Int) (saved : List SavedEpisode) : List Episode :=
  saved.foldl (fun es it =>
    match it.task with
    | none => es
    | some task => episodicAddFull es task (it.result.getD []) (it.ts.getD 0) (it.strength.getD 0) clock) []

def rebuildIndex (m : State) : State :=
  m.episodes.foldl (fun m e => if e.task = [] then m else m.mirror e.task) { m with vectors := noVectors, seq := 0 }

/-- `memory_new` over a file, and over what the archive has. -/
def memoryNew (m : State) (saved : List SavedEpisode) (clock : Int) : State :=
  rebuildIndex { m with episodes := loadEpisodes clock saved }

inductive Label where
  | record (task result : Text) (clock : Int)
  | lifecycle (cfg : LifecycleCfg)
  | restart (saved : List SavedEpisode) (clock : Int)

def step (m : State) : Label → State
  | .record task result clock => recordExperience m task result clock
  | .lifecycle cfg => lifecyclePass m cfg
  | .restart saved clock => memoryNew m saved clock

def experience : Machine State Label :=
  .ofFun step

def fresh : State where
  episodes := []
  vectors := noVectors
  seq := 0
  archive := []

/-! ### The mirror -/

variable {m : State}

def State.texts (m : State) : List Text :=
  m.vectors.entries.map Prod.snd

def Exact (m : State) : Prop :=
  m.texts.Perm (rebuildIndex m).texts

def Numbered (m : State) : Prop :=
  ∀ entry ∈ m.vectors.entries, ∃ n < m.seq, entry.1 = episodeVid n

theorem episodeVid_inj {n k : Nat} (same : episodeVid n = episodeVid k) : n = k := by
  have digits : decimal n = decimal k := List.append_cancel_left same
  rw [← digitsValue_decimal n, digits, digitsValue_decimal]

theorem mirror_entries (numbered : Numbered m) (text : Text) :
    (m.mirror text).vectors.entries = m.vectors.entries ++ [(episodeVid m.seq, text)] := by
  refine upsert_of_absent _ _ fun taken => ?_
  obtain ⟨entry, member, same⟩ := List.mem_map.mp taken
  obtain ⟨n, small, vid⟩ := numbered entry member
  have := episodeVid_inj (vid.symm.trans same)
  omega

theorem Numbered.mirror (numbered : Numbered m) (text : Text) : Numbered (m.mirror text) := by
  intro entry member
  rw [mirror_entries numbered] at member
  rcases List.mem_append.mp member with before | new
  · obtain ⟨n, small, vid⟩ := numbered entry before
    exact ⟨n, Nat.lt_succ_of_lt small, vid⟩
  · rw [List.mem_singleton.mp new]
    exact ⟨m.seq, Nat.lt_succ_self _, rfl⟩

theorem texts_mirror (numbered : Numbered m) (text : Text) : (m.mirror text).texts = m.texts ++ [text] := by
  simp [State.texts, mirror_entries numbered]

def indexed (es : List Episode) : List Text :=
  (es.filter fun e => e.task ≠ []).map Episode.task

theorem foldl_mirror (numbered : Numbered m) (es : List Episode) :
    Numbered (es.foldl (fun m e => if e.task = [] then m else m.mirror e.task) m) ∧
      (es.foldl (fun m e => if e.task = [] then m else m.mirror e.task) m).episodes = m.episodes ∧
      (es.foldl (fun m e => if e.task = [] then m else m.mirror e.task) m).texts = m.texts ++ indexed es := by
  induction es generalizing m with
  | nil => exact ⟨numbered, rfl, by simp [indexed]⟩
  | cons e es ih =>
    by_cases empty : e.task = []
    · simpa [empty, indexed] using ih numbered
    · obtain ⟨later, episodes, texts⟩ := ih (numbered.mirror e.task)
      simp only [List.foldl_cons, empty, if_false]
      refine ⟨later, episodes, ?_⟩
      simp [indexed, empty, texts, texts_mirror numbered]

theorem rebuildIndex_spec (m : State) :
    Numbered (rebuildIndex m) ∧ (rebuildIndex m).episodes = m.episodes ∧ (rebuildIndex m).texts = indexed m.episodes := by
  have numbered : Numbered { m with vectors := noVectors, seq := 0 } := by
    intro entry member
    cases member
  simpa [rebuildIndex, State.texts, noVectors] using foldl_mirror numbered m.episodes

theorem exact_iff : Exact m ↔ m.texts.Perm (indexed m.episodes) := by
  rw [Exact, (rebuildIndex_spec m).2.2]

/-! ### What the operations make of the tasks -/

variable {es : List Episode}

@[simp] theorem indexed_append (es es' : List Episode) : indexed (es ++ es') = indexed es ++ indexed es' := by
  simp [indexed]

theorem indexed_cons (e : Episode) (es : List Episode) : indexed (e :: es) = indexed [e] ++ indexed es :=
  indexed_append [e] es

theorem indexed_single (e : Episode) : indexed [e] = if e.task = [] then [] else [e.task] := by
  by_cases empty : e.task = [] <;> simp [indexed, empty]

theorem indexed_of_tasks {es' : List Episode} (same : es.map Episode.task = es'.map Episode.task) :
    indexed es = indexed es' := by
  have of_tasks (es : List Episode) : indexed es = (es.map Episode.task).filter (· ≠ []) := by
    rw [List.filter_map]
    rfl
  rw [of_tasks, of_tasks, same]

theorem reinforceFirst_tasks (task result : Text) (now : Int) (es : List Episode) :
    (reinforceFirst task result now es).map Episode.task = es.map Episode.task := by
  induction es with
  | nil => rfl
  | cons e es ih =>
    unfold reinforceFirst
    split
    · rfl
    · rw [List.map_cons, List.map_cons, ih]

theorem reinforce_tasks (es : List Episode) (task result : Text) (now : Int) :
    (reinforce es task result now).map Episode.task = es.map Episode.task := by
  simp [reinforce, List.map_reverse, reinforceFirst_tasks]

theorem aged_tasks (es : List Episode) (cfg : LifecycleCfg) : (aged es cfg).map Episode.task = es.map Episode.task := by
  have kept (e : Episode) (now halfLife : Int) (floor : ℚ) : (e.decayed now halfLife floor).task = e.task := by
    unfold Episode.decayed
    dsimp only
    split <;> rfl
  unfold aged episodicDecay
  split
  · split
    · rfl
    · simp [Function.comp_def, kept]
  · rfl

theorem indexed_add (es : List Episode) (task result : Text) (clock : Int) :
    indexed (episodicAddFull es task result 0 0 clock) =
      if es.any fun e => e.task = task then indexed es
      else indexed (if episodesCap ≤ es.length then es.drop 1 else es) ++ if task = [] then [] else [task] := by
  by_cases stored : es.any fun e => e.task = task
  · simp only [episodicAddFull, stored, if_true]
    exact indexed_of_tasks (reinforce_tasks ..)
  · simp only [episodicAddFull, stored, Bool.false_eq_true, if_false, indexed_append, indexed_single]

/-! ### Steps -/

/-- The steps that keep the mirror exact: a new task that is not empty, with room or an empty task to
evict, a pass that drops no episode with a vector, and every restart. -/
def Kept (m : State) : Label → Prop
  | .record task _ _ =>
    task ≠ [] ∧ (∀ e ∈ m.episodes, e.task ≠ task) ∧
      (m.episodes.length < episodesCap ∨ ∀ e ∈ m.episodes.head?, e.task = [])
  | .lifecycle cfg => 0 < cfg.minStrength → ∀ e ∈ aged m.episodes cfg, e.strength < cfg.minStrength → e.task = []
  | .restart _ _ => True

theorem perm_record_iff {texts : List Text} (exact : texts.Perm (indexed es)) (task result : Text) (clock : Int) :
    (texts ++ [task]).Perm (indexed (episodicAddFull es task result 0 0 clock)) ↔
      task ≠ [] ∧ (∀ e ∈ es, e.task ≠ task) ∧ (es.length < episodesCap ∨ ∀ e ∈ es.head?, e.task = []) := by
  rw [indexed_add]
  have length := exact.length_eq
  by_cases stored : es.any fun e => e.task = task
  · -- the episode is reinforced, and has a second vector
    rw [if_pos stored]
    obtain ⟨e, member, same⟩ := List.any_eq_true.mp stored
    refine iff_of_false (fun more => ?_) fun kept => kept.2.1 e member (of_decide_eq_true same)
    have := more.length_eq
    simp only [List.length_append, List.length_singleton] at this
    omega
  · have new : ∀ e ∈ es, e.task ≠ task := by simpa using stored
    rw [if_neg stored]
    by_cases full : episodesCap ≤ es.length
    · obtain ⟨oldest, rest, rfl⟩ : ∃ oldest rest, es = oldest :: rest := by
        refine List.exists_cons_of_length_pos (Nat.lt_of_lt_of_le ?_ full)
        decide
      rw [if_pos full, List.drop_one, List.tail_cons]
      rw [indexed_cons, indexed_single] at exact length
      by_cases empty : task = []
      · refine iff_of_false (fun more => ?_) fun kept => kept.1 empty
        have := more.length_eq
        simp only [empty, if_true, List.append_nil, List.length_append, List.length_singleton] at this length
        omega
      · by_cases none' : oldest.task = []
        · refine iff_of_true ?_ ⟨empty, new, .inr (by simpa using none')⟩
          rw [if_neg empty]
          rw [if_pos none', List.nil_append] at exact
          exact exact.append_right _
        · refine iff_of_false (fun more => ?_) fun kept => ?_
          · have := more.length_eq
            simp only [empty, none', if_false, List.length_append, List.length_singleton] at this length
            omega
          · rcases kept.2.2 with room | evicted
            · exact absurd full (Nat.not_le.mpr room)
            · exact none' (evicted oldest rfl)
    · rw [if_neg full]
      by_cases empty : task = []
      · refine iff_of_false (fun more => ?_) fun kept => kept.1 empty
        have := more.length_eq
        simp only [empty, if_true, List.append_nil, List.length_append, List.length_singleton] at this
        omega
      · rw [if_neg empty]
        exact iff_of_true (exact.append_right _) ⟨empty, new, .inl (Nat.not_le.mp full)⟩

theorem perm_drop_iff {texts : List Text} (exact : texts.Perm (indexed es)) (minStrength : ℚ) :
    texts.Perm (indexed (episodicDropBelow es minStrength)) ↔
      (0 < minStrength → ∀ e ∈ es, e.strength < minStrength → e.task = []) := by
  unfold episodicDropBelow
  split
  · rename_i off
    exact iff_of_true exact fun on => absurd on (not_lt.mpr off)
  · rename_i on
    have shown : indexed (es.filter fun e => ¬ e.strength < minStrength) =
        ((es.filter fun e => e.task ≠ []).filter fun e => ¬ e.strength < minStrength).map Episode.task := by
      rw [indexed, List.filter_comm]
    rw [shown]
    constructor
    · intro same _ e member weak
      have lengths := exact.length_eq.symm.trans same.length_eq
      rw [indexed, List.length_map, List.length_map, eq_comm, List.length_filter_eq_length_iff] at lengths
      by_contra task
      have strong := lengths e (List.mem_filter.mpr ⟨member, by simpa using task⟩)
      simp [weak] at strong
    · intro empty
      have all : ∀ e ∈ es.filter fun e => e.task ≠ [], decide (¬ e.strength < minStrength) = true := by
        intro e member
        obtain ⟨there, task⟩ := List.mem_filter.mp member
        rw [decide_eq_true_eq] at task ⊢
        exact fun weak => task (empty (not_le.mp on) e there weak)
      rw [List.filter_eq_self.mpr all]
      exact exact

theorem Numbered.step {m : State} (numbered : Numbered m) (label : Label) : Numbered (step m label) := by
  cases label with
  | record task result clock => exact numbered.mirror task
  | lifecycle cfg =>
    simp only [Episodes.step, lifecyclePass]
    split <;> exact numbered
  | restart saved clock => exact (rebuildIndex_spec _).1

theorem exact_step_iff (numbered : Numbered m) (exact : Exact m) (label : Label) :
    Exact (step m label) ↔ Kept m label := by
  rw [exact_iff] at exact ⊢
  cases label with
  | record task result clock =>
    have texts : (step m (.record task result clock)).texts = m.texts ++ [task] := texts_mirror numbered task
    rw [texts]
    exact perm_record_iff exact task result clock
  | lifecycle cfg =>
    rw [← indexed_of_tasks (aged_tasks m.episodes cfg)] at exact
    have drops := perm_drop_iff exact cfg.minStrength
    simp only [step, lifecyclePass]
    split
    · rename_i off
      rw [episodicDropBelow, if_pos off] at drops
      exact drops
    · exact drops
  | restart saved clock =>
    obtain ⟨-, episodes, texts⟩ := rebuildIndex_spec { m with episodes := loadEpisodes clock saved }
    refine iff_of_true ?_ trivial
    simp only [step, memoryNew, texts, episodes]
    exact List.Perm.refl _

/-- In a run of such steps the mirror is exact, and a further step keeps it exact when it is one of
them and only then. -/
theorem exact_of_run {labels : List Label} {m : State} (run : (experience.restrict Kept).Run fresh labels m) :
    Exact m ∧ ∀ label, Exact (step m label) ↔ Kept m label := by
  have kept : Numbered m ∧ Exact m := by
    refine @Machine.Run.invariant _ _ _ (fun m => Numbered m ∧ Exact m) ?_ _ _ _ run ⟨?_, List.Perm.refl _⟩
    · rintro m label _ ⟨numbered, exact⟩ ⟨kept, rfl⟩
      exact ⟨numbered.step label, (exact_step_iff numbered exact label).mpr kept⟩
    · intro entry member
      cases member
  exact ⟨kept.2, exact_step_iff kept.1 kept.2⟩

/-- A task that is done again has two vectors. -/
theorem exact_of_run_again : ∃ labels m, experience.Run fresh labels m ∧ ¬ Exact m := by
  refine ⟨[.record (ascii "build") [] 1, .record (ascii "build") [] 2], _, Machine.run_ofFun_iff.mpr rfl, ?_⟩
  unfold Exact
  decide

/-- Two tasks, and a start over the file with both. -/
theorem exact_of_run_restart :
    ∃ m : State, (experience.restrict Kept).Run fresh
        [.record (ascii "build") [] 1, .record (ascii "test") [] 2,
          .restart [⟨some (ascii "build"), none, none, none⟩, ⟨some (ascii "test"), none, none, none⟩] 3] m ∧ Exact m := by
  have run : (experience.restrict Kept).Run fresh
      [.record (ascii "build") [] 1, .record (ascii "test") [] 2,
        .restart [⟨some (ascii "build"), none, none, none⟩, ⟨some (ascii "test"), none, none, none⟩] 3] _ :=
    Machine.Run.cons ⟨⟨by decide, by decide, .inl (by decide)⟩, rfl⟩
      (Machine.Run.cons ⟨⟨by decide, by decide, .inl (by decide)⟩, rfl⟩
        (Machine.Run.single ⟨trivial, rfl⟩))
  exact ⟨_, run, (exact_of_run run).1⟩

end CognitiveOs.Memory.Episodes
