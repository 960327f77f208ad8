import CognitiveOs.Context.Mmu.Budget

/-!
# What a recall emits

The scopes and the texts of the emitted pages, after any history of recalls and pins.
-/

namespace CognitiveOs.Context

open Foundation Foundation.Upsert Infra Memory.Gate Memory.Records

/-! ### What promotion and eviction leave -/

variable {pg : Page} {r : MemRecord}

def Page.face (pg : Page) : Page :=
  { pg with residency := .cold, lastAccessMs := 0, accessCount := 0, repr := fun _ => none, tok := fun _ => 0 }

theorem Mirrors.of_face {f : Floats} {pg' : Page} (mirrors : Mirrors f pg r) (same : pg'.face = pg.face) :
    Mirrors f pg' r where
  key := (congrArg Page.key same).trans mirrors.key
  hash := (congrArg Page.contentHash same).trans mirrors.hash
  type := (congrArg Page.type same).trans mirrors.type
  title := (congrArg Page.title same).trans mirrors.title
  scope := (congrArg Page.scope same).trans mirrors.scope
  status := (congrArg Page.status same).trans mirrors.status
  importance := (congrArg Page.importance same).trans mirrors.importance
  confidence := (congrArg Page.confidence same).trans mirrors.confidence
  utility := (congrArg Page.utility same).trans mirrors.utility

theorem materialize_face (pg : Page) (r : MemRecord) (level : Level) : (materialize pg r level).1.face = pg.face := by
  unfold materialize
  split
  · rfl
  · rfl

def levelText (level : Level) (r : MemRecord) : Text :=
  derive level (attributed r (newPage r.id.text)) r

theorem Mirrors.derive_eq {f : Floats} (mirrors : Mirrors f pg r) (level : Level) :
    derive level pg r = levelText level r := by
  have fresh : Mirrors f (attributed r (revised f r (newPage r.id.text))) r :=
    attributed_mirrors f (congrArg Field.text (Field.copy_text r.id))
  cases level with
  | l0 =>
    change deriveL0 pg r = deriveL0 (attributed r (newPage r.id.text)) r
    unfold deriveL0
    rw [mirrors.title, show (attributed r (newPage r.id.text)).title = r.title from Field.copy_text r.title]
  | l1 =>
    change deriveL1 pg r = deriveL1 (attributed r (newPage r.id.text)) r
    unfold deriveL1
    rw [mirrors.title, mirrors.type, mirrors.scope, mirrors.status, mirrors.importance, mirrors.confidence,
      mirrors.utility, show (attributed r (newPage r.id.text)).title = r.title from Field.copy_text r.title,
      show (attributed r (newPage r.id.text)).scope = r.scope from Field.copy_text r.scope]
    rfl
  | l2 => rfl

/-! ### A store whose records are touched -/

variable {r' : MemRecord}

def untouched (r : MemRecord) : MemRecord :=
  { r with accessCount := 0, lastAccessMs := 0 }

def Alike (s s' : Records) : Prop :=
  ∀ id, (s'.find id).map untouched = (s.find id).map untouched

theorem touch_alike (s : Records) (id : Text) (now : Int64) : Alike s (s.touch id now) := by
  intro id'
  unfold Records.touch
  split
  · rfl
  · rename_i r found
    have key : r.id.text = id := (Records.find_spec found).2
    unfold Records.find at found ⊢
    rw [lookup_upsert]
    by_cases same : id' = id
    · rw [if_pos (same.trans key.symm), same, found]
      rfl
    · rw [if_neg fun again => same (again.trans key)]

theorem of_untouched {α : Type} {g : MemRecord → α} (bare : ∀ r, g (untouched r) = g r) {r r' : MemRecord}
    (same : untouched r' = untouched r) : g r = g r' := by
  rw [← bare r, ← bare r', same]

theorem Mirrors.touched {f : Floats} (mirrors : Mirrors f pg r) (same : untouched r' = untouched r) :
    Mirrors f pg r' where
  key := mirrors.key.trans (@of_untouched _ (fun r => r.id.text) (fun _ => rfl) _ _ same)
  hash := mirrors.hash.trans (@of_untouched _ (representationHash f) (fun _ => rfl) _ _ same)
  type := mirrors.type.trans (@of_untouched _ MemRecord.type (fun _ => rfl) _ _ same)
  title := mirrors.title.trans (@of_untouched _ MemRecord.title (fun _ => rfl) _ _ same)
  scope := mirrors.scope.trans (@of_untouched _ MemRecord.scope (fun _ => rfl) _ _ same)
  status := mirrors.status.trans (@of_untouched _ MemRecord.status (fun _ => rfl) _ _ same)
  importance := mirrors.importance.trans (@of_untouched _ (fun r => clamp01 r.importance) (fun _ => rfl) _ _ same)
  confidence := mirrors.confidence.trans (@of_untouched _ (fun r => clamp01 r.confidence) (fun _ => rfl) _ _ same)
  utility := mirrors.utility.trans (@of_untouched _ (fun r => clamp01 r.utility) (fun _ => rfl) _ _ same)

theorem levelText_touched (same : untouched r' = untouched r) (level : Level) :
    levelText level r' = levelText level r :=
  (of_untouched (fun _ => by cases level <;> rfl) same).symm

theorem Alike.find {s s' : Records} (alike : Alike s s') {id : Text} (found : s'.find id = some r') :
    ∃ r, s.find id = some r ∧ untouched r' = untouched r := by
  have same := alike id
  rw [found, Option.map_some] at same
  obtain ⟨r, before, equal⟩ := Option.map_eq_some_iff.mp same.symm
  exact ⟨r, before, equal.symm⟩

/-! ### Stages -/

def Page.Fresh (f : Floats) (known : MemRecord → Prop) (pg : Page) : Prop :=
  ∀ level text, pg.repr level = some text →
    ∃ r, known r ∧ representationHash f r = pg.contentHash ∧ text = levelText level r

section Stages

variable {f : Floats} {known : MemRecord → Prop}

variable {pg : Page}

theorem fresh_of_none (none : ∀ level, pg.repr level = none) : pg.Fresh f known := by
  intro level text some
  rw [none level] at some
  cases some

theorem release_fresh (fresh : pg.Fresh f known) (level : Level) : (pg.release level).Fresh f known := by
  intro other text some
  by_cases same : other = level
  · subst same
    rw [(release_self pg other).1] at some
    cases some
  · rw [(release_other pg same).1] at some
    exact fresh other text some

variable {r' : MemRecord}

theorem materialize_fresh (fresh : pg.Fresh f known) {r : MemRecord} (here : known r)
    (same : untouched r' = untouched r) (mirrors : Mirrors f pg r') (level : Level) :
    (materialize pg r' level).1.Fresh f known := by
  intro other text some
  unfold materialize at some ⊢
  split at some
  · exact fresh other text some
  · by_cases this : other = level
    · subst this
      have made : Option.some (derive other pg r') = Option.some text := by
        simpa using some
      cases made
      refine ⟨r, here, (congrArg (representationHash f) same).symm.trans mirrors.hash.symm, ?_⟩
      exact (mirrors.derive_eq other).trans (levelText_touched same other)
    · refine fresh other text ?_
      simpa [this] using some

structure Kept (f : Floats) (known : MemRecord → Prop) (faces : List Page) (m : Mmu) : Prop where
  faces : m.pages.map Page.face = faces
  fresh : ∀ pg ∈ m.pages, pg.Fresh f known

variable {faces : List Page} {m : Mmu}

variable {i : Nat}

theorem Kept.set (kept : Kept f known faces m) {pg' : Page} (here : m.pages[i]? = some pg) (same : pg'.face = pg.face)
    (fresh : pg'.Fresh f known) (used : UInt64) :
    Kept f known faces { m with pages := m.pages.set i pg', tokenUsed := used } where
  faces := (keys_set here same).trans kept.faces
  fresh := by
    intro page member
    rcases List.mem_or_eq_of_mem_set member with member | rfl
    · exact kept.fresh page member
    · exact fresh

theorem evictRounds_kept {rounds : Nat} (kept : Kept f known faces m) : Kept f known faces (evictRounds rounds m) := by
  induction rounds generalizing m with
  | zero => exact kept
  | succ rounds ih =>
    unfold evictRounds
    split
    · exact kept
    · split
      · exact kept
      · rename_i i pg found
        rcases worstFrom_some found with none | ⟨k, rfl, here, _⟩
        · cases none
        · rw [Nat.zero_add]
          refine ih (kept.set here ?_ ?_ _)
          · rfl
          · exact fresh_of_none fun _ => rfl

/-- What is found under the identifier of a page is a known record, but for its accesses, that the
page mirrors. -/
def Backed (f : Floats) (known : MemRecord → Prop) (faces : List Page) (s : Records) : Prop :=
  ∀ face ∈ faces, ∀ r', s.find face.key = some r' → Mirrors f face r' ∧ ∃ r, known r ∧ untouched r' = untouched r

variable {s : Records}

theorem Backed.alike {s' : Records} (backed : Backed f known faces s) (alike : Alike s s') :
    Backed f known faces s' := by
  intro face member r'' found
  obtain ⟨r', before, same⟩ := alike.find found
  obtain ⟨mirrors, r, record, same'⟩ := backed face member r' before
  exact ⟨mirrors.touched same, r, record, same.trans same'⟩

theorem Kept.backed (kept : Kept f known faces m) (backed : Backed f known faces s) (here : m.pages[i]? = some pg)
    (found : s.find pg.recordId.text = some r') : Mirrors f pg r' ∧ ∃ r, known r ∧ untouched r' = untouched r := by
  have member : pg.face ∈ faces := by
    rw [← kept.faces]
    exact List.mem_map_of_mem (List.mem_of_getElem? here)
  obtain ⟨mirrors, record⟩ := backed pg.face member r' found
  exact ⟨mirrors.of_face rfl, record⟩

theorem warm_kept (kept : Kept f known faces m) (here : m.pages[i]? = some pg) (mirrors : Mirrors f pg r')
    (record : ∃ r, known r ∧ untouched r' = untouched r) : Kept f known faces (warm m i pg r') := by
  obtain ⟨r, record, touched⟩ := record
  have fresh := materialize_fresh (kept.fresh pg (List.mem_of_getElem? here)) record touched mirrors .l1
  have same := materialize_face pg r' .l1
  unfold warm
  dsimp only
  split
  · refine kept.set here ?_ ?_ _
    · exact same
    · exact release_fresh fresh .l1
  · refine kept.set here ?_ ?_ _
    · exact same
    · exact fresh

theorem promoteWarm_kept (backed : Backed f known faces s) {order : List (Nat × ℚ)} (kept : Kept f known faces m) :
    Kept f known faces (promoteWarm s order m) := by
  induction order generalizing m with
  | nil => exact kept
  | cons entry order ih =>
    obtain ⟨i, score⟩ := entry
    unfold promoteWarm
    split
    · exact ih kept
    · rename_i pg here
      split
      · exact ih kept
      · split
        · exact kept
        · split
          · exact ih kept
          · rename_i r found
            obtain ⟨mirrors, record⟩ := kept.backed backed here found
            exact ih (warm_kept kept here mirrors record)

theorem heat_kept (kept : Kept f known faces m) {now : Int64} {s : Records} {i : Nat} {pg : Page}
    (here : m.pages[i]? = some pg) {r' : MemRecord} (mirrors : Mirrors f pg r')
    (record : ∃ r, known r ∧ untouched r' = untouched r) :
    Kept f known faces (heat now m s i pg r').1 ∧ Alike s (heat now m s i pg r').2.1 := by
  obtain ⟨r, record, touched⟩ := record
  have before := kept.fresh pg (List.mem_of_getElem? here)
  have fresh := materialize_fresh before record touched mirrors .l2
  have same := materialize_face pg r' .l2
  unfold heat
  dsimp only
  split
  · refine ⟨kept.set here ?_ ?_ _, fun _ => rfl⟩
    · rfl
    · exact release_fresh before .l2
  · split
    · exact ⟨kept.set here same fresh _, fun _ => rfl⟩
    · refine ⟨kept.set here ?_ ?_ _, touch_alike s _ now⟩
      · exact same
      · exact fresh

theorem promoteHot_kept {now : Int64} {order : List (Nat × ℚ)} {left : Nat} {s : Records}
    (backed : Backed f known faces s) (kept : Kept f known faces m) :
    Kept f known faces (promoteHot now order left m s).1 ∧ Alike s (promoteHot now order left m s).2 := by
  induction order generalizing left m s with
  | nil => exact ⟨kept, fun _ => rfl⟩
  | cons entry order ih =>
    obtain ⟨i, score⟩ := entry
    unfold promoteHot
    split
    · exact ⟨kept, fun _ => rfl⟩
    · split
      · exact ih backed kept
      · rename_i pg here
        split
        · exact ih backed kept
        · split
          · exact ih backed kept
          · rename_i r found
            obtain ⟨mirrors, record⟩ := kept.backed backed here found
            obtain ⟨heated, alike⟩ := @heat_kept f known faces m kept now s i pg here r mirrors record
            obtain ⟨kept, alike'⟩ := ih (backed.alike alike) heated
            exact ⟨kept, fun id => (alike' id).trans (alike id)⟩

/-! ### The pages as they are ranked -/

variable {st : State}

theorem syncRecord_fresh (fresh : ∀ pg ∈ m.pages, pg.Fresh f known) (r : MemRecord) :
    ∀ pg ∈ (syncRecord f m r).pages, pg.Fresh f known := by
  have got : ∀ pg ∈ (pageGet m.pages r.id.text).1, pg.Fresh f known := by
    unfold pageGet
    split
    · exact fresh
    · intro pg member
      rcases List.mem_append.mp member with member | member
      · exact fresh pg member
      · rw [List.mem_singleton.mp member]
        exact fresh_of_none fun _ => rfl
  unfold syncRecord
  split
  · exact fresh
  · dsimp only
    split
    · exact fresh
    · rename_i pg here
      intro page member
      rcases List.mem_or_eq_of_mem_set member with member | rfl
      · exact got page member
      · unfold revised
        split
        · exact fresh_of_none fun _ => rfl
        · exact got pg (List.mem_of_getElem? here)

theorem syncPages_fresh (fresh : ∀ pg ∈ m.pages, pg.Fresh f known) (s : Records) :
    ∀ pg ∈ (syncPages f m s).pages, pg.Fresh f known := by
  have synced : ∀ pg ∈ (s.items.foldl (syncRecord f) m).pages, pg.Fresh f known := by
    induction s.items generalizing m with
    | nil => exact fresh
    | cons r items ih => exact ih (syncRecord_fresh fresh r)
  intro pg member
  unfold syncPages at member
  simp only [dropPages_fst] at member
  exact synced pg (List.mem_filter.mp member).1

theorem prepared_spec (call : Call) (distinct : Distinct st.mmu.pages) (fresh : ∀ pg ∈ st.mmu.pages, pg.Fresh f known) :
    Distinct (prepared f call st).pages ∧
      ∀ pg ∈ (prepared f call st).pages, Stands f st.store pg ∧ pg.Fresh f known := by
  have budgeted : (if 0 < call.config.tokenBudget then { st.mmu with tokenBudget := call.config.tokenBudget }
      else st.mmu).pages = st.mmu.pages := by
    split
    · rfl
    · rfl
  rw [← budgeted] at distinct fresh
  obtain ⟨distinct', stands⟩ := syncPages_stands f distinct st.store
  have fresh' := syncPages_fresh fresh st.store
  unfold prepared
  dsimp only
  split
  · exact ⟨distinct', fun pg member => ⟨stands pg member, fresh' pg member⟩⟩
  · refine ⟨?_, ?_⟩
    · unfold Distinct
      rw [List.map_map]
      exact distinct'
    · intro pg member
      obtain ⟨old, inside, rfl⟩ := List.mem_map.mp member
      obtain ⟨r, found, live, mirrors⟩ := stands old inside
      unfold relevant
      exact ⟨⟨r, found, live, { mirrors with }⟩, fresh' old inside⟩

theorem backed_of_stands (stands : ∀ pg ∈ m.pages, Stands f s pg) (records : ∀ r ∈ s.items, known r) :
    Backed f known (m.pages.map Page.face) s := by
  intro face member r found
  obtain ⟨pg, inside, rfl⟩ := List.mem_map.mp member
  obtain ⟨r', found', _, mirrors⟩ := stands pg inside
  obtain rfl : r = r' := Option.some.inj (found.symm.trans found')
  exact ⟨mirrors.of_face rfl, r, records r (Records.find_spec found).1, rfl⟩

/-! ### The order -/

theorem mem_place {sorted : List (Nat × ℚ)} {entry e : Nat × ℚ} (member : e ∈ place sorted entry) :
    e = entry ∨ e ∈ sorted := by
  unfold place at member
  rcases List.mem_append.mp member with member | member
  · exact .inr ((List.rdropWhile_prefix _ _).subset member)
  · rcases List.mem_cons.mp member with rfl | member
    · exact .inl rfl
    · exact .inr ((List.rtakeWhile_suffix _ _).subset member)

theorem mem_order {cfg : Config} {now : Int64} {pages : List Page} {score : ℚ}
    (member : (i, score) ∈ order f cfg now pages) : ∃ pg, pages[i]? = some pg ∧ scopeAllowed cfg pg.scope.text := by
  have ranked : (i, score) ∈ rank f cfg now pages := by
    have sorted (entries done : List (Nat × ℚ)) : ∀ e ∈ entries.foldl place done, e ∈ entries ∨ e ∈ done := by
      induction entries generalizing done with
      | nil => exact fun e member => .inr member
      | cons entry entries ih =>
        intro e member
        rcases ih (place done entry) e member with later | early
        · exact .inl (List.mem_cons_of_mem _ later)
        · rcases mem_place early with rfl | early
          · exact .inl (List.mem_cons_self ..)
          · exact .inr early
    rcases sorted _ _ _ member with ranked | none
    · exact ranked
    · cases none
  unfold rank at ranked
  obtain ⟨⟨pg, j⟩, inside, chosen⟩ := List.mem_filterMap.mp ranked
  dsimp only at chosen
  split at chosen
  · rename_i allowed
    cases chosen
    exact ⟨pg, List.mem_zipIdx_iff_getElem?.mp inside, allowed⟩
  · cases chosen

/-! ### Recalls -/

structure Table (f : Floats) (known : MemRecord → Prop) (m : Mmu) : Prop where
  distinct : Distinct m.pages
  fresh : ∀ pg ∈ m.pages, pg.Fresh f known

theorem recall_kept (call : Call) (table : Table f known st.mmu) (records : ∀ r ∈ st.store.items, known r) :
    Kept f known ((prepared f call st).pages.map Page.face) (mmuRecall f call st).1.mmu ∧
      Alike st.store (mmuRecall f call st).1.store := by
  obtain ⟨_, pages⟩ := prepared_spec call table.distinct table.fresh
  have backed := backed_of_stands (fun pg member => (pages pg member).1) records
  have kept : Kept f known ((prepared f call st).pages.map Page.face) (prepared f call st) :=
    ⟨rfl, fun pg member => (pages pg member).2⟩
  have warmed (order : List (Nat × ℚ)) : Kept f known ((prepared f call st).pages.map Page.face)
      (evictToBudget (promoteWarm st.store order (prepared f call st))) :=
    evictRounds_kept (promoteWarm_kept backed kept)
  have heated (order : List (Nat × ℚ)) :=
    @promoteHot_kept _ _ _ _ call.now order call.config.l2TopK.toInt.toNat _ backed (warmed order)
  unfold mmuRecall
  exact ⟨evictRounds_kept (heated _).1, (heated _).2⟩

theorem recall_table {call : Call} (table : Table f known st.mmu) (records : ∀ r ∈ st.store.items, known r) :
    Table f known (mmuRecall f call st).1.mmu := by
  obtain ⟨distinct, _⟩ := prepared_spec call table.distinct table.fresh
  obtain ⟨kept, _⟩ := recall_kept call table records
  refine ⟨?_, kept.fresh⟩
  have keys (pages : List Page) : pages.map Page.key = (pages.map Page.face).map Page.key := by
    rw [List.map_map]
    rfl
  unfold Distinct at distinct ⊢
  rw [keys, kept.faces, ← keys]
  exact distinct

/-- Where an emitted item comes from: a page of an allowed scope that mirrors the record under its
identifier, with a text at hand. -/
theorem emitted_spec {call : Call} (table : Table f known st.mmu) (records : ∀ r ∈ st.store.items, known r)
    {item : Item} (member : item ∈ (mmuRecall f call st).2) :
    ∃ pg r, st.store.find item.id = some r ∧ known r ∧ Mirrors f pg r ∧ item.scope = pg.scope.text ∧
      scopeAllowed call.config pg.scope.text ∧ pg.repr item.level = some item.text ∧ pg.Fresh f known ∧
      item.title = pg.title.text ∧ item.type = pg.type ∧ item.status = pg.status := by
  obtain ⟨_, pages⟩ := prepared_spec call table.distinct table.fresh
  obtain ⟨kept, alike⟩ := recall_kept call table records
  obtain ⟨⟨i, score⟩, ranked, emitted⟩ := List.mem_filterMap.mp member
  obtain ⟨pg, here, emitted⟩ := Option.bind_eq_some_iff.mp emitted
  obtain ⟨old, there, allowed⟩ := mem_order ranked
  have here : (mmuRecall f call st).1.mmu.pages[i]? = some pg := here
  have face : pg.face = old.face := by
    have faces := congrArg (·[i]?) kept.faces
    simp only [List.getElem?_map, here, there, Option.map_some] at faces
    exact Option.some.inj faces
  have scope : pg.scope = old.scope := show pg.face.scope = old.face.scope from congrArg Page.scope face
  have key : pg.key = old.key := show pg.face.key = old.face.key from congrArg Page.key face
  obtain ⟨r, found, _, mirrors⟩ := (pages old (List.mem_of_getElem? there)).1
  unfold emit at emitted
  split at emitted
  · cases emitted
  · dsimp only at emitted
    split at emitted
    · rename_i text found' atHand stored
      cases emitted
      refine ⟨pg, r, ?_, records r (Records.find_spec found).1, mirrors.of_face face, rfl, ?_, atHand, ?_, rfl, rfl, rfl⟩
      · rw [show pg.recordId.text = old.key from key]
        exact found
      · rw [scope]
        exact allowed
      · exact kept.fresh pg (List.mem_of_getElem? here)
    · cases emitted

end Stages

/-! ### Runs -/

variable {st : State}

def Knows (known : MemRecord → Prop) (st : State) : Label → Prop
  | .query _ => ∀ r ∈ st.store.items, known r
  | _ => True

theorem table_step {f : Floats} {known : MemRecord → Prop} (table : Table f known st.mmu) {label : Label}
    (knows : Knows known st label) : Table f known (step f st label).mmu := by
  cases label with
  | query call => exact recall_table table knows
  | pin id pinned =>
    change Table f known (pin st.mmu id pinned)
    unfold pin
    split
    · exact table
    · rename_i i found
      have within := (List.findIdx?_eq_some_iff_getElem.mp found).1
      have here : st.mmu.pages[i]? = some st.mmu.pages[i] := List.getElem?_eq_getElem within
      rw [List.modify_eq_set_getElem?, here]
      change Table f known { st.mmu with pages := st.mmu.pages.set i { st.mmu.pages[i] with pinned := pinned } }
      constructor
      · have keys : (st.mmu.pages.set i { st.mmu.pages[i] with pinned := pinned }).map Page.key =
            st.mmu.pages.map Page.key := keys_set here rfl
        exact (congrArg List.Nodup keys).mpr table.distinct
      · intro pg member
        rcases List.mem_or_eq_of_mem_set member with member | rfl
        · exact table.fresh pg member
        · have before := table.fresh st.mmu.pages[i] (List.getElem_mem within)
          exact before
  | configure cfg =>
    change Table f known (setConfig st.mmu cfg)
    unfold setConfig
    split
    · exact ⟨table.distinct, table.fresh⟩
    · exact table
  | edit store => exact table

theorem table_of_run {f : Floats} {known : MemRecord → Prop} {store : Records} {labels : List Label}
    (run : ((machine f).restrict (Knows known)).Run (start store) labels st) : Table f known st.mmu := by
  refine @Machine.Run.invariant _ _ _ (fun st => Table f known st.mmu) ?_ _ _ _ run ⟨?_, ?_⟩
  · rintro st label next table ⟨knows, rfl⟩
    exact table_step table knows
  · exact List.nodup_nil
  · intro pg member
    cases member

theorem table_of_any_run {f : Floats} {store : Records} {labels : List Label}
    (run : (machine f).Run (start store) labels st) : Table f (fun _ => True) st.mmu := by
  apply table_of_run
  refine run.mono ?_
  intro st label next taken
  refine ⟨?_, taken⟩
  cases label with
  | query call => exact fun _ _ => trivial
  | pin id pinned => exact trivial
  | configure cfg => exact trivial
  | edit store => exact trivial

/-- After any run a recall for a scope emits only pages of records of that scope or a shared one,
and of that scope alone where the shared ones are excluded. -/
theorem scope_of_run {f : Floats} {store : Records} {labels : List Label} {st : State}
    (run : (machine f).Run (start store) labels st) {call : Call} {scope : Text} (asked : call.config.scope = some scope)
    (named : scope ≠ []) :
    ∀ item ∈ (mmuRecall f call st).2, ∃ r, st.store.find item.id = some r ∧ item.scope = r.scope.text ∧
      (r.scope.text = scope ∨
        call.config.privateOnly = false ∧ (r.scope.text = ascii "global" ∨ r.scope.text = ascii "user/global")) := by
  intro item member
  obtain ⟨pg, r, found, _, mirrors, shown, allowed, _, _⟩ :=
    emitted_spec (table_of_any_run run) (fun _ _ => trivial) member
  refine ⟨r, found, ?_, ?_⟩
  · rw [shown, mirrors.scope]
  · unfold scopeAllowed at allowed
    rw [asked, mirrors.scope] at allowed
    dsimp only at allowed
    rw [if_neg named] at allowed
    split at allowed
    · cases allowed
    · split at allowed
      · exact .inl (of_decide_eq_true allowed)
      · rename_i shared
        rcases of_decide_eq_true allowed with same | shared'
        · exact .inl same
        · exact .inr ⟨Bool.eq_false_iff.mpr shared, shared'⟩

/-! ### Texts -/

structure Covered where
  content : Text
  title : Field 128
  scope : Field 256
  evidence : Field 160
  type : MemType
  status : Status
  importance : ℚ
  confidence : ℚ
  utility : ℚ

def covered (r : MemRecord) : Covered where
  content := r.content
  title := r.title
  scope := r.scope
  evidence := r.evidence
  type := r.type
  status := r.status
  importance := r.importance
  confidence := r.confidence
  utility := r.utility

def Covered.record (c : Covered) : MemRecord :=
  { blankRecord with
    content := c.content, title := c.title, scope := c.scope, evidence := c.evidence, type := c.type, status := c.status,
    importance := c.importance, confidence := c.confidence, utility := c.utility }

theorem levelText_covered (same : covered r = covered r') (level : Level) : levelText level r = levelText level r' := by
  have alone (r : MemRecord) : levelText level r = levelText level (covered r).record := by
    cases level <;> rfl
  rw [alone r, alone r', same]

def CollisionFree (f : Floats) (known : MemRecord → Prop) : Prop :=
  ∀ r r', known r → known r' → representationHash f r = representationHash f r' → covered r = covered r'

/-- After any run in which the revisions of the records do not collide, every emitted page has the
text that its level derives from the record now in the store. -/
theorem text_of_run {f : Floats} {known : MemRecord → Prop} (free : CollisionFree f known) {store : Records}
    {labels : List Label} {st : State} (run : ((machine f).restrict (Knows known)).Run (start store) labels st)
    {call : Call} (knows : Knows known st (.query call)) :
    ∀ item ∈ (mmuRecall f call st).2, ∃ r, st.store.find item.id = some r ∧ item.text = levelText item.level r := by
  intro item member
  obtain ⟨pg, r, found, record, mirrors, _, _, atHand, fresh, _⟩ := emitted_spec (table_of_run run) knows member
  obtain ⟨r', record', hash, text⟩ := fresh item.level item.text atHand
  refine ⟨r, found, text.trans (levelText_covered ?_ item.level)⟩
  exact free r' r record' record (hash.trans mirrors.hash)

/-! ### A lesson recalled twice -/

def recalled : State :=
  step plainFloats (start (oneLesson "s")) (.query (callFor "s"))

theorem scope_of_lesson :
    (mmuRecall plainFloats (callFor "s") recalled).2.length = 1 ∧
      ∀ item ∈ (mmuRecall plainFloats (callFor "s") recalled).2, ∃ r, recalled.store.find item.id = some r ∧
        item.scope = r.scope.text ∧ (r.scope.text = ascii "s" ∨ (callFor "s").config.privateOnly = false ∧
          (r.scope.text = ascii "global" ∨ r.scope.text = ascii "user/global")) :=
  ⟨by decide +kernel, scope_of_run (Machine.Run.single rfl) rfl (by decide)⟩

theorem text_of_lesson :
    (mmuRecall plainFloats (callFor "s") (start (oneLesson "s"))).2.length = 1 ∧
      ∀ item ∈ (mmuRecall plainFloats (callFor "s") (start (oneLesson "s"))).2, ∃ r,
        (start (oneLesson "s")).store.find item.id = some r ∧ item.text = levelText item.level r := by
  refine ⟨by decide +kernel,
    @text_of_run plainFloats (· ∈ (oneLesson "s").items) ?_ _ _ _ (Machine.Run.start _) _ fun _ member => member⟩
  intro r r' here here' _
  rw [List.mem_singleton.mp here, List.mem_singleton.mp here']

end CognitiveOs.Context
