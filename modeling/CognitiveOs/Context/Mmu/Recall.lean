import CognitiveOs.Context.Mmu.Model
import Mathlib.Data.List.DropRight

/-!
# A recall

`ctx_mmu_recall` of `context/mmu.c`, stage by stage, and the machine of recalls, pins and
configurations over a store that changes.
-/

namespace CognitiveOs.Context

open Foundation Infra Memory.Gate Memory.Records

/-! ### Relevance -/

/-- A hit of the vector search: its identifier and its score, if it has one. -/
structure Hit where
  id : Text
  score : Option ℚ

/-- `parse_vector_hits`, on the items of the answer that have an identifier. -/
def parseVectorHits (answer : List Hit) (max : Nat) : List (Text × ℚ) :=
  ((answer.filter fun h => (ascii "r:").isPrefixOf h.id).take max).map fun h =>
    (snprintf 64 (h.id.drop 2), h.score.getD 0)

def relevant (hits : List (Text × ℚ)) (pg : Page) : Page :=
  { pg with
    relevance := ((hits.find? fun h => h.1 = pg.recordId.text).map fun h => clamp01 h.2).getD 0 }

/-! ### Ranking -/

def rank (f : Floats) (cfg : Config) (now : Int64) (pages : List Page) : List (Nat × ℚ) :=
  pages.zipIdx.filterMap fun (pg, i) =>
    if scopeAllowed cfg pg.scope.text then some (i, factorScore cfg (factors f cfg now pg)) else none

def place (sorted : List (Nat × ℚ)) (entry : Nat × ℚ) : List (Nat × ℚ) :=
  sorted.rdropWhile (fun e => e.2 < entry.2) ++ entry :: sorted.rtakeWhile fun e => e.2 < entry.2

def order (f : Floats) (cfg : Config) (now : Int64) (pages : List Page) : List (Nat × ℚ) :=
  (rank f cfg now pages).foldl place []

/-! ### Promotion -/

def warm (m : Mmu) (i : Nat) (pg : Page) (r : MemRecord) : Mmu :=
  let (pg, tok) := materialize pg r .l1
  if m.tokenBudget < tok.toUInt64 ∨ m.tokenBudget - tok.toUInt64 < m.tokenUsed then
    { m with pages := m.pages.set i (pg.release .l1) }
  else
    { m with pages := m.pages.set i { pg with residency := .warm }, tokenUsed := m.tokenUsed + tok.toUInt64 }

def promoteWarm (s : Records) : List (Nat × ℚ) → Mmu → Mmu
  | [], m => m
  | (i, score) :: rest, m =>
    match m.pages[i]? with
    | none => promoteWarm s rest m
    | some pg =>
      if pg.residency ≠ .cold then promoteWarm s rest m
      else if score < 5 / 100 then m
      else
        match s.find pg.recordId.text with
        | none => promoteWarm s rest m
        | some r => promoteWarm s rest (warm m i pg r)

def heat (now : Int64) (m : Mmu) (s : Records) (i : Nat) (pg : Page) (r : MemRecord) : Mmu × Records × Bool :=
  let required := UInt64.ofNat ((r.content.length + 3) / 4)
  let withoutL1 := m.tokenUsed - (pg.tok .l1).toUInt64
  if m.tokenBudget < required ∨ m.tokenBudget - required < withoutL1 then
    ({ m with pages := m.pages.set i (pg.release .l2) }, s, false)
  else
    let (pg, tok) := materialize pg r .l2
    if m.tokenBudget < m.tokenUsed - (pg.tok .l1).toUInt64 + tok.toUInt64 then
      ({ m with pages := m.pages.set i pg }, s, false)
    else
      ({ m with
          pages := m.pages.set i { pg with residency := .hot, accessCount := pg.accessCount + 1, lastAccessMs := now }
          tokenUsed := m.tokenUsed + tok.toUInt64 - (pg.tok .l1).toUInt64 },
        s.touch pg.recordId.text now, true)

/-- Stage 3: `left` pages may still become hot. -/
def promoteHot (now : Int64) : List (Nat × ℚ) → Nat → Mmu → Records → Mmu × Records
  | [], _, m, s => (m, s)
  | (i, _) :: rest, left, m, s =>
    if left = 0 then (m, s)
    else
      match m.pages[i]? with
      | none => promoteHot now rest left m s
      | some pg =>
        if pg.residency ≠ .warm then promoteHot now rest left m s
        else
          match s.find pg.recordId.text with
          | none => promoteHot now rest left m s
          | some r =>
            let (m, s, hot) := heat now m s i pg r
            promoteHot now rest (if hot then left - 1 else left) m s

/-! ### Emission -/

structure Item where
  id : Text
  title : Text
  type : MemType
  scope : Text
  status : Status
  level : Level
  residency : Residency
  score : ℚ
  factors : Factors
  tokens : UInt32
  text : Text

def emit (f : Floats) (cfg : Config) (now : Int64) (s : Records) (score : ℚ) (pg : Page) : Option Item :=
  if pg.residency = .cold then none
  else
    let level := if pg.residency = .hot then Level.l2 else .l1
    match pg.repr level, s.find pg.recordId.text with
    | some text, some _ =>
      some
        { id := pg.recordId.text, title := pg.title.text, type := pg.type, scope := pg.scope.text, status := pg.status,
          level := level, residency := pg.residency, score := score, factors := factors f cfg now pg,
          tokens := pg.tok level, text := text }
    | _, _ => none

def emitAll (f : Floats) (cfg : Config) (now : Int64) (m : Mmu) (s : Records) (order : List (Nat × ℚ)) : List Item :=
  order.filterMap fun (i, score) => m.pages[i]?.bind (emit f cfg now s score)

/-! ### Recalls -/

/-- A call of `ctx_mmu_recall`: the answer of the vector search, if there was one, and the clock. -/
structure Call where
  cfg : Option Config
  answer : Option (List Hit)
  clock : Int64

structure State where
  mmu : Mmu
  store : Records

def Call.config (call : Call) : Config :=
  let cfg := call.cfg.getD Config.default
  { cfg with
    candidateK := if cfg.candidateK ≤ 0 then 16 else cfg.candidateK
    l2TopK := if cfg.l2TopK ≤ 0 then 3 else cfg.l2TopK }

def Call.now (call : Call) : Int64 :=
  if 0 < call.config.nowMs then call.config.nowMs else call.clock

def prepared (f : Floats) (call : Call) (st : State) : Mmu :=
  let m := if 0 < call.config.tokenBudget then { st.mmu with tokenBudget := call.config.tokenBudget } else st.mmu
  let m := syncPages f m st.store
  match call.answer with
  | none => m
  | some answer =>
    { m with pages := m.pages.map (relevant (parseVectorHits answer call.config.candidateK.toInt.toNat)) }

def mmuRecall (f : Floats) (call : Call) (st : State) : State × List Item :=
  let m := prepared f call st
  let ranked := order f call.config call.now m.pages
  let m := evictToBudget (promoteWarm st.store ranked m)
  let (m, store) := promoteHot call.now ranked call.config.l2TopK.toInt.toNat m st.store
  let m := evictToBudget m
  ({ mmu := m, store := store }, emitAll f call.config call.now m store ranked)

/-- What happens to a set of pages: the store may change in any way between the calls. -/
inductive Label where
  | query (call : Call)
  | pin (id : Text) (pinned : Bool)
  | configure (cfg : Config)
  | edit (store : Records)

def step (f : Floats) (st : State) : Label → State
  | .query call => (mmuRecall f call st).1
  | .pin id pinned => { st with mmu := pin st.mmu id pinned }
  | .configure cfg => { st with mmu := setConfig st.mmu cfg }
  | .edit store => { st with store := store }

def machine (f : Floats) : Machine State Label :=
  Machine.ofFun (step f)

def start (store : Records) : State :=
  { mmu := mmuNew, store := store }

end CognitiveOs.Context

/-!
## Pages and their records

After a synchronisation every page stands for the live record under its identifier; promotion and
eviction leave what a page says of its record.
-/

namespace CognitiveOs.Context

open Foundation Foundation.Upsert Infra Memory.Gate Memory.Records

theorem Records.find_spec {s : Records} {id : Text} {r : MemRecord} (found : s.find id = some r) :
    r ∈ s.items ∧ r.id.text = id := by
  refine ⟨List.mem_of_find?_eq_some found, ?_⟩
  simpa using List.find?_some found

def Page.key (pg : Page) : Text :=
  pg.recordId.text

def Distinct (pages : List Page) : Prop :=
  (pages.map Page.key).Nodup

structure Mirrors (f : Floats) (pg : Page) (r : MemRecord) : Prop where
  key : pg.key = r.id.text
  hash : pg.contentHash = representationHash f r
  type : pg.type = r.type
  title : pg.title = r.title
  scope : pg.scope = r.scope
  status : pg.status = r.status
  importance : pg.importance = clamp01 r.importance
  confidence : pg.confidence = clamp01 r.confidence
  utility : pg.utility = clamp01 r.utility

/-! ### The first pass -/

theorem revised_same (f : Floats) (r : MemRecord) (pg : Page) :
    (revised f r pg).key = pg.key ∧ (revised f r pg).contentHash = representationHash f r := by
  unfold revised
  split
  · exact ⟨rfl, rfl⟩
  · rename_i same
    exact ⟨rfl, not_not.mp same⟩

theorem attributed_mirrors (f : Floats) {r : MemRecord} {pg : Page} (key : pg.key = r.id.text) :
    Mirrors f (attributed r (revised f r pg)) r where
  key := (revised_same f r pg).1.trans key
  hash := (revised_same f r pg).2
  type := rfl
  title := Field.copy_text r.title
  scope := Field.copy_text r.scope
  status := rfl
  importance := rfl
  confidence := rfl
  utility := rfl

theorem pageGet_spec {pages : List Page} (distinct : Distinct pages) (id : Field 40) :
    Distinct (pageGet pages id.text).1 ∧
      (∃ pg, (pageGet pages id.text).1[(pageGet pages id.text).2]? = some pg ∧ pg.key = id.text ∧
        (pg ∈ pages ∨ pg = newPage id.text)) ∧
      ∀ pg ∈ (pageGet pages id.text).1, pg.key ≠ id.text → pg ∈ pages := by
  have key : (newPage id.text).key = id.text := congrArg Field.text (Field.copy_text id)
  unfold pageGet
  split
  · rename_i i found
    obtain ⟨within, same, _⟩ := List.findIdx?_eq_some_iff_getElem.mp found
    refine ⟨distinct, ⟨pages[i], List.getElem?_eq_getElem within, of_decide_eq_true same, ?_⟩, fun pg member _ => member⟩
    exact .inl (List.getElem_mem within)
  · rename_i absent
    have other := List.findIdx?_eq_none_iff.mp absent
    refine ⟨?_, ⟨newPage id.text, ?_, key, .inr rfl⟩, ?_⟩
    · unfold Distinct
      rw [List.map_append, List.map_singleton, key]
      refine List.nodup_append.mpr ⟨distinct, List.nodup_singleton _, ?_⟩
      intro k member k' member' same
      obtain ⟨pg, inside, rfl⟩ := List.mem_map.mp member
      rw [List.mem_singleton] at member'
      exact of_decide_eq_false (other pg inside) (same.trans member')
    · rw [List.getElem?_append_right (Nat.le_refl _), Nat.sub_self]
      rfl
    · intro pg member away
      rcases List.mem_append.mp member with member | member
      · exact member
      · rw [List.mem_singleton.mp member] at away
        exact absurd key away

/-- One record of the first pass: its page mirrors it and no other page changes. -/
structure Synced (f : Floats) (r : MemRecord) (m m' : Mmu) : Prop where
  distinct : Distinct m'.pages
  mirrors : statusLive r.status → ∀ pg ∈ m'.pages, pg.key = r.id.text → Mirrors f pg r
  others : ∀ pg ∈ m'.pages, pg.key ≠ r.id.text → pg ∈ m.pages

theorem syncRecord_synced (f : Floats) {m : Mmu} (distinct : Distinct m.pages) (r : MemRecord) :
    Synced f r m (syncRecord f m r) := by
  obtain ⟨distinct', ⟨pg, here, key, _⟩, others⟩ := pageGet_spec distinct r.id
  unfold syncRecord
  split
  · rename_i dead
    exact ⟨distinct, fun live => absurd live dead, fun pg member _ => member⟩
  · dsimp only
    rw [here]
    have mirror := attributed_mirrors f key
    have same : (attributed r (revised f r pg)).key = pg.key := mirror.key.trans key.symm
    refine ⟨?_, ?_, ?_⟩
    · unfold Distinct
      rw [keys_set here same]
      exact distinct'
    · intro _ page member named
      rcases mem_set distinct' here same member with rfl | ⟨_, away⟩
      · exact mirror
      · exact absurd (named.trans mirror.key.symm) away
    · intro page member away
      rcases mem_set distinct' here same member with rfl | ⟨member, _⟩
      · exact absurd mirror.key away
      · exact others page member away

theorem syncRecords_synced (f : Floats) {items : List MemRecord} (apart : (items.map fun r => r.id.text).Nodup) {m : Mmu}
    (distinct : Distinct m.pages) :
    Distinct (items.foldl (syncRecord f) m).pages ∧
      (∀ r ∈ items, statusLive r.status → ∀ pg ∈ (items.foldl (syncRecord f) m).pages, pg.key = r.id.text →
        Mirrors f pg r) ∧
      ∀ pg ∈ (items.foldl (syncRecord f) m).pages, pg.key ∉ items.map (fun r => r.id.text) → pg ∈ m.pages := by
  induction items generalizing m with
  | nil => exact ⟨distinct, fun _ member => absurd member List.not_mem_nil, fun _ member _ => member⟩
  | cons r items ih =>
    obtain ⟨fresh, apart⟩ := List.nodup_cons.mp apart
    have first := syncRecord_synced f distinct r
    obtain ⟨distinct', mirrors, others⟩ := ih apart first.distinct
    refine ⟨distinct', ?_, ?_⟩
    · intro r' member live pg inside key
      rcases List.mem_cons.mp member with rfl | member
      · -- no later record has this identifier
        have before := others pg inside (key ▸ fresh)
        exact first.mirrors live pg before key
      · exact mirrors r' member live pg inside key
    · intro pg inside away
      rw [List.map_cons, List.mem_cons, not_or] at away
      exact first.others pg (others pg inside away.2) away.1

/-! ### Both passes -/

theorem dropPages_fst (s : Records) (used : UInt64) (pages : List Page) :
    (dropPages s used pages).1 = pages.filter (current s) := by
  induction pages generalizing used with
  | nil => rfl
  | cons pg pages ih =>
    unfold dropPages
    split
    · rename_i kept
      rw [List.filter_cons_of_pos kept, ← ih used]
    · rename_i dropped
      rw [List.filter_cons_of_neg dropped]
      exact ih _

def Stands (f : Floats) (s : Records) (pg : Page) : Prop :=
  ∃ r, s.find pg.key = some r ∧ statusLive r.status ∧ Mirrors f pg r

theorem syncPages_stands (f : Floats) {m : Mmu} (distinct : Distinct m.pages) (s : Records) :
    Distinct (syncPages f m s).pages ∧ ∀ pg ∈ (syncPages f m s).pages, Stands f s pg := by
  obtain ⟨distinct', mirrors, _⟩ := syncRecords_synced f s.distinct distinct
  unfold syncPages
  simp only [dropPages_fst]
  refine ⟨distinct'.sublist (List.filter_sublist.map _), ?_⟩
  intro pg member
  obtain ⟨member, stays⟩ := List.mem_filter.mp member
  unfold current at stays
  cases found : s.find pg.recordId.text with
  | none =>
    rw [found] at stays
    cases stays
  | some r =>
    rw [found] at stays
    obtain ⟨inside, key⟩ := Records.find_spec found
    exact ⟨r, found, stays, mirrors r inside stays pg member key.symm⟩

end CognitiveOs.Context
