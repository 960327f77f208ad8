import CognitiveOs.Infra.Utf8
import CognitiveOs.Memory.Records.Markdown

/-!
# The working set of context pages

`context/mmu.c`: pages over the stored records, promoted and evicted under a budget of tokens.
Allocations succeed; the counters of the statistics are left out.
-/

namespace CognitiveOs.Context

open Foundation Foundation.Upsert Infra Memory.Gate Memory.Records

/-! ### The records -/

structure Records where
  items : List MemRecord
  distinct : (items.map fun r => r.id.text).Nodup

namespace Records

/-- `mem_records_find`. -/
def find (s : Records) (id : Text) : Option MemRecord :=
  lookup (fun r => r.id.text) id s.items

/-- `mem_records_touch`. -/
def touch (s : Records) (id : Text) (now : Int64) : Records :=
  match s.find id with
  | none => s
  | some r =>
    let touched :=
      { r with accessCount := r.accessCount + 1, lastAccessMs := if 0 < now then now else r.lastAccessMs }
    { items := upsert (fun r => r.id.text) touched s.items, distinct := upsert_distinct _ _ s.distinct }

end Records

/-! ### Pages -/

inductive Level where
  | l0
  | l1
  | l2
  deriving DecidableEq

inductive Residency where
  | cold
  | warm
  | hot
  deriving DecidableEq

/-- `ctx_page`. -/
structure Page where
  recordId : Field 40
  residency : Residency
  relevance : ℚ
  importance : ℚ
  confidence : ℚ
  utility : ℚ
  salience : ℚ
  lastAccessMs : Int64
  accessCount : UInt32
  pinned : Bool
  contentHash : UInt64
  repr : Level → Option Text
  tok : Level → UInt32
  type : MemType
  title : Field 128
  scope : Field 256
  status : Status

structure Mmu where
  pages : List Page
  tokenBudget : UInt64
  tokenUsed : UInt64

structure Config where
  tokenBudget : UInt64
  wRelevance : ℚ
  wImportance : ℚ
  wConfidence : ℚ
  wUtility : ℚ
  wRecency : ℚ
  wSalience : ℚ
  wScope : ℚ
  recencyHalflifeMs : ℚ
  l2TopK : Int32
  candidateK : Int32
  scope : Option Text
  privateOnly : Bool
  nowMs : Int64

/-- `ctx_mmu_config_default`. -/
def Config.default : Config where
  tokenBudget := 4096
  wRelevance := 35 / 100
  wImportance := 15 / 100
  wConfidence := 10 / 100
  wUtility := 10 / 100
  wRecency := 10 / 100
  wSalience := 10 / 100
  wScope := 10 / 100
  recencyHalflifeMs := 24 * 3600 * 1000
  l2TopK := 3
  candidateK := 16
  scope := none
  privateOnly := false
  nowMs := 0

def mmuNew : Mmu :=
  { pages := [], tokenBudget := Config.default.tokenBudget, tokenUsed := 0 }

def setConfig (m : Mmu) (cfg : Config) : Mmu :=
  if 0 < cfg.tokenBudget then { m with tokenBudget := cfg.tokenBudget } else m

/-- `ctx_mmu_pin`. -/
def pin (m : Mmu) (id : Text) (pinned : Bool) : Mmu :=
  match m.pages.findIdx? fun pg => pg.recordId.text = id with
  | none => m
  | some i => { m with pages := m.pages.modify i fun pg => { pg with pinned := pinned } }

/-- What the pages take from outside: the function `exp2` and the bytes of a double. -/
structure Floats where
  exp2 : ℚ → ℚ
  bytes : ℚ → Text

/-! ### Representations -/

def utf8Truncate (s : Text) (max : Nat) : Text :=
  if max < s.length then s.take (boundaryBefore s max) else s

def sentenceEnd : Nat → Text → Option Nat
  | i, a :: b :: c :: rest =>
    if 300 ≤ i then none
    else if a = 46 ∨ a = 33 ∨ a = 63 ∨ a = 10 then some (i + 1)
    else if a = 0xE3 ∧ b = 0x80 ∧ c = 0x82 then some (i + 3)
    else if a = 0xEF ∧ b = 0xBC ∧ (c = 0x81 ∨ c = 0x9F) then some (i + 3)
    else sentenceEnd (i + 1) (b :: c :: rest)
  | _, _ => none

def deriveL0 (pg : Page) (r : MemRecord) : Text :=
  (if pg.title.text ≠ [] then pg.title.text ++ ascii ": " else []) ++
    utf8Truncate r.content ((sentenceEnd 0 r.content).getD (min r.content.length 300))

/-- `%.2f`. -/
def fixed2 (x : ℚ) : Text :=
  let hundredths := roundEven (100 * |x|)
  let digit (n : Nat) : UInt8 := 48 + (n % 10).toUInt8
  (if x < 0 then [45] else []) ++ decimal (hundredths / 100) ++ [46, digit (hundredths / 10), digit hundredths]

def deriveL1 (pg : Page) (r : MemRecord) : Text :=
  (if pg.title.text ≠ [] then pg.title.text ++ [10] else []) ++
  (ascii "[" ++ typeName pg.type ++ ascii "/" ++ pg.scope.text ++ ascii "/" ++ statusName pg.status ++
    ascii "] importance=" ++ fixed2 pg.importance ++ ascii " confidence=" ++ fixed2 pg.confidence ++
    ascii " utility=" ++ fixed2 pg.utility ++ [10]) ++
  (if r.evidence.text ≠ [] then ascii "evidence: " ++ r.evidence.text ++ [10] else []) ++
  (ascii "---" ++ [10]) ++ utf8Truncate r.content 1200 ++ (if 1200 < r.content.length then ascii "..." else [])

def deriveL2 (_ : Page) (r : MemRecord) : Text :=
  r.content

def derive : Level → Page → MemRecord → Text
  | .l0 => deriveL0
  | .l1 => deriveL1
  | .l2 => deriveL2

def intBytes (n : Nat) : Text :=
  [n.toUInt8, 0, 0, 0]

def typeNumber : MemType → Nat
  | .semantic => 0
  | .episodic => 1
  | .procedural => 2
  | .preference => 3
  | .project => 4
  | .entity => 5

def statusNumber : Status → Nat
  | .provisional => 0
  | .trusted => 1
  | .verified => 2
  | .deprecated => 3
  | .contradicted => 4
  | .archived => 5

def hashedFields (f : Floats) (r : MemRecord) : List Text :=
  [r.title.text, r.scope.text, r.evidence.text, intBytes (typeNumber r.type), intBytes (statusNumber r.status),
    f.bytes r.importance, f.bytes r.confidence, f.bytes r.utility]

def representationHash (f : Floats) (r : MemRecord) : UInt64 :=
  (hashedFields f r).foldl (fun h field => (h ^^^ Infra.hash64 field) * 1099511628211) (Infra.hash64 r.content)

def tokenEstimate (s : Text) : UInt32 :=
  UInt32.ofNat ((s.length + 3) / 4)

def materialize (pg : Page) (r : MemRecord) (level : Level) : Page × UInt32 :=
  match pg.repr level with
  | some _ => (pg, pg.tok level)
  | none =>
    let text := derive level pg r
    let tok := tokenEstimate text
    ({ pg with repr := Function.update pg.repr level (some text), tok := Function.update pg.tok level tok }, tok)

def Page.release (pg : Page) (level : Level) : Page :=
  { pg with repr := Function.update pg.repr level none, tok := Function.update pg.tok level 0 }

def Page.chill (pg : Page) : Page :=
  { pg with repr := fun _ => none, tok := fun _ => 0, residency := .cold }

/-! ### Scores -/

def scopeFactor (cfg : Config) (scope : Text) : ℚ :=
  match cfg.scope with
  | none => 1
  | some s =>
    if s = [] then 1 else if s.isPrefixOf scope then 1 else if scope = ascii "global" then 75 / 100 else 40 / 100

def scopeAllowed (cfg : Config) (scope : Text) : Bool :=
  match cfg.scope with
  | none => true
  | some s =>
    if s = [] then true
    else if scope = [] then false
    else if cfg.privateOnly then scope = s
    else scope = s ∨ scope = ascii "global" ∨ scope = ascii "user/global"

structure Factors where
  relevance : ℚ
  importance : ℚ
  confidence : ℚ
  utility : ℚ
  recency : ℚ
  salience : ℚ
  scope : ℚ

def factorScore (cfg : Config) (fs : Factors) : ℚ :=
  let wsum := cfg.wRelevance + cfg.wImportance + cfg.wConfidence + cfg.wUtility + cfg.wRecency + cfg.wSalience +
    cfg.wScope
  let acc := cfg.wRelevance * fs.relevance + cfg.wImportance * fs.importance + cfg.wConfidence * fs.confidence +
    cfg.wUtility * fs.utility + cfg.wRecency * fs.recency + cfg.wSalience * fs.salience + cfg.wScope * fs.scope
  if 0 < wsum then clamp01 (acc / wsum) else 0

def recency (f : Floats) (cfg : Config) (now : Int64) (pg : Page) : ℚ :=
  let age : ℚ := if pg.lastAccessMs < now then now.toInt - pg.lastAccessMs.toInt else 0
  f.exp2 (-age / (if 0 < cfg.recencyHalflifeMs then cfg.recencyHalflifeMs else 1))

def factors (f : Floats) (cfg : Config) (now : Int64) (pg : Page) : Factors where
  relevance := pg.relevance
  importance := pg.importance
  confidence := pg.confidence
  utility := pg.utility
  recency := recency f cfg now pg
  salience := pg.salience
  scope := scopeFactor cfg pg.scope.text

/-! ### Eviction -/

def pageTokens (pg : Page) : UInt32 :=
  match pg.residency with
  | .hot => pg.tok .l2
  | .warm => pg.tok .l1
  | .cold => 0

def keepScore (m : Mmu) (pg : Page) : ℚ :=
  let freq : ℚ := if 10 < pg.accessCount then 1 else pg.accessCount.toNat / 10
  let tokPenalty : ℚ := if 0 < m.tokenBudget then (pageTokens pg).toNat / m.tokenBudget.toNat else 0
  pg.relevance + pg.importance + pg.utility + freq + pg.salience * (5 / 10) - tokPenalty

def evictable (pg : Page) : Bool :=
  ¬ pg.pinned ∧ pg.residency ≠ .cold

/-- The first evictable page of the lowest score and its place, among the pages from place `i` on. -/
def worstFrom (m : Mmu) (worst : Option (Nat × Page)) (i : Nat) : List Page → Option (Nat × Page)
  | [] => worst
  | pg :: pages =>
    let lower := evictable pg ∧ ∀ w ∈ worst, keepScore m pg < keepScore m w.2
    worstFrom m (if lower then some (i, pg) else worst) (i + 1) pages

/-- The rounds of `evict_to_budget`, each of which makes a page cold. -/
def evictRounds : Nat → Mmu → Mmu
  | 0, m => m
  | rounds + 1, m =>
    if m.tokenUsed ≤ m.tokenBudget then m
    else
      match worstFrom m none 0 m.pages with
      | none => m
      | some (i, pg) =>
        evictRounds rounds
          { m with pages := m.pages.set i pg.chill, tokenUsed := m.tokenUsed - (pageTokens pg).toUInt64 }

def evictToBudget (m : Mmu) : Mmu :=
  evictRounds (m.pages.length + 1) m

/-! ### The records behind the pages -/

def newPage (id : Text) : Page where
  recordId := Field.copy id
  residency := .cold
  relevance := 0
  importance := 0
  confidence := 0
  utility := 0
  salience := 0
  lastAccessMs := 0
  accessCount := 0
  pinned := false
  contentHash := 0
  repr := fun _ => none
  tok := fun _ => 0
  type := .semantic
  title := Field.copy []
  scope := Field.copy []
  status := .provisional

/-- `page_get`: the pages, with one of the record, and its place. -/
def pageGet (pages : List Page) (id : Text) : List Page × Nat :=
  match pages.findIdx? fun pg => pg.recordId.text = id with
  | some i => (pages, i)
  | none => (pages ++ [newPage id], pages.length)

def revised (f : Floats) (r : MemRecord) (pg : Page) : Page :=
  if pg.contentHash ≠ representationHash f r then { pg.chill with contentHash := representationHash f r } else pg

def attributed (r : MemRecord) (pg : Page) : Page :=
  { pg with
    type := r.type
    title := Field.copy r.title.text
    scope := Field.copy r.scope.text
    status := r.status
    importance := clamp01 r.importance
    confidence := clamp01 r.confidence
    utility := clamp01 r.utility
    salience := if 0 < r.salience then clamp01 r.salience else 5 / 10
    lastAccessMs := r.lastAccessMs
    accessCount := r.accessCount }

/-- The first pass of `sync_pages`, for one record. -/
def syncRecord (f : Floats) (m : Mmu) (r : MemRecord) : Mmu :=
  if ¬ statusLive r.status then m
  else
    let (pages, i) := pageGet m.pages r.id.text
    match pages[i]? with
    | none => m
    | some pg =>
      { m with
        pages := pages.set i (attributed r (revised f r pg))
        tokenUsed :=
          if pg.contentHash ≠ representationHash f r then m.tokenUsed - (pageTokens pg).toUInt64 else m.tokenUsed }

def current (s : Records) (pg : Page) : Bool :=
  ((s.find pg.recordId.text).map fun r => statusLive r.status).getD false

def dropPages (s : Records) (used : UInt64) : List Page → List Page × UInt64
  | [] => ([], used)
  | pg :: pages =>
    if current s pg then
      let (kept, used) := dropPages s used pages
      (pg :: kept, used)
    else dropPages s (used - (pageTokens pg).toUInt64) pages

def syncPages (f : Floats) (m : Mmu) (s : Records) : Mmu :=
  let m := s.items.foldl (syncRecord f) m
  let (pages, used) := dropPages s m.tokenUsed m.pages
  { m with pages := pages, tokenUsed := used }

end CognitiveOs.Context
