import CognitiveOs.Foundation.Machine
import CognitiveOs.Foundation.Upsert
import CognitiveOs.Security.SshPasswords
import Mathlib.Algebra.Order.Field.Rat

/-!
# The memory gate

`memory/promotion.c` over the record store of `memory/record.c` and the vector store of
`memory/vector.c`. Doubles are rationals; a vector is kept as its identifier and its text.
-/

namespace CognitiveOs.Memory.Gate

open Foundation Foundation.Upsert Infra Security

inductive MemType where
  | semantic
  | episodic
  | procedural
  | preference
  | project
  | entity
  deriving DecidableEq

inductive Status where
  | provisional
  | trusted
  | verified
  | deprecated
  | contradicted
  | archived
  deriving DecidableEq

inductive Outcome where
  | unknown
  | success
  | failure
  | partialSuccess
  deriving DecidableEq

structure Record where
  id : Text
  type : MemType
  scope : Text
  status : Status
  importance : ℚ
  confidence : ℚ
  utility : ℚ
  valence : ℚ
  arousal : ℚ
  salience : ℚ
  source : Text
  originId : Text
  outcome : Outcome
  evidence : Text
  version : Nat
  createdMs : Int
  updatedMs : Int
  lastAccessMs : Int
  content : Text
  deriving DecidableEq

structure Candidate where
  type : MemType
  scope : Text
  content : Text
  importance : ℚ
  confidence : ℚ
  valence : ℚ
  arousal : ℚ
  salience : ℚ
  source : Text
  originId : Text
  outcome : Outcome
  evidence : Text
  deriving DecidableEq

structure Config where
  promoteThreshold : ℚ
  mergeThreshold : ℚ
  requireEvidence : Bool
  noEvidenceCap : ℚ
  reinforcement : ℚ
  utilityBump : ℚ

/-- `mem_gate_config_default`. -/
def Config.default : Config :=
  { promoteThreshold := 55 / 100, mergeThreshold := 35 / 100, requireEvidence := true, noEvidenceCap := 50 / 100,
    reinforcement := 5 / 100, utilityBump := 5 / 100 }

def clamp01 (x : ℚ) : ℚ :=
  if x < 0 then 0 else if 1 < x then 1 else x

def outcomeWeight (c : Candidate) : ℚ :=
  match c.outcome with
  | .success => 1
  | .partialSuccess => 7 / 10
  | .failure => if c.type = .procedural then 9 / 10 else 6 / 10
  | .unknown => 4 / 10

def evidenceClassRank : Outcome → Nat
  | .success | .failure => 3
  | .partialSuccess => 2
  | .unknown => 1

def statusLive (s : Status) : Bool :=
  s = .provisional ∨ s = .trusted ∨ s = .verified

def statusIndexable (s : Status) : Bool :=
  s ≠ .deprecated ∧ s ≠ .contradicted ∧ s ≠ .archived

def maturedStatus (cur : Status) (c : Candidate) : Status :=
  if c.evidence = [] then cur
  else
    match cur with
    | .provisional => .trusted
    | .trusted => if 3 ≤ evidenceClassRank c.outcome then .verified else .trusted
    | _ => cur

def memGateScore (c : Candidate) (cfg : Config) : ℚ :=
  let score := 40 / 100 * clamp01 c.importance + 30 / 100 * clamp01 c.confidence + 20 / 100 * outcomeWeight c +
    10 / 100 * clamp01 c.salience
  clamp01 <| if cfg.requireEvidence ∧ c.evidence = [] ∧ cfg.noEvidenceCap < score then cfg.noEvidenceCap else score

def candidateId (c : Candidate) : Text :=
  let origin := if c.originId = [] then ascii "-" else c.originId
  let scope := if c.scope = [] then ascii "global" else c.scope
  ascii "mem_" ++ (hashHex (hash64 (origin ++ ascii "|" ++ scope ++ ascii "|" ++ c.content))).take 12

/-! ### Records -/

structure Store where
  items : List Record
  distinct : (items.map Record.id).Nodup

namespace Store

def find (s : Store) (id : Text) : Option Record :=
  lookup Record.id id s.items

def findOrigin (s : Store) (originId : Text) : Option Record :=
  s.items.find? fun r => r.originId = originId

/-- `mem_records_put`: the content is redacted on the way in. -/
def put (s : Store) (ps : Passwords) (r : Record) : Store where
  items := upsert Record.id { r with content := secretRedactSshPasswords ps r.content } s.items
  distinct := upsert_distinct _ _ s.distinct

end Store

/-! ### Vectors -/

structure Vectors where
  entries : List (Text × Text)
  distinct : (entries.map Prod.fst).Nodup

namespace Vectors

/-- `vectorstore_add`. -/
def add (vs : Vectors) (vid text : Text) : Vectors where
  entries := upsert Prod.fst (vid, text) vs.entries
  distinct := upsert_distinct _ _ vs.distinct

/-- `vectorstore_remove`. -/
def remove (vs : Vectors) (vid : Text) : Vectors where
  entries := eraseKey Prod.fst vid vs.entries
  distinct := eraseKey_distinct vid vs.distinct

/-- `vectorstore_remove_prefix`. -/
def removeUnder (vs : Vectors) (front : Text) : Vectors where
  entries := vs.entries.filter fun e => ¬ front.isPrefixOf e.1
  distinct := vs.distinct.sublist (List.filter_sublist.map _)

def text? (vs : Vectors) (vid : Text) : Option Text :=
  (lookup Prod.fst vid vs.entries).map Prod.snd

end Vectors

def recordVid (id : Text) : Text :=
  ascii "r:" ++ id

/-- `mem_records_rebuild_index`. -/
def rebuildIndex (s : Store) (vs : Vectors) : Vectors :=
  s.items.foldl (fun vs r => if statusIndexable r.status then vs.add (recordVid r.id) r.content else vs)
    (vs.removeUnder (ascii "r:"))

def refreshMirror (vs : Vectors) (r : Record) : Vectors :=
  let vs := vs.remove (recordVid r.id)
  if statusLive r.status then vs.add (recordVid r.id) r.content else vs

/-! ### The gate -/

/-- What a call finds around it: the registered passwords, the time, and whether the record's
file can be written. -/
structure Env where
  passwords : Passwords
  now : Int
  persisted : Bool

structure Longterm where
  store : Store
  vectors : Vectors

inductive Decision where
  | reject
  | merge (orig : Record)
  | promote
  deriving DecidableEq

def origin (s : Store) (c : Candidate) : Option Record :=
  if c.originId = [] then s.find (candidateId c) else s.findOrigin c.originId

/-- The branches of `mem_gate_apply`. -/
def decision (s : Store) (cfg : Config) (c : Candidate) : Decision :=
  if c.content = [] ∨ memGateScore c cfg < cfg.mergeThreshold then .reject
  else
    match (origin s c).filter fun r => statusLive r.status with
    | some orig => .merge orig
    | none => if cfg.promoteThreshold ≤ memGateScore c cfg then .promote else .reject

def merged (cfg : Config) (orig : Record) (c : Candidate) (now : Int) : Record :=
  let adopts := c.evidence ≠ [] ∧ evidenceClassRank orig.outcome ≤ evidenceClassRank c.outcome
  { orig with
    version := orig.version + 1
    confidence := clamp01 (orig.confidence + cfg.reinforcement)
    utility := clamp01 (orig.utility + cfg.utilityBump)
    status := maturedStatus orig.status c
    updatedMs := now
    outcome := if adopts then c.outcome else orig.outcome
    evidence := if adopts then c.evidence else orig.evidence
    content := c.content }

def promoted (c : Candidate) (now : Int) : Record where
  id := candidateId c
  type := c.type
  scope := if c.scope = [] then ascii "global" else c.scope
  status := .provisional
  importance := clamp01 c.importance
  confidence := clamp01 c.confidence
  utility := 0
  valence := c.valence
  arousal := clamp01 c.arousal
  salience := clamp01 c.salience
  source := if c.source = [] then ascii "experience" else c.source
  originId := c.originId
  outcome := c.outcome
  evidence := c.evidence
  version := 1
  createdMs := now
  updatedMs := now
  lastAccessMs := now
  content := c.content

/-- `mem_gate_apply`. A merge refreshes the mirror from the stored record, a promotion from the
record that was put. -/
def memGateApply (m : Longterm) (env : Env) (cfg : Config) (c : Candidate) : Longterm :=
  match decision m.store cfg c with
  | .reject => m
  | .merge orig =>
    let nr := merged cfg orig c env.now
    let store := m.store.put env.passwords nr
    if env.persisted then
      { store := store
        vectors := match store.find nr.id with
          | some stored => refreshMirror m.vectors stored
          | none => m.vectors }
    else { m with store := store }
  | .promote =>
    let r := promoted c env.now
    let store := m.store.put env.passwords r
    if env.persisted then { store := store, vectors := refreshMirror m.vectors r } else { m with store := store }

structure Apply where
  env : Env
  cfg : Config
  candidate : Candidate

def gate : Machine Longterm Apply :=
  Machine.ofFun fun m a => memGateApply m a.env a.cfg a.candidate

def Plain (m : Longterm) (a : Apply) : Prop :=
  a.env.persisted ∧ (decision m.store a.cfg a.candidate = .promote →
    secretRedactSshPasswords a.env.passwords a.candidate.content = a.candidate.content)

end CognitiveOs.Memory.Gate

/-!
# The mirror of the records

The vectors of the records against what a rebuild would make of the stored records.
-/

namespace CognitiveOs.Memory.Gate

open Foundation Foundation.Upsert Infra Security

/-! ### Single vectors and records -/

@[simp] theorem text?_add (vs : Vectors) (vid text k : Text) :
    (vs.add vid text).text? k = if k = vid then some text else vs.text? k := by
  unfold Vectors.text? Vectors.add
  rw [lookup_upsert]
  split <;> rfl

@[simp] theorem text?_remove (vs : Vectors) (vid k : Text) :
    (vs.remove vid).text? k = if k = vid then none else vs.text? k := by
  unfold Vectors.text? Vectors.remove
  rw [lookup_eraseKey vs.distinct]
  split <;> rfl

@[simp] theorem recordVid_inj {id id' : Text} : recordVid id = recordVid id' ↔ id = id' :=
  List.append_cancel_left_eq (ascii "r:") id id' ▸ Iff.rfl

theorem text?_removeUnder (vs : Vectors) (id : Text) : (vs.removeUnder (ascii "r:")).text? (recordVid id) = none := by
  unfold Vectors.text? Vectors.removeUnder
  rw [lookup_eq_none]
  · rfl
  · intro member
    obtain ⟨e, member, same⟩ := List.mem_map.mp member
    have other := (List.mem_filter.mp member).2
    rw [same, decide_eq_true_eq] at other
    apply other
    exact List.isPrefixOf_iff_prefix.mpr (List.prefix_append _ _)

theorem statusLive_eq (s : Status) : statusLive s = statusIndexable s := by
  cases s <;> rfl

def indexed (r : Option Record) : Option Text :=
  (r.filter fun r => statusIndexable r.status).map Record.content

theorem find_put (s : Store) (ps : Passwords) (r : Record) (id : Text) :
    (s.put ps r).find id =
      if id = r.id then some { r with content := secretRedactSshPasswords ps r.content } else s.find id :=
  lookup_upsert _ _

theorem text?_rebuildIndex (s : Store) (vs : Vectors) (id : Text) :
    (rebuildIndex s vs).text? (recordVid id) = indexed (s.find id) := by
  have step (items : List Record) (distinct : (items.map Record.id).Nodup) (vs : Vectors) :
      (items.foldl (fun vs r => if statusIndexable r.status then vs.add (recordVid r.id) r.content else vs) vs).text?
        (recordVid id) = (indexed (lookup Record.id id items)).or (vs.text? (recordVid id)) := by
    induction items generalizing vs with
    | nil => rfl
    | cons r items ih =>
      obtain ⟨fresh, distinct⟩ := List.nodup_cons.mp distinct
      rw [List.foldl_cons, ih distinct, lookup_cons]
      by_cases here : r.id = id
      · subst here
        rw [lookup_eq_none fresh, if_pos rfl]
        unfold indexed
        by_cases live : statusIndexable r.status
        · simp [live, Option.filter]
        · simp [live, Option.filter]
      · have same : (if statusIndexable r.status then vs.add (recordVid r.id) r.content else vs).text? (recordVid id) =
            vs.text? (recordVid id) := by
          split
          · rw [text?_add, if_neg]
            rw [recordVid_inj]
            exact Ne.symm here
          · rfl
        rw [if_neg here, same]
  unfold rebuildIndex
  rw [step s.items s.distinct, text?_removeUnder, Option.or_none]
  rfl

/-! ### What every call keeps -/

def Mirrored (m : Longterm) : Prop :=
  ∀ id, m.vectors.text? (recordVid id) = indexed (m.store.find id)

theorem mirrored_put {m : Longterm} (mirrored : Mirrored m) (ps : Passwords) (r : Record) :
    Mirrored
      { store := m.store.put ps r
        vectors := refreshMirror m.vectors { r with content := secretRedactSshPasswords ps r.content } } := by
  intro id
  simp only [find_put]
  unfold refreshMirror
  simp only [statusLive_eq]
  by_cases here : id = r.id
  · subst here
    rw [if_pos rfl]
    unfold indexed
    by_cases live : statusIndexable r.status
    · simp [live]
    · simp [live]
  · rw [if_neg here]
    have away : recordVid id ≠ recordVid r.id := by
      rw [ne_eq, recordVid_inj]
      exact here
    split
    · rw [text?_add, if_neg away, text?_remove, if_neg away]
      exact mirrored id
    · rw [text?_remove, if_neg away]
      exact mirrored id

theorem mirrored_apply {m : Longterm} (mirrored : Mirrored m) {a : Apply} (plain : Plain m a) :
    Mirrored (memGateApply m a.env a.cfg a.candidate) := by
  obtain ⟨persisted, clean⟩ := plain
  unfold memGateApply
  split
  · exact mirrored
  · rename_i orig _
    have stored := find_put m.store a.env.passwords (merged a.cfg orig a.candidate a.env.now)
      (merged a.cfg orig a.candidate a.env.now).id
    rw [if_pos rfl] at stored
    simp only [persisted, if_true, stored]
    exact mirrored_put mirrored a.env.passwords _
  · rename_i promote
    simp only [persisted, if_true]
    have put := mirrored_put mirrored a.env.passwords (promoted a.candidate a.env.now)
    rw [show secretRedactSshPasswords a.env.passwords (promoted a.candidate a.env.now).content =
      (promoted a.candidate a.env.now).content from clean promote] at put
    exact put

/-- In every run whose records are written and whose promoted texts have nothing to redact, the
vectors of the records are those of a rebuild. -/
theorem mirror_of_run {s : Store} {vs : Vectors} {calls : List Apply} {m : Longterm}
    (run : (gate.restrict Plain).Run { store := s, vectors := rebuildIndex s vs } calls m) (id : Text) :
    m.vectors.text? (recordVid id) = (rebuildIndex m.store m.vectors).text? (recordVid id) := by
  have mirrored : Mirrored m := by
    refine run.invariant ?_ (fun id => text?_rebuildIndex s vs id)
    rintro m a next mirrored ⟨plain, rfl⟩
    exact mirrored_apply mirrored plain
  rw [text?_rebuildIndex]
  exact mirrored id

/-! ### A password in a promoted text -/

def noRecords : Store :=
  { items := [], distinct := List.nodup_nil }

def noVectors : Vectors :=
  { entries := [], distinct := List.nodup_nil }

def lesson (content : String) : Apply where
  env := { passwords := secretRegisterSshPassword [] (ascii "hunter22"), now := 1, persisted := true }
  cfg := Config.default
  candidate :=
    { type := .semantic, scope := [], content := ascii content, importance := 1, confidence := 1, valence := 0, arousal := 0,
      salience := 1, source := [], originId := ascii "o", outcome := .success, evidence := ascii "e" }

def learned (content : String) : Longterm :=
  memGateApply { store := noRecords, vectors := rebuildIndex noRecords noVectors } (lesson content).env
    (lesson content).cfg (lesson content).candidate

theorem mirror_of_lesson : (learned "use make").vectors.text? (recordVid (candidateId (lesson "use make").candidate)) =
    (rebuildIndex (learned "use make").store (learned "use make").vectors).text?
      (recordVid (candidateId (lesson "use make").candidate)) := by
  refine mirror_of_run (Machine.Run.single ⟨⟨rfl, fun _ => ?_⟩, rfl⟩) _
  decide +kernel

/-- The index holds the password that the stored record does not. -/
theorem lesson_leaks :
    (learned "log in with hunter22").vectors.text? (recordVid (candidateId (lesson "log in with hunter22").candidate)) =
        some (ascii "log in with hunter22") ∧
      (rebuildIndex (learned "log in with hunter22").store (learned "log in with hunter22").vectors).text?
          (recordVid (candidateId (lesson "log in with hunter22").candidate)) =
        some (ascii "log in with [REDACTED:ssh_password]") := by
  decide +kernel

end CognitiveOs.Memory.Gate
