import CognitiveOs.Foundation.Machine
import CognitiveOs.Tx.Model

/-!
# Rollback

As long as every call finds the paths it names as the transaction found them, and
their contents can be kept, a rollback puts all of them back.
-/

namespace CognitiveOs.Transactions

open Foundation Infra Os Snapshots

/-- The content can be kept as a block of its own: it has no NUL, which would end it,
and no other content has its place. -/
def Storable (c : Cow) (bytes : Text) : Prop :=
  (0 : UInt8) ∉ bytes ∧
    (c.block (hashOf bytes) = some bytes ∨
      c.block (hashOf bytes) = none ∧ c.storable (hashOf bytes) = true)

structure Capturable (maxFile : Nat) (d : Disk) (c : Cow) (path : Text) : Prop where
  plain : fsIsDir d path = false
  unversioned : isGitManaged d path = false
  readable : d.readable path = true
  storable : ∀ bytes, d.node path = some (.file bytes) →
    (maxFile = 0 ∨ bytes.length ≤ maxFile) ∧ Storable c bytes

def writes (tools : List Tool) (call : Call) : Bool :=
  (toolFind tools call.tool).any Tool.isWrite

def writtenPaths (tools : List Tool) (workspace : Text) (call : Call) : List Text :=
  if writes tools call then namedPaths call.args workspace else []

structure SafeCall (begin : Disk) (tx : Tx) (call : Call) : Prop where
  few : (writtenPaths tx.tools tx.workspace call).length ≤ 16
  unchanged : ∀ path ∈ writtenPaths tx.tools tx.workspace call,
    tx.disk.node path = begin.node path
  capturable : ∀ path ∈ writtenPaths tx.tools tx.workspace call,
    Capturable tx.snap.maxFile tx.disk tx.cow path
  distinct : ∀ first ∈ writtenPaths tx.tools tx.workspace call,
    ∀ second ∈ writtenPaths tx.tools tx.workspace call, ∀ bytes others,
      tx.disk.node first = some (.file bytes) → tx.disk.node second = some (.file others) →
        hashOf bytes = hashOf others → bytes = others
  apart : ∀ d c, (call.effect d c).2.block = c.block

/-- The path is as the transaction found it, or can be written and is not a directory. -/
def Restorable (begin : Disk) (tx : Tx) (path : Text) : Prop :=
  tx.disk.node path = begin.node path ∨
    tx.disk.writable path = true ∧ fsIsDir tx.disk path = false

def Extends (before after : Cow) : Prop :=
  ∀ hash bytes, before.block hash = some bytes → after.block hash = some bytes

theorem Extends.refl (c : Cow) : Extends c c :=
  fun _ _ found => found

theorem Extends.trans {first second third : Cow} (left : Extends first second)
    (right : Extends second third) : Extends first third :=
  fun hash bytes found => right hash bytes (left hash bytes found)

theorem said_of_extends {before after : Cow} {cap : Captured} {state : Option Text}
    (grown : Extends before after) (spoken : said before cap = some state) :
    said after cap = some state := by
  unfold said at spoken ⊢
  split at spoken
  next => simp at spoken
  next usable =>
    rw [if_neg usable]
    split at spoken
    next hashed =>
      rw [if_pos hashed]
      cases found : before.block cap.hash with
      | none => simp [cowGet, found] at spoken
      | some bytes =>
        simpa [cowGet, found, grown _ _ found] using spoken
    next unhashed => rw [if_neg unhashed, spoken]

theorem extends_cowPut (c : Cow) (data : Text) : Extends c (cowPut c data).2 := by
  intro hash bytes found
  unfold cowPut
  split
  next => exact found
  next absent =>
    split
    next =>
      have distinct : hash ≠ hashOf data := by
        rintro rfl
        simp [found] at absent
      simpa [Function.update_of_ne distinct] using found
    next => exact found

variable {c : Cow}

theorem cowPut_of_storable {bytes : Text} (storable : Storable c bytes) :
    (cowPut c bytes).1 = some (hashOf bytes) ∧
      (cowPut c bytes).2.block (hashOf bytes) = some bytes := by
  obtain ⟨-, present | ⟨absent, allowed⟩⟩ := storable
  · simp [cowPut, present]
  · simp [cowPut, absent, allowed]

theorem cowPut_other {data hash : Text} (distinct : hash ≠ hashOf data) :
    (cowPut c data).2.block hash = c.block hash ∧
      (cowPut c data).2.storable hash = c.storable hash := by
  unfold cowPut
  split
  · exact ⟨rfl, rfl⟩
  · split
    · exact ⟨Function.update_of_ne distinct _ _, rfl⟩
    · exact ⟨rfl, rfl⟩

theorem storable_cowPut {bytes others : Text} (storable : Storable c bytes) (kept : Storable c others)
    (distinct : hashOf bytes = hashOf others → bytes = others) : Storable (cowPut c others).2 bytes := by
  refine ⟨storable.1, ?_⟩
  by_cases same : hashOf bytes = hashOf others
  · obtain rfl := distinct same
    exact .inl (cowPut_of_storable kept).2
  · obtain ⟨block, allowed⟩ := cowPut_other (c := c) same
    rw [block, allowed]
    exact storable.2

theorem captureFile_spec {maxFile : Nat} {d : Disk} {path : Text} (capturable : Capturable maxFile d c path) :
    ∃ cap state after, captureFile maxFile d c path = (cap, after) ∧ cap.path = path ∧
      said after cap = some state ∧ d.node path = nodeOf state ∧ Extends c after ∧
      (after = c ∨ ∃ bytes, d.node path = some (.file bytes) ∧ after = (cowPut c bytes).2) := by
  have plain := capturable.plain
  unfold captureFile
  cases node : d.node path with
  | none =>
    refine ⟨{ path, existed := false }, none, c, ?_, rfl, rfl, rfl, .refl c, .inl rfl⟩
    simp [fsExists, node]
  | some node' =>
    cases node' with
    | dir empty => simp [fsIsDir, node] at plain
    | file bytes =>
      obtain ⟨small, storable⟩ := capturable.storable bytes node
      obtain ⟨hash, block⟩ := cowPut_of_storable storable
      have within : ¬ (0 < maxFile ∧ (maxFile : Int) < fsFileSize d path) := by
        simp only [fsFileSize, node]
        omega
      have content : fsReadFile d path = some bytes := by
        simp [fsReadFile, node, capturable.readable]
      refine ⟨{ path, hash := hashOf bytes, existed := true }, some bytes, (cowPut c bytes).2, ?_,
        rfl, ?_, rfl, extends_cowPut c bytes, .inr ⟨bytes, rfl, rfl⟩⟩
      · rw [if_neg (by simp [plain]), if_pos (by simp [fsExists, node]), if_neg within, content]
        simp [cstr_eq_self storable.1, hash]
      · simp [said, cowGet, block, cstr_eq_self storable.1]

theorem capturePaths_spec {d : Disk} (snap : Snapshot) {paths : List Text}
    (capturable : ∀ path ∈ paths, Capturable snap.maxFile d c path)
    (distinct : ∀ first ∈ paths, ∀ second ∈ paths, ∀ bytes others,
      d.node first = some (.file bytes) → d.node second = some (.file others) →
        hashOf bytes = hashOf others → bytes = others) :
    ∃ caps after, capturePaths d snap c paths =
        ({ snap with pending := snap.pending ++ caps }, after) ∧
      caps.map Captured.path = paths ∧ Extends c after ∧
      ∀ cap ∈ caps, ∃ state, said after cap = some state ∧ d.node cap.path = nodeOf state := by
  induction paths generalizing snap c with
  | nil => exact ⟨[], c, by simp [capturePaths], rfl, .refl c, by simp⟩
  | cons path paths ih =>
    obtain ⟨here, rest⟩ := List.forall_mem_cons.mp capturable
    obtain ⟨cap, state, middle, captured, same, spoken, node, grown, step⟩ := captureFile_spec here
    have next : ∀ other ∈ paths, Capturable snap.maxFile d middle other := by
      intro other member
      refine ⟨(rest other member).plain, (rest other member).unversioned,
        (rest other member).readable, fun bytes found => ?_⟩
      obtain ⟨small, storable⟩ := (rest other member).storable bytes found
      refine ⟨small, ?_⟩
      rcases step with rfl | ⟨others, present, rfl⟩
      · exact storable
      · refine storable_cowPut storable (here.storable others present).2 fun equal => ?_
        exact distinct other (List.mem_cons_of_mem _ member) path List.mem_cons_self bytes others
          found present equal
    obtain ⟨caps, after, rest', paths', later, spoken'⟩ :=
      ih { snap with pending := snap.pending ++ [cap] } next
        fun first firstMember second secondMember =>
          distinct first (List.mem_cons_of_mem _ firstMember) second
            (List.mem_cons_of_mem _ secondMember)
    refine ⟨cap :: caps, after, ?_, by simp [same, paths'], grown.trans later, ?_⟩
    · simp only [capturePaths, List.foldl_cons, here.unversioned, snapshotCapture, captured] at rest' ⊢
      simpa using rest'
    · intro other member
      rcases List.mem_cons.mp member with rfl | member
      · exact ⟨state, said_of_extends later spoken, by rw [same, node]⟩
      · exact spoken' other member

/-- Every pending capture says what its path was when the transaction began. -/
structure Faithful (begin : Disk) (tools : List Tool) (workspace : Text) (calls : List Call)
    (tx : Tx) : Prop where
  outside : tx.gitManaged = false
  sameTools : tx.tools = tools
  sameWorkspace : tx.workspace = workspace
  spoken : ∀ cap ∈ tx.snap.pending, ∃ state, said tx.cow cap = some state ∧
    begin.node cap.path = nodeOf state
  covered : ∀ call ∈ calls, ∀ path ∈ writtenPaths tools workspace call,
    ∃ cap ∈ tx.snap.pending, cap.path = path

variable {tx : Tx}

theorem capture_eq {call : Call} {tool : Tool} (outside : tx.gitManaged = false)
    (found : toolFind tx.tools call.tool = some tool) (few : (writtenPaths tx.tools tx.workspace call).length ≤ 16) :
    (if tool.isWrite && !tx.gitManaged then
        capturePaths tx.disk tx.snap tx.cow (extractPaths call.args tx.workspace)
      else (tx.snap, tx.cow)) =
      capturePaths tx.disk tx.snap tx.cow (writtenPaths tx.tools tx.workspace call) := by
  cases write : tool.isWrite with
  | false => simp [writtenPaths, writes, found, write, capturePaths]
  | true =>
    have all : writtenPaths tx.tools tx.workspace call = namedPaths call.args tx.workspace := by
      simp [writtenPaths, writes, found, write]
    rw [all] at few
    simp [all, outside, extractPaths, List.take_of_length_le few]

theorem faithful_txRun {begin : Disk} {tools : List Tool} {workspace : Text} {calls : List Call} {call : Call}
    (faithful : Faithful begin tools workspace calls tx) (safe : SafeCall begin tx call) :
    Faithful begin tools workspace (calls ++ [call]) (txRun tx call) := by
  obtain ⟨outside, rfl, rfl, spoken, covered⟩ := faithful
  unfold txRun
  cases found : toolFind tx.tools call.tool with
  | none =>
    refine ⟨outside, rfl, rfl, spoken, fun other member path named => ?_⟩
    rcases List.mem_append.mp member with member | member
    · exact covered other member path named
    · obtain rfl := List.mem_singleton.mp member
      simp [writtenPaths, writes, found] at named
  | some tool =>
    obtain ⟨caps, cow, captured, paths, grown, fresh⟩ :=
      capturePaths_spec tx.snap safe.capturable safe.distinct
    simp only [capture_eq outside found safe.few, captured]
    have kept : Extends cow (call.effect tx.disk cow).2 := by
      intro hash bytes present
      rw [safe.apart]
      exact present
    refine ⟨outside, rfl, rfl, fun cap member => ?_, fun other member path named => ?_⟩
    · rcases List.mem_append.mp member with member | member
      · obtain ⟨state, before, node⟩ := spoken cap member
        exact ⟨state, said_of_extends (grown.trans kept) before, node⟩
      · obtain ⟨state, before, node⟩ := fresh cap member
        have named : cap.path ∈ writtenPaths tx.tools tx.workspace call :=
          paths ▸ List.mem_map_of_mem member
        exact ⟨state, said_of_extends kept before, by rw [← safe.unchanged _ named, node]⟩
    · rcases List.mem_append.mp member with member | member
      · obtain ⟨cap, pending, same⟩ := covered other member path named
        exact ⟨cap, List.mem_append_left _ pending, same⟩
      · obtain rfl := List.mem_singleton.mp member
        obtain ⟨cap, pending, same⟩ := List.mem_map.mp (paths.symm ▸ named)
        exact ⟨cap, List.mem_append_right _ pending, same⟩

theorem faithful_run {begin : Disk} {cow : Cow} {snap : Snapshot} {tools : List Tool} {workspace : Text}
    {calls : List Call} (outside : isGitManaged begin workspace = false) (fresh : snap.pending = [])
    (run : ((Machine.ofFun txRun).restrict (SafeCall begin)).Run
      (txBegin begin cow snap tools workspace) calls tx) : Faithful begin tools workspace calls tx := by
  generalize first : txBegin begin cow snap tools workspace = start at run
  induction run with
  | start =>
    subst first
    exact ⟨outside, rfl, rfl, by simp [txBegin, fresh], by simp⟩
  | step _ taken ih =>
    obtain ⟨safe, rfl⟩ := taken
    exact faithful_txRun ih safe

theorem settled_of_const {writable : Bool} {node : Option Node} {states : List (Option Text)}
    {wanted : Option Node} (nonempty : states ≠ []) (same : ∀ state ∈ states, nodeOf state = wanted)
    (possible : node = wanted ∨ writable = true ∧ ∀ empty, node ≠ some (.dir empty)) :
    settled writable node states = wanted := by
  obtain ⟨last, found⟩ : ∃ last, states.getLast? = some last :=
    ⟨_, List.getLast?_eq_some_getLast nonempty⟩
  obtain rfl := same last (List.mem_of_getLast? found)
  rcases possible with rfl | ⟨rfl, file⟩
  · cases writable <;> cases last <;> simp [settled, found, nodeOf]
  · rcases node with _ | bytes | empty
    · simp [settled, found]
    · simp [settled, found]
    · exact absurd rfl (file empty)

/-- A run of calls that find their paths as the transaction found them is undone by a
rollback: every path named by a write has its first content or is absent again. -/
theorem rollback_restores {begin : Disk} {cow : Cow} {snap : Snapshot} {tools : List Tool}
    {workspace path : Text} {calls : List Call} {tx : Tx}
    (outside : isGitManaged begin workspace = false) (fresh : snap.pending = [])
    (run : ((Machine.ofFun txRun).restrict (SafeCall begin)).Run
      (txBegin begin cow snap tools workspace) calls tx)
    (named : ∃ call ∈ calls, path ∈ writtenPaths tools workspace call)
    (restorable : Restorable begin tx path) :
    (txRollback tx).disk.node path = begin.node path := by
  obtain ⟨call, member, written⟩ := named
  obtain ⟨-, -, -, spoken, covered⟩ := faithful_run outside fresh run
  obtain ⟨cap, pending, here⟩ := covered call member path written
  have node : (txRollback tx).disk.node path = settled (tx.disk.writable path)
      (tx.disk.node path) (statements tx.cow tx.snap.pending path) :=
    restoreEntry_node tx.cow tx.disk tx.snap.pending path
  rw [node]
  refine settled_of_const ?_ ?_ ?_
  · obtain ⟨state, before, -⟩ := spoken cap pending
    refine List.ne_nil_of_mem (List.mem_filterMap.mpr ⟨cap, ?_, before⟩)
    exact List.mem_filter.mpr ⟨pending, by simpa using here⟩
  · intro state stated
    obtain ⟨other, captured, before⟩ := List.mem_filterMap.mp stated
    obtain ⟨captured, same⟩ := List.mem_filter.mp captured
    obtain ⟨state', before', node⟩ := spoken other captured
    obtain rfl : state' = state := Option.some.inj (before'.symm.trans before)
    rw [← node, of_decide_eq_true same]
  · refine restorable.imp_right fun ⟨allowed, plain⟩ => ⟨allowed, fun empty directory => ?_⟩
    simp [fsIsDir, directory] at plain

def oneFile : Disk :=
  setNode {} (ascii "/w/a") (some (.file (ascii "zero")))

def fileWrite : Tool where
  name := ascii "file_write"
  isWrite := true

/-- `file_write` of the file. -/
def writeCall (content : Text) : Call where
  tool := ascii "file_write"
  args := some (.object [(ascii "path", .string (ascii "a"))])
  effect d c := (setNode d (ascii "/w/a") (some (.file content)), c)
  ok := true

/-- The second write captures what the first one left, and the rollback ends with it. -/
theorem rollback_restores_fails :
    ¬ ∀ (begin : Disk) (cow : Cow) (snap : Snapshot) (tools : List Tool) (workspace : Text)
      (calls : List Call) (path : Text), isGitManaged begin workspace = false →
      snap.pending = [] → (∀ path, begin.readable path = true) →
      (∀ path, fsFileSize begin path ≤ snap.maxFile) →
      (∃ call ∈ calls, path ∈ writtenPaths tools workspace call) →
      (txRollback (calls.foldl txRun (txBegin begin cow snap tools workspace))).disk.node path =
        begin.node path := by
  intro restores
  have small (path : Text) : fsFileSize oneFile path ≤ ({} : Snapshot).maxFile := by
    by_cases here : path = ascii "/w/a"
    · subst here
      decide
    · simp [fsFileSize, oneFile, setNode, Function.update_of_ne here]
  have same := restores oneFile {} {} [fileWrite] (ascii "/w")
    [writeCall (ascii "one"), writeCall (ascii "two")] (ascii "/w/a") (by decide) rfl
    (fun _ => rfl) small ⟨writeCall (ascii "one"), by simp, by decide⟩
  revert same
  decide

theorem rollback_restores_once :
    (txRollback (txRun (txBegin oneFile {} {} [fileWrite] (ascii "/w"))
      (writeCall (ascii "one")))).disk.node (ascii "/w/a") = some (.file (ascii "zero")) := by
  have paths : writtenPaths [fileWrite] (ascii "/w") (writeCall (ascii "one")) = [ascii "/w/a"] := by
    decide
  have safe : SafeCall oneFile (txBegin oneFile {} {} [fileWrite] (ascii "/w"))
      (writeCall (ascii "one")) := by
    refine ⟨by decide, fun _ _ => rfl, fun path named => ?_, ?_, fun _ _ => rfl⟩
    · obtain rfl := List.mem_singleton.mp (paths ▸ named)
      refine ⟨by decide, by decide, rfl, fun bytes found => ?_⟩
      have zero : oneFile.node (ascii "/w/a") = some (.file (ascii "zero")) := by decide
      obtain rfl := Node.file.inj (Option.some.inj (zero.symm.trans found))
      exact ⟨by decide, by decide, .inr ⟨rfl, rfl⟩⟩
    · intro first firstNamed second secondNamed bytes others found found' _
      obtain rfl := List.mem_singleton.mp (paths ▸ firstNamed)
      obtain rfl := List.mem_singleton.mp (paths ▸ secondNamed)
      exact Node.file.inj (Option.some.inj (found.symm.trans found'))
  exact rollback_restores (by decide) rfl (Machine.Run.single ⟨safe, rfl⟩)
    ⟨_, List.mem_singleton_self _, by decide⟩ (.inr ⟨by decide, by decide⟩)

end CognitiveOs.Transactions
