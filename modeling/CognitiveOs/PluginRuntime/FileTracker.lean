import CognitiveOs.Os.World
import Mathlib.Data.List.Induction

/-!
# The sandbox and the files that a command touches

`sandbox.c` and `filetracker.c`: which commands are refused, and what is recorded of the files they
read, write and delete, from their words and from two scans of the workspace.
-/

namespace CognitiveOs.PluginRuntime

open Infra Os

/-- `struct filetracker`: the paths with their operations, the latest path first. -/
abbrev FileTracker := List (Text × Nat)

namespace FileTracker

def ftRead : Nat := 1

def ftWrite : Nat := 2

def ftDelete : Nat := 4

def ops (ft : FileTracker) (path : Text) : Nat :=
  match ft.find? fun e => e.1 = path with
  | some e => e.2
  | none => 0

def merge (path : Text) (ops : Nat) : FileTracker → FileTracker
  | [] => []
  | e :: rest => if e.1 = path then (e.1, e.2 ||| ops) :: rest else e :: merge path ops rest

/-- `filetracker_record`, where memory is left. -/
def record (ft : FileTracker) (path : Text) (ops : Nat) : FileTracker :=
  if path = [] ∨ ops = 0 then ft
  else if path ∈ ft.map Prod.fst then merge path ops ft
  else if ft.length < 4096 then (path, ops) :: ft
  else ft

/-! ### Two scans of the workspace -/

/-- A snapshot: the files with their sizes. -/
abbrev Snapshot := List (Text × Int)

def snapAdd (s : Snapshot) (path : Text) (size : Int) : Snapshot :=
  if 8192 ≤ s.length then s else s ++ [(path, size)]

/-- `scan_dir`, with the depths that are left. -/
def scanDir (w : World) : Nat → Snapshot → Text → Snapshot
  | 0, s, _ => s
  | left + 1, s, dir =>
    match w.entries dir with
    | none => s
    | some items =>
      items.foldl (fun s item =>
        if 8192 ≤ s.length then s
        else
          let full := snprintf 1024 (dir ++ slash :: item.1)
          if item.2 then scanDir w left s full
          else if 0 ≤ w.fsFileSize full then snapAdd s full (w.fsFileSize full)
          else s) s

def dirSnapshot (w : World) (dir : Text) : Snapshot :=
  if dir ≠ [] ∧ w.fsIsDir dir then scanDir w 9 [] dir else []

/-- The size under a path that `snap_find` finds. -/
def sizeIn (s : Snapshot) (path : Text) : Option Int :=
  (s.find? fun e => e.1 = path).map Prod.snd

/-- The records of `filetracker_dir_diff`, in their order. -/
def changes (before after : Snapshot) : List (Text × Nat) :=
  ((after.filter fun e => sizeIn before e.1 ≠ some e.2).map fun e => (e.1, ftWrite)) ++
    (before.filter fun e => (sizeIn after e.1).isNone).map fun e => (e.1, ftDelete)

/-! ### The words of a command -/

def isSeparator (b : UInt8) : Bool :=
  b = 32 ∨ b = 9 ∨ b = 10 ∨ b = 34 ∨ b = 39

/-- The words between separators, with fuel. -/
def words : Nat → Text → List Text
  | 0, _ => []
  | fuel + 1, cmd =>
    match cmd.dropWhile isSeparator with
    | [] => []
    | b :: rest =>
      (b :: rest).takeWhile (!isSeparator ·) :: words fuel ((b :: rest).dropWhile (!isSeparator ·))

/-- The path under which `record_if_exists` records a word. -/
def readPath (w : World) (workspace token : Text) : Option Text :=
  if w.fsExists token then some token
  else
    let full := snprintf 1024 (workspace ++ slash :: token)
    if workspace ≠ [] ∧ w.fsExists full then some full else none

/-- The records of `filetracker_cmd_reads`, in their order. -/
def reads (w : World) (workspace cmd : Text) : List (Text × Nat) :=
  (((words cmd.length cmd).filter fun t => 2 ≤ t.length ∧ t.length < 512).filterMap (readPath w workspace)).map
    fun path => (path, ftRead)

def recordAll (ft : FileTracker) (records : List (Text × Nat)) : FileTracker :=
  records.foldl (fun ft r => ft.record r.1 r.2) ft

end FileTracker

/-! ### The sandbox -/

def forbidden : List String :=
  ["rm -rf", "rm -fr", "mkfs", "format c:", "shutdown", "reboot", "dd if=", ":()\x7b", "fork bomb", "del /s",
    "del /q", "rd /s", "> /dev/sda", "chmod 777 /", "sudo rm", "del /f /s"]

def toLower (b : UInt8) : UInt8 :=
  if 65 ≤ b ∧ b ≤ 90 then b + 32 else b

def ciContains (hay needle : Text) : Bool :=
  if needle.length = 0 ∨ hay.length < needle.length then false
  else
    (List.range (hay.length - needle.length + 1)).any fun i =>
      (List.range needle.length).all fun j => (hay[i + j]?).map toLower = (needle[j]?).map toLower

def sandboxForbidden (cmd : Text) : Bool :=
  forbidden.any fun needle => ciContains cmd (ascii needle)

open FileTracker

/-- `sandbox_run` of a sandbox with a tracker: `proc_run` may change the world, or not start the
command. The answer is whether the command was run. -/
def sandboxRun (ft : FileTracker) (workspace cmd : Text) (w : World) (procRun : World → Option World) :
    Bool × FileTracker :=
  if sandboxForbidden cmd then (false, ft)
  else
    let ft := recordAll ft (reads w workspace cmd)
    match procRun w with
    | none => (false, ft)
    | some after => (true, recordAll ft (changes (dirSnapshot w workspace) (dirSnapshot after workspace)))

namespace FileTracker

/-! ### Records -/

theorem map_merge (path : Text) (o : Nat) (ft : FileTracker) : (merge path o ft).map Prod.fst = ft.map Prod.fst := by
  induction ft with
  | nil => rfl
  | cons e rest ih =>
    unfold merge
    split
    · rfl
    · rw [List.map_cons, ih, List.map_cons]

theorem ops_cons (e : Text × Nat) (ft : FileTracker) (path : Text) :
    ops (e :: ft) path = if e.1 = path then e.2 else ops ft path := by
  unfold ops
  rw [List.find?_cons]
  by_cases same : e.1 = path <;> simp [same]

theorem ops_merge {path : Text} {ft : FileTracker} (known : path ∈ ft.map Prod.fst) (o : Nat) (other : Text) :
    ops (merge path o ft) other = if path = other then ops ft other ||| o else ops ft other := by
  induction ft with
  | nil => cases known
  | cons e rest ih =>
    unfold merge
    by_cases here : e.1 = path
    · subst here
      rw [if_pos rfl, ops_cons, ops_cons]
      split <;> rfl
    · rw [if_neg here, ops_cons, ops_cons, ih ((List.mem_cons.mp known).resolve_left (Ne.symm here))]
      by_cases there : e.1 = other
      · rw [if_pos there, if_neg fun same => here (there.trans same.symm), if_pos there]
      · rw [if_neg there, if_neg there]

theorem ops_eq_zero {path : Text} {ft : FileTracker} (unknown : path ∉ ft.map Prod.fst) : ops ft path = 0 := by
  induction ft with
  | nil => rfl
  | cons e rest ih =>
    rw [List.map_cons, List.mem_cons, not_or] at unknown
    rw [ops_cons, if_neg (Ne.symm unknown.1), ih unknown.2]

theorem length_record (ft : FileTracker) (path : Text) (o : Nat) : ft.length ≤ (ft.record path o).length := by
  unfold record
  split
  · exact Nat.le_refl _
  · split
    · rw [← List.length_map (f := Prod.fst), ← List.length_map (f := Prod.fst), map_merge]
    · split
      · exact Nat.le_succ _
      · exact Nat.le_refl _

theorem ops_record {ft : FileTracker} (room : ft.length < 4096) {path : Text} (named : path ≠ []) {o : Nat}
    (some_op : o ≠ 0) (other : Text) :
    ops (ft.record path o) other = if path = other then ops ft other ||| o else ops ft other := by
  unfold record
  rw [if_neg (not_or.mpr ⟨named, some_op⟩)]
  by_cases known : path ∈ ft.map Prod.fst
  · rw [if_pos known, ops_merge known]
  · rw [if_neg known, if_pos room, ops_cons]
    split
    · rename_i same
      rw [← same, ops_eq_zero known, Nat.zero_or]
    · rfl

/-- A tracker with room left has everything that was recorded, and nothing else. -/
theorem recordAll_bit {records : List (Text × Nat)} (clean : ∀ r ∈ records, r.1 ≠ [] ∧ r.2 ≠ 0)
    (room : (recordAll [] records).length < 4096) (path : Text) (bit : Nat) :
    (ops (recordAll [] records) path).testBit bit = true ↔ ∃ r ∈ records, r.1 = path ∧ r.2.testBit bit = true := by
  induction records using List.reverseRecOn with
  | nil => simp [recordAll, ops]
  | append_singleton records r ih =>
    have old {p : Text × Nat} (member : p ∈ records) : p ∈ records ++ [r] := List.mem_append_left _ member
    obtain ⟨named, some_op⟩ := clean r (List.mem_append_right _ (List.mem_singleton_self r))
    have snoc : recordAll [] (records ++ [r]) = (recordAll [] records).record r.1 r.2 := List.foldl_append
    rw [snoc] at room ⊢
    have before := Nat.lt_of_le_of_lt (length_record ..) room
    have bits := ih (fun p member => clean p (old member)) before
    rw [ops_record before named some_op]
    split
    · rename_i same
      rw [Nat.testBit_or, Bool.or_eq_true, bits]
      simp [List.mem_append, or_and_right, exists_or, same]
    · rename_i differs
      rw [bits]
      simp [List.mem_append, or_and_right, exists_or, differs]

/-! ### Snapshots -/

/-- The files that a scan without a bound on its entries finds. -/
def files (w : World) : Nat → Text → Snapshot
  | 0, _ => []
  | left + 1, dir =>
    match w.entries dir with
    | none => []
    | some items =>
      items.flatMap fun item =>
        let full := snprintf 1024 (dir ++ slash :: item.1)
        if item.2 then files w left full
        else if 0 ≤ w.fsFileSize full then [(full, w.fsFileSize full)]
        else []

theorem take_append_take (n : Nat) (s t : Snapshot) : (s.take n ++ t).take n = (s ++ t).take n := by
  rw [List.take_append, List.take_append, List.take_take, List.length_take, Nat.min_self]
  congr 2
  omega

theorem scanDir_eq (w : World) (left : Nat) {s : Snapshot} (fits : s.length ≤ 8192) (dir : Text) :
    scanDir w left s dir = (s ++ files w left dir).take 8192 := by
  induction left generalizing s dir with
  | zero => rw [scanDir, files, List.append_nil, List.take_of_length_le fits]
  | succ left ih =>
    unfold scanDir files
    cases w.entries dir with
    | none => exact (by rw [List.append_nil, List.take_of_length_le fits] : s = (s ++ []).take 8192)
    | some items =>
      dsimp only
      induction items generalizing s with
      | nil => exact (by rw [List.append_nil, List.take_of_length_le fits] : s = (s ++ []).take 8192)
      | cons item items rest =>
        rw [List.foldl_cons, List.flatMap_cons, ← List.append_assoc]
        generalize snprintf 1024 (dir ++ slash :: item.1) = full
        have one : (if 8192 ≤ s.length then s
            else if item.2 then scanDir w left s full
            else if 0 ≤ w.fsFileSize full then snapAdd s full (w.fsFileSize full)
            else s) =
            (s ++ if item.2 then files w left full
              else if 0 ≤ w.fsFileSize full then [(full, w.fsFileSize full)] else []).take 8192 := by
          split
          · rw [List.take_append_of_le_length ‹_›, List.take_of_length_le fits]
          · split
            · exact ih fits full
            · split
              · rw [snapAdd, if_neg ‹_›, List.take_of_length_le]
                rw [List.length_append, List.length_singleton]
                omega
              · rw [List.append_nil, List.take_of_length_le fits]
        rw [one, rest (List.length_take_le ..), take_append_take]

/-- The paths of the files below a directory, not deeper than some directories. -/
inductive Under (w : World) : Nat → Text → Text → Prop where
  | file {left : Nat} {dir name : Text} {items : List (Text × Bool)} : w.entries dir = some items →
      (name, false) ∈ items → 0 ≤ w.fsFileSize (snprintf 1024 (dir ++ slash :: name)) →
      Under w (left + 1) dir (snprintf 1024 (dir ++ slash :: name))
  | dir {left : Nat} {dir name path : Text} {items : List (Text × Bool)} : w.entries dir = some items →
      (name, true) ∈ items → Under w left (snprintf 1024 (dir ++ slash :: name)) path →
      Under w (left + 1) dir path

theorem mem_files (w : World) (left : Nat) (dir path : Text) (size : Int) :
    (path, size) ∈ files w left dir ↔ Under w left dir path ∧ size = w.fsFileSize path := by
  constructor
  · intro member
    induction left generalizing dir with
    | zero => cases member
    | succ left ih =>
      unfold files at member
      split at member
      · cases member
      · rename_i items here
        obtain ⟨⟨name, isDir⟩, item, inside⟩ := List.mem_flatMap.mp member
        cases isDir with
        | true =>
          obtain ⟨under, same⟩ := ih _ inside
          exact ⟨.dir here item under, same⟩
        | false =>
          simp only [Bool.false_eq_true, if_false] at inside
          split at inside
          · obtain ⟨rfl, rfl⟩ := Prod.mk.inj (List.mem_singleton.mp inside)
            exact ⟨.file here item ‹_›, rfl⟩
          · cases inside
  · rintro ⟨under, rfl⟩
    induction under with
    | file here item size =>
      rw [files, here]
      refine List.mem_flatMap.mpr ⟨_, item, ?_⟩
      simp only [Bool.false_eq_true, if_false, if_pos size]
      exact List.mem_singleton_self _
    | dir here item _ ih =>
      rw [files, here]
      refine List.mem_flatMap.mpr ⟨_, item, ?_⟩
      simpa only [if_true] using ih

theorem under_ne_nil {w : World} {left : Nat} {dir path : Text} (under : Under w left dir path) : path ≠ [] := by
  induction under with
  | file =>
    intro empty
    simpa [snprintf] using congrArg List.length empty
  | dir _ _ _ ih => exact ih

/-- A file below the workspace. -/
def InTree (w : World) (workspace path : Text) : Prop :=
  workspace ≠ [] ∧ w.fsIsDir workspace = true ∧ Under w 9 workspace path

theorem mem_dirSnapshot {w : World} {workspace : Text} (whole : (dirSnapshot w workspace).length < 8192)
    (path : Text) (size : Int) :
    (path, size) ∈ dirSnapshot w workspace ↔ InTree w workspace path ∧ size = w.fsFileSize path := by
  unfold dirSnapshot at whole ⊢
  split at whole
  · rename_i valid
    rw [if_pos valid, scanDir_eq w 9 (by decide), List.nil_append] at *
    rw [List.length_take] at whole
    rw [List.take_of_length_le (by omega), mem_files]
    simp [InTree, valid.1, valid.2]
  · rename_i invalid
    rw [if_neg invalid]
    simp only [List.not_mem_nil, InTree, false_iff]
    exact fun here => invalid ⟨here.1.1, here.1.2.1⟩

theorem sizeIn_dirSnapshot {w : World} {workspace : Text} (whole : (dirSnapshot w workspace).length < 8192)
    (path : Text) (size : Int) :
    sizeIn (dirSnapshot w workspace) path = some size ↔ InTree w workspace path ∧ size = w.fsFileSize path := by
  have mem := mem_dirSnapshot whole path
  unfold sizeIn
  constructor
  · intro found
    obtain ⟨⟨path', size'⟩, hit, rfl⟩ := Option.map_eq_some_iff.mp found
    obtain rfl : path' = path := by simpa using List.find?_some hit
    exact (mem _).mp (List.mem_of_find?_eq_some hit)
  · rintro ⟨inTree, rfl⟩
    have here := (mem _).mpr ⟨inTree, rfl⟩
    cases found : (dirSnapshot w workspace).find? fun e => e.1 = path with
    | none => exact absurd (List.find?_eq_none.mp found _ here) (by simp)
    | some e =>
      obtain ⟨path', size'⟩ := e
      obtain rfl : path' = path := by simpa using List.find?_some found
      exact congrArg some ((mem _).mp (List.mem_of_find?_eq_some found)).2

end FileTracker

/-- A command, the world when it starts, and the world when it has ended if it was started. -/
structure Command where
  cmd : Text
  before : World
  after : Option World

/-- What one command records, in this order. -/
def Command.records (workspace : Text) (c : Command) : List (Text × Nat) :=
  if sandboxForbidden c.cmd then []
  else
    reads c.before workspace c.cmd ++
      match c.after with
      | none => []
      | some after => changes (dirSnapshot c.before workspace) (dirSnapshot after workspace)

/-- The tracker of a new sandbox after some commands. -/
def trackerOf (workspace : Text) (commands : List Command) : FileTracker :=
  commands.foldl (fun ft c => (sandboxRun ft workspace c.cmd c.before fun _ => c.after).2) []

theorem trackerOf_eq (workspace : Text) (commands : List Command) :
    trackerOf workspace commands = recordAll [] (commands.flatMap (Command.records workspace)) := by
  induction commands using List.reverseRecOn with
  | nil => rfl
  | append_singleton commands c ih =>
    rw [trackerOf, List.foldl_append, ← trackerOf, ih, List.flatMap_append, recordAll, recordAll, List.foldl_append,
      List.flatMap_cons, List.flatMap_nil, List.append_nil]
    show (sandboxRun _ _ _ _ _).2 = _
    unfold sandboxRun Command.records
    split
    · rfl
    · cases c.after with
      | none => rw [List.append_nil]; rfl
      | some after => rw [List.foldl_append]; rfl

namespace Command

variable (workspace : Text) (c : Command) (path : Text)

/-- A word of the command names a file. -/
def Reads : Prop :=
  sandboxForbidden c.cmd = false ∧ ∃ token ∈ words c.cmd.length c.cmd, 2 ≤ token.length ∧ token.length < 512 ∧
    readPath c.before workspace token = some path

/-- A file that is new or has another size. -/
def Writes : Prop :=
  sandboxForbidden c.cmd = false ∧ ∃ after, c.after = some after ∧ InTree after workspace path ∧
    ¬ (InTree c.before workspace path ∧ c.before.fsFileSize path = after.fsFileSize path)

def Deletes : Prop :=
  sandboxForbidden c.cmd = false ∧ ∃ after, c.after = some after ∧ InTree c.before workspace path ∧
    ¬ InTree after workspace path

/-- Both scans of the workspace are whole. -/
def Whole : Prop :=
  (dirSnapshot c.before workspace).length < 8192 ∧
    ∀ after, c.after = some after → (dirSnapshot after workspace).length < 8192

variable {workspace c path}

theorem mem_changes {after : World} (whole : (dirSnapshot c.before workspace).length < 8192)
    (whole' : (dirSnapshot after workspace).length < 8192) (o : Nat) :
    (path, o) ∈ changes (dirSnapshot c.before workspace) (dirSnapshot after workspace) ↔
      o = ftWrite ∧ InTree after workspace path ∧
          ¬ (InTree c.before workspace path ∧ c.before.fsFileSize path = after.fsFileSize path) ∨
        o = ftDelete ∧ InTree c.before workspace path ∧ ¬ InTree after workspace path := by
  have inBefore := sizeIn_dirSnapshot whole path
  have gone : sizeIn (dirSnapshot after workspace) path = none ↔ ¬ InTree after workspace path := by
    rw [Option.eq_none_iff_forall_ne_some]
    simp [sizeIn_dirSnapshot whole']
  unfold changes
  simp only [List.mem_append, List.mem_map, List.mem_filter, Prod.exists, Prod.mk.injEq, decide_eq_true_eq,
    Option.isNone_iff_eq_none]
  refine or_congr ⟨?_, ?_⟩ ⟨?_, ?_⟩
  · rintro ⟨p, size, ⟨member, other⟩, rfl, rfl⟩
    obtain ⟨inTree, rfl⟩ := (mem_dirSnapshot whole' p size).mp member
    exact ⟨rfl, inTree, fun ⟨old, same⟩ => other ((inBefore _).mpr ⟨old, same.symm⟩)⟩
  · rintro ⟨rfl, inTree, other⟩
    refine ⟨path, _, ⟨(mem_dirSnapshot whole' path _).mpr ⟨inTree, rfl⟩, fun same => other ?_⟩, rfl, rfl⟩
    obtain ⟨old, size⟩ := (inBefore _).mp same
    exact ⟨old, size.symm⟩
  · rintro ⟨p, size, ⟨member, absent⟩, rfl, rfl⟩
    exact ⟨rfl, ((mem_dirSnapshot whole p size).mp member).1, gone.mp absent⟩
  · rintro ⟨rfl, inTree, absent⟩
    exact ⟨path, _, ⟨(mem_dirSnapshot whole path _).mpr ⟨inTree, rfl⟩, gone.mpr absent⟩, rfl, rfl⟩

theorem mem_records (whole : c.Whole workspace) (o : Nat) :
    (path, o) ∈ c.records workspace ↔
      o = ftRead ∧ c.Reads workspace path ∨ o = ftWrite ∧ c.Writes workspace path ∨
        o = ftDelete ∧ c.Deletes workspace path := by
  unfold records Reads Writes Deletes
  cases allowed : sandboxForbidden c.cmd with
  | true => simp
  | false =>
    have reading : (path, o) ∈ reads c.before workspace c.cmd ↔
        o = ftRead ∧ ∃ token ∈ words c.cmd.length c.cmd, 2 ≤ token.length ∧ token.length < 512 ∧
          readPath c.before workspace token = some path := by
      unfold reads
      simp only [List.mem_map, List.mem_filterMap, List.mem_filter, Prod.mk.injEq, decide_eq_true_eq]
      constructor
      · rintro ⟨p, ⟨token, ⟨word, long, short⟩, found⟩, rfl, rfl⟩
        exact ⟨rfl, token, word, long, short, found⟩
      · rintro ⟨rfl, token, word, long, short, found⟩
        exact ⟨path, ⟨token, ⟨word, long, short⟩, found⟩, rfl, rfl⟩
    cases ended : c.after with
    | none => simp [reading]
    | some after =>
      simp only [Bool.false_eq_true, if_false, List.mem_append, reading, mem_changes whole.1 (whole.2 after ended),
        Option.some.injEq, true_and, exists_eq_left']

theorem clean_records (whole : c.Whole workspace) : ∀ r ∈ c.records workspace, r.1 ≠ [] ∧ r.2 ≠ 0 := by
  rintro ⟨path, o⟩ member
  rcases (mem_records whole o).mp member with ⟨rfl, -, token, -, long, -, found⟩ | ⟨rfl, -, after, -, inTree, -⟩ |
    ⟨rfl, -, after, -, inTree, -⟩
  · refine ⟨fun empty => ?_, Nat.one_ne_zero⟩
    subst empty
    unfold readPath at found
    split at found
    · obtain rfl := Option.some.inj found
      cases long
    · obtain ⟨-, same⟩ := Option.ite_none_right_eq_some.mp found
      simpa [snprintf] using congrArg List.length (Option.some.inj same)
  · exact ⟨under_ne_nil inTree.2.2, Nat.succ_ne_zero _⟩
  · exact ⟨under_ne_nil inTree.2.2, Nat.succ_ne_zero _⟩

end Command

/-- While the tracker and the scans stay below their bounds, a path is marked as read, written or
deleted exactly when a command that was not refused has done so. -/
theorem sandbox_tracks {workspace : Text} {commands : List Command}
    (room : (trackerOf workspace commands).length < 4096) (whole : ∀ c ∈ commands, c.Whole workspace) (path : Text) :
    ((ops (trackerOf workspace commands) path).testBit 0 = true ↔ ∃ c ∈ commands, c.Reads workspace path) ∧
      ((ops (trackerOf workspace commands) path).testBit 1 = true ↔ ∃ c ∈ commands, c.Writes workspace path) ∧
      ((ops (trackerOf workspace commands) path).testBit 2 = true ↔ ∃ c ∈ commands, c.Deletes workspace path) := by
  have clean : ∀ r ∈ commands.flatMap (Command.records workspace), r.1 ≠ [] ∧ r.2 ≠ 0 := by
    intro r member
    obtain ⟨c, here, member⟩ := List.mem_flatMap.mp member
    exact Command.clean_records (whole c here) r member
  rw [trackerOf_eq] at room ⊢
  have bits (bit : Nat) : (ops (recordAll [] (commands.flatMap (Command.records workspace))) path).testBit bit = true ↔
      ∃ c ∈ commands, ∃ o, (o = ftRead ∧ c.Reads workspace path ∨ o = ftWrite ∧ c.Writes workspace path ∨
        o = ftDelete ∧ c.Deletes workspace path) ∧ o.testBit bit = true := by
    rw [recordAll_bit clean room]
    constructor
    · rintro ⟨⟨p, o⟩, member, rfl, set⟩
      obtain ⟨c, here, member⟩ := List.mem_flatMap.mp member
      exact ⟨c, here, o, (Command.mem_records (whole c here) o).mp member, set⟩
    · rintro ⟨c, here, o, why, set⟩
      exact ⟨(path, o), List.mem_flatMap.mpr ⟨c, here, (Command.mem_records (whole c here) o).mpr why⟩, rfl, set⟩
  refine ⟨(bits 0).trans ?_, (bits 1).trans ?_, (bits 2).trans ?_⟩ <;>
    simp [or_and_right, exists_or, ftRead, ftWrite, ftDelete, Nat.testBit]

/-- The workspace `w` with one file in it. -/
def worldWith (name : Text) : World where
  stat path :=
    if path = [119] then some { ino := 1, size := 0, mtimeSec := 0, ctimeSec := 0, isDir := true }
    else if path = 119 :: 47 :: name then some { ino := 2, size := 3, mtimeSec := 0, ctimeSec := 0 }
    else none
  entries path := if path = [119] then some [(name, false)] else none

/-- `w/a` is moved to `w/b`. -/
def moving : Command where
  cmd := ascii "mv w/a w/b"
  before := worldWith [97]
  after := some (worldWith [98])

theorem sandbox_tracks_moving :
    (ops (trackerOf [119] [moving]) [119, 47, 98]).testBit 1 = true ↔
      ∃ c ∈ [moving], c.Writes [119] [119, 47, 98] := by
  have whole : ∀ c ∈ [moving], c.Whole [119] := by
    intro c here
    obtain rfl := List.mem_singleton.mp here
    refine ⟨by decide, fun after ended => ?_⟩
    obtain rfl := Option.some.inj ended
    decide
  exact (sandbox_tracks (by decide) whole _).2.1

end CognitiveOs.PluginRuntime
