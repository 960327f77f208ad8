import CognitiveOs.Snapshot.Model

/-!
# The two ways of restoring an entry

`snapshot_restore` replays every capture of an entry; `snapshot_restore_files` puts
back the first capture of each path it is given and stops at the first failure.
-/

namespace CognitiveOs.Snapshots

open Infra Os

/-- `paths` lists the paths of the captures of an entry that are not skipped, once each. -/
structure Covers (entry : SnapshotEntry) (paths : List Text) : Prop where
  nodup : paths.Nodup
  mem_iff : ∀ path, path ∈ paths ↔
    ∃ cap ∈ entry.files, cap.path = path ∧ (cap.existed && cap.skipped) = false

def firstState (c : Cow) (d : Disk) (entry : SnapshotEntry) (path : Text) :
    Option (Option Text) :=
  (findFile entry path).bind fun cap =>
    (said c cap).filter fun state => accepts (d.writable path) (d.node path) state

def lastNode (c : Cow) (d : Disk) (entry : SnapshotEntry) (path : Text) : Option Node :=
  settled (d.writable path) (d.node path) (statements c entry.files path)

/-- Up to the first path whose first capture cannot be put back, the first capture says
what the last one does; from there on, nothing is left to restore. -/
def FirstIsLast (c : Cow) (d : Disk) (entry : SnapshotEntry) : List Text → Prop
  | [] => True
  | path :: paths =>
    match firstState c d entry path with
    | some state => nodeOf state = lastNode c d entry path ∧ FirstIsLast c d entry paths
    | none => ∀ other ∈ path :: paths, d.node other = lastNode c d entry other

/-- A request with a path that is empty or whose first capture is skipped restores
nothing, so nothing may be left to restore. -/
def RestoresAgree (c : Cow) (d : Disk) (entry : SnapshotEntry) (paths : List Text) : Prop :=
  if ∀ path ∈ paths, restorable entry path then FirstIsLast c d entry paths
  else ∀ path ∈ paths, d.node path = lastNode c d entry path

variable {c : Cow} {d : Disk} {entry : SnapshotEntry}

variable {path : Text}

theorem restoreListed_cons (paths : List Text) (restored : Int) (acceptable : restorable entry path) :
    restoreListed c entry (path :: paths) d restored =
      match firstState c d entry path with
      | some state => restoreListed c entry paths (setNode d path (nodeOf state)) (restored + 1)
      | none => (-1, d) := by
  simp only [restorable, Bool.and_eq_true] at acceptable
  cases found : findFile entry path with
  | none => simp [found] at acceptable
  | some cap =>
    have here : cap.path = path := by simpa using List.find?_some found
    have free := acceptable.2
    rw [found, Option.any_some, Bool.not_eq_true'] at free
    subst here
    simp only [restoreListed, firstState, found, restoreFile_eq free, Option.bind_some]
    cases said c cap with
    | none => rfl
    | some state =>
      by_cases accepted : accepts (d.writable cap.path) (d.node cap.path) state = true <;>
        simp [Option.filter, accepted]

variable {paths : List Text}

theorem restoreListed_other (restored : Int) (acceptable : ∀ path ∈ paths, restorable entry path)
    (outside : path ∉ paths) : (restoreListed c entry paths d restored).2.node path = d.node path := by
  induction paths generalizing d restored with
  | nil => rfl
  | cons first paths ih =>
    obtain ⟨distinct, outside⟩ : path ≠ first ∧ path ∉ paths := by simpa using outside
    obtain ⟨usable, acceptable⟩ := List.forall_mem_cons.mp acceptable
    rw [restoreListed_cons paths restored usable]
    split
    · rw [ih _ acceptable outside]
      simp [Function.update_of_ne distinct]
    · rfl

theorem firstIsLast_setNode (node : Option Node) (outside : path ∉ paths) :
    FirstIsLast c (setNode d path node) entry paths ↔ FirstIsLast c d entry paths := by
  have same (other : Text) (member : other ∈ paths) :
      (setNode d path node).node other = d.node other := by
    have distinct : other ≠ path := fun equal => outside (equal ▸ member)
    simp [Function.update_of_ne distinct]
  induction paths with
  | nil => rfl
  | cons first paths ih =>
    obtain ⟨here, rest⟩ := List.forall_mem_cons.mp same
    have state : firstState c (setNode d path node) entry first = firstState c d entry first := by
      simp only [firstState, here, setNode_writable]
    have last (other : Text) (member : other ∈ first :: paths) :
        lastNode c (setNode d path node) entry other = lastNode c d entry other := by
      simp only [lastNode, same other member, setNode_writable]
    simp only [FirstIsLast, state, last first List.mem_cons_self]
    split
    · exact and_congr_right fun _ => ih (fun inside => outside (List.mem_cons_of_mem _ inside)) rest
    · constructor
      · intro settled other member
        rw [← same other member, settled other member, last other member]
      · intro settled other member
        rw [same other member, settled other member, last other member]

theorem restoreListed_iff (restored : Int) (nodup : paths.Nodup) (acceptable : ∀ path ∈ paths, restorable entry path) :
    (∀ path ∈ paths, (restoreListed c entry paths d restored).2.node path =
      lastNode c d entry path) ↔ FirstIsLast c d entry paths := by
  induction paths generalizing d restored with
  | nil => simp [FirstIsLast]
  | cons first paths ih =>
    obtain ⟨fresh, nodup⟩ := List.nodup_cons.mp nodup
    obtain ⟨usable, acceptable⟩ := List.forall_mem_cons.mp acceptable
    rw [restoreListed_cons paths restored usable, FirstIsLast]
    split
    next state found =>
      rw [← firstIsLast_setNode (nodeOf state) fresh,
        ← ih (d := setNode d first (nodeOf state)) (restored + 1) nodup acceptable,
        List.forall_mem_cons, restoreListed_other _ acceptable fresh]
      have last (other : Text) (member : other ∈ paths) :
          lastNode c (setNode d first (nodeOf state)) entry other = lastNode c d entry other := by
        have distinct : other ≠ first := fun equal => fresh (equal ▸ member)
        simp [lastNode, Function.update_of_ne distinct]
      simp +contextual only [setNode_node, Function.update_self, last]
    next => rfl

theorem statements_eq_nil (covers : Covers entry paths) (outside : path ∉ paths) :
    statements c entry.files path = [] := by
  refine List.filterMap_eq_nil_iff.mpr fun cap member => ?_
  obtain ⟨captured, here⟩ := List.mem_filter.mp member
  have skipped : (cap.existed && cap.skipped) = true := by
    by_contra usable
    exact outside ((covers.mem_iff path).mpr
      ⟨cap, captured, of_decide_eq_true here, by simpa using usable⟩)
  simp [said, skipped]

theorem lastNode_of_not_mem (covers : Covers entry paths) (outside : path ∉ paths) :
    lastNode c d entry path = d.node path := by
  rw [lastNode, statements_eq_nil covers outside]
  cases d.writable path <;> rcases d.node path with _ | ⟨bytes⟩ | ⟨_ | _⟩ <;> rfl

/-- The two ways of restoring an entry leave the same files exactly when the first and
the last capture of each path agree on what is left to restore. -/
theorem restores_agree_iff {s : Snapshot} {id : Text} {paths : List Text}
    (named : findEntry s id = some entry) (identified : id ≠ []) (covers : Covers entry paths) :
    (snapshotRestoreFiles s c d id paths).2.node = (snapshotRestore s c d id).2.node ↔
      RestoresAgree c d entry paths := by
  have replayed : (snapshotRestore s c d id).2.node = lastNode c d entry := by
    funext path
    simp only [snapshotRestore, named]
    exact restoreEntry_node c d entry.files path
  rw [replayed, snapshotRestoreFiles, if_pos identified, named, RestoresAgree]
  by_cases acceptable : ∀ path ∈ paths, restorable entry path
  · rw [if_pos acceptable, ← restoreListed_iff 0 covers.nodup acceptable, funext_iff]
    have listed : (if paths = [] ∨ ∃ path ∈ paths, !restorable entry path then ((-1 : Int), d)
        else restoreListed c entry paths d 0).2 = (restoreListed c entry paths d 0).2 := by
      by_cases empty : paths = []
      · subst empty
        rfl
      · rw [if_neg]
        simpa [empty] using acceptable
    simp only [listed]
    refine ⟨fun agree path _ => agree path, fun agree path => ?_⟩
    by_cases inside : path ∈ paths
    · exact agree path inside
    · rw [restoreListed_other 0 acceptable inside, lastNode_of_not_mem covers inside]
  · have rejected : paths = [] ∨ ∃ path ∈ paths, !restorable entry path :=
      .inr (by simpa using acceptable)
    rw [if_neg acceptable, funext_iff]
    simp only [if_pos rejected]
    refine ⟨fun agree path _ => agree path, fun agree path => ?_⟩
    by_cases inside : path ∈ paths
    · exact agree path inside
    · rw [lastNode_of_not_mem covers inside]

def capturedTwice : Snapshot × Cow :=
  let before := setNode {} (ascii "/w/a") (some (.file (ascii "one")))
  let after := setNode before (ascii "/w/a") (some (.file (ascii "two")))
  let (s, c) := snapshotCapture {} before {} (ascii "/w/a")
  let (s, c) := snapshotCapture s after c (ascii "/w/a")
  (snapshotCommit s (ascii "s1"), c)

def entryTwice : SnapshotEntry where
  id := ascii "s1"
  files :=
    [{ path := ascii "/w/a", hash := hashOf (ascii "one"), existed := true },
      { path := ascii "/w/a", hash := hashOf (ascii "two"), existed := true }]

theorem covers_twice : Covers entryTwice [ascii "/w/a"] := by
  refine ⟨by simp, fun path => ⟨fun member => ?_, ?_⟩⟩
  · obtain rfl := List.mem_singleton.mp member
    exact ⟨_, List.mem_cons_self, rfl, rfl⟩
  · rintro ⟨cap, captured, rfl, -⟩
    simp only [entryTwice, List.mem_cons, List.not_mem_nil, or_false] at captured
    rcases captured with rfl | rfl <;> exact List.mem_singleton.mpr rfl

theorem restores_agree_fails :
    ¬ ∀ (s : Snapshot) (c : Cow) (d : Disk) (id : Text) (entry : SnapshotEntry)
      (paths : List Text), findEntry s id = some entry → id ≠ [] → Covers entry paths →
      (snapshotRestoreFiles s c d id paths).2.node = (snapshotRestore s c d id).2.node := by
  intro agree
  have same := congrFun (agree capturedTwice.1 capturedTwice.2 {} (ascii "s1") entryTwice
    [ascii "/w/a"] (by rfl) (by decide) covers_twice) (ascii "/w/a")
  revert same
  decide

/-- The file comes back as it was first through the one path, as it was last through
the other. -/
theorem restores_agree_iff_twice :
    ¬ RestoresAgree capturedTwice.2 {} entryTwice [ascii "/w/a"] := by
  intro agree
  have named : findEntry capturedTwice.1 (ascii "s1") = some entryTwice := rfl
  have same := congrFun ((restores_agree_iff named (by decide) covers_twice).mpr agree)
    (ascii "/w/a")
  revert same
  decide

end CognitiveOs.Snapshots
