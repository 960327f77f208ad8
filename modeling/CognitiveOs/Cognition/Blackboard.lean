import CognitiveOs.Foundation.Upsert
import CognitiveOs.Infra.Print
import CognitiveOs.Os.World
import Mathlib.Data.List.Induction

/-!
# The blackboard

`blackboard.c`: texts under keys that the agents share, mirrored to a file with every change and
restored from it at the next start.
-/

namespace CognitiveOs.Cognition.Blackboard

open Foundation.Upsert Infra Os

/-- A `kv`; the value may be `NULL`. -/
abbrev Item := Text × Option Text

/-- `struct blackboard`. -/
structure Board where
  items : List Item := []
  persistPath : Option Text := none

def members (items : List Item) : List (Text × Json) :=
  items.map fun item => (item.1, .string (item.2.getD []))

variable (number : Rat → Text)

def snapshotLocked (b : Board) : Text :=
  Json.print number (.object (members b.items))

/-- `save_locked`, which does not look at whether the file could be written. -/
def saveLocked (b : Board) (d : Disk) : Disk :=
  match b.persistPath with
  | none => d
  | some path => (fsWriteFile d path (snapshotLocked number b)).getD d

def blackboardPut (b : Board) (d : Disk) (key value : Option Text) : Board × Disk :=
  match key with
  | none => (b, d)
  | some key =>
    let b := { b with items := upsert Prod.fst (cstr key, value.map cstr) b.items }
    (b, saveLocked number b d)

def blackboardRemove (b : Board) (d : Disk) (key : Option Text) : Board × Disk :=
  match key with
  | none => (b, d)
  | some key =>
    if cstr key ∈ b.items.map Prod.fst then
      let b := { b with items := eraseKey Prod.fst (cstr key) b.items }
      (b, saveLocked number b d)
    else (b, d)

def blackboardSetPersist (b : Board) (path : Text) : Board :=
  { b with persistPath := if path = [] then none else some path }

/-- What `blackboard_load_json` makes of the members of an object. -/
def loadMembers (items : List Item) (members : List (Text × Json)) : List Item :=
  members.foldl (fun items member =>
    upsert Prod.fst (member.1, match member.2 with | .string value => some value | _ => none) items) items

def blackboardLoadJson (b : Board) (d : Disk) (path : Text) : Board :=
  if path = [] then b
  else
    match (fsReadFile d path).bind Cjson.parse with
    | some (.object members) => { b with items := loadMembers b.items members }
    | _ => b

/-- The start of the program: the board is restored from the file, then every change goes there. -/
def start (path : Text) (d : Disk) : Board :=
  blackboardSetPersist (blackboardLoadJson {} d path) path

inductive Label where
  | put (key value : Option Text)
  | remove (key : Option Text)
  /-- the program ends in some way and is started again -/
  | restart

def step (path : Text) (s : Board × Disk) : Label → Board × Disk
  | .put key value => blackboardPut number s.1 s.2 key value
  | .remove key => blackboardRemove number s.1 s.2 key
  | .restart => (start path s.2, s.2)

/-- The items that are restored. -/
def restored (items : List Item) : List Item :=
  items.map fun item => (item.1, some (item.2.getD []))

/-- The board of a program that is never restarted, but whose `NULL`s become empty texts then. -/
def expected (items : List Item) : Label → List Item
  | .put (some key) value => upsert Prod.fst (cstr key, value.map cstr) items
  | .remove (some key) => eraseKey Prod.fst (cstr key) items
  | .restart => restored items
  | _ => items

/-- The keys are distinct, and keys and values are C strings. -/
structure Sound (items : List Item) : Prop where
  distinct : (items.map Prod.fst).Nodup
  key : ∀ item ∈ items, 0 ∉ item.1
  value : ∀ item ∈ items, 0 ∉ item.2.getD []

theorem Sound.put {items : List Item} (sound : Sound items) (key : Text) (value : Option Text) :
    Sound (upsert Prod.fst (cstr key, value.map cstr) items) := by
  have clean : 0 ∉ (value.map cstr).getD [] := by
    cases value with
    | none => exact List.not_mem_nil
    | some value => exact not_mem_cstr value
  refine ⟨upsert_distinct _ _ sound.distinct, fun item member => ?_, fun item member => ?_⟩
  all_goals rcases (mem_upsert sound.distinct).mp member with rfl | ⟨old, -⟩
  · exact not_mem_cstr key
  · exact sound.key item old
  · exact clean
  · exact sound.value item old

theorem Sound.remove {items : List Item} (sound : Sound items) (key : Text) :
    Sound (eraseKey Prod.fst key items) := by
  have old := (eraseKey_sublist Prod.fst key items).subset
  exact ⟨eraseKey_distinct key sound.distinct, fun item member => sound.key item (old member),
    fun item member => sound.value item (old member)⟩

theorem plain_members {items : List Item} (key : ∀ item ∈ items, 0 ∉ item.1)
    (value : ∀ item ∈ items, 0 ∉ item.2.getD []) : Json.PlainMembers 0 (members items) := by
  induction items with
  | nil => exact .nil
  | cons item items ih =>
    obtain ⟨keyHere, key⟩ := List.forall_mem_cons.mp key
    obtain ⟨valueHere, value⟩ := List.forall_mem_cons.mp value
    exact .cons keyHere (.string valueHere) (ih key value)

theorem loadMembers_members (items : List Item) (distinct : (items.map Prod.fst).Nodup) :
    loadMembers [] (members items) = restored items := by
  induction items using List.reverseRecOn with
  | nil => rfl
  | append_singleton items item ih =>
    rw [List.map_append, List.nodup_append] at distinct
    have absent : item.1 ∉ (restored items).map Prod.fst := by
      rw [restored, List.map_map]
      exact fun member => distinct.2.2 _ member _ (List.mem_singleton_self _) rfl
    have before := ih distinct.1
    unfold loadMembers at before
    rw [members, List.map_append, loadMembers, List.foldl_append, ← members, before]
    have added := upsert_of_absent Prod.fst (item.1, some (item.2.getD [])) absent
    refine added.trans ?_
    rw [restored, restored, List.map_append]
    rfl

theorem members_restored (items : List Item) : members (restored items) = members items := by
  rw [members, restored, List.map_map]
  rfl

/-- The file holds the items of the board. -/
structure Mirrored (path : Text) (s : Board × Disk) : Prop where
  persisted : s.1.persistPath = some path
  sound : Sound s.1.items
  permitted : s.2.readable path = true ∧ s.2.writable path = true
  file : s.2.node path = some (.file (snapshotLocked number s.1)) ∨ s.2.node path = none ∧ s.1.items = []

variable {number} {path : Text} {s : Board × Disk}

theorem Mirrored.save (mirrored : Mirrored number path s) {items : List Item} (sound : Sound items) :
    Mirrored number path ({ s.1 with items }, saveLocked number { s.1 with items } s.2) := by
  obtain ⟨readable, writable⟩ := mirrored.permitted
  have file : fsIsDir s.2 path = false := by
    unfold fsIsDir
    rcases mirrored.file with here | ⟨absent, -⟩
    · rw [here]
    · rw [absent]
  have saved : saveLocked number { s.1 with items } s.2 =
      setNode s.2 path (some (.file (snapshotLocked number { s.1 with items }))) := by
    rw [saveLocked, mirrored.persisted]
    simp [fsWriteFile, file, writable]
  rw [saved]
  exact ⟨mirrored.persisted, sound, ⟨readable, writable⟩, .inl (Function.update_self ..)⟩

theorem Mirrored.restart (mirrored : Mirrored number path s) (named : path ≠ []) :
    start path s.2 = { items := restored s.1.items, persistPath := some path } := by
  have read : fsReadFile s.2 path = some (snapshotLocked number s.1) ∨
      fsReadFile s.2 path = none ∧ s.1.items = [] := by
    unfold fsReadFile
    rcases mirrored.file with here | ⟨absent, empty⟩
    · rw [here]
      exact .inl (if_pos mirrored.permitted.1)
    · rw [absent]
      exact .inr ⟨rfl, empty⟩
  rw [start, blackboardSetPersist, if_neg named, blackboardLoadJson, if_neg named]
  rcases read with saved | ⟨nothing, empty⟩
  · have plain := plain_members mirrored.sound.key mirrored.sound.value
    rw [saved, Option.bind_some, snapshotLocked, Cjson.parse_print number (.object plain) (by decide)]
    exact congrArg (Board.mk · _) (loadMembers_members _ mirrored.sound.distinct)
  · rw [nothing, empty]
    rfl

theorem Mirrored.step (mirrored : Mirrored number path s) (named : path ≠ []) (label : Label) :
    Mirrored number path (step number path s label) ∧
      (Blackboard.step number path s label).1.items = expected s.1.items label := by
  cases label with
  | put key value =>
    cases key with
    | none => exact ⟨mirrored, rfl⟩
    | some key => exact ⟨mirrored.save (mirrored.sound.put key value), rfl⟩
  | remove key =>
    cases key with
    | none => exact ⟨mirrored, rfl⟩
    | some key =>
      rw [Blackboard.step, blackboardRemove]
      split
      · exact ⟨mirrored.save (mirrored.sound.remove _), rfl⟩
      · rename_i absent
        exact ⟨mirrored, (eraseKey_of_absent absent).symm⟩
  | restart =>
    rw [Blackboard.step, mirrored.restart named]
    have sound := mirrored.sound
    refine ⟨⟨rfl, ⟨?_, fun item member => ?_, fun item member => ?_⟩, mirrored.permitted, ?_⟩, rfl⟩
    · rw [restored, List.map_map]
      exact sound.distinct
    · obtain ⟨item, old, rfl⟩ := List.mem_map.mp member
      exact sound.key item old
    · obtain ⟨item, old, rfl⟩ := List.mem_map.mp member
      exact sound.value item old
    · rcases mirrored.file with here | ⟨absent, empty⟩
      · left
        rw [snapshotLocked, members_restored]
        exact here
      · exact .inr ⟨absent, by rw [empty]; rfl⟩

/-- Whatever changes are made and however often the program is restarted, the board holds what it
would without the restarts, but for empty texts in the place of `NULL`s. -/
theorem blackboard_survives {d : Disk} (named : path ≠ []) (permitted : d.readable path = true ∧ d.writable path = true)
    (fresh : d.node path = none) (labels : List Label) :
    (labels.foldl (step number path) (start path d, d)).1.items = labels.foldl expected [] := by
  have first : Mirrored number path (start path d, d) ∧ (start path d).items = [] := by
    have empty : start path d = { persistPath := some path } := by
      rw [start, blackboardSetPersist, if_neg named, blackboardLoadJson, if_neg named, fsReadFile, fresh]
      rfl
    rw [empty]
    exact ⟨⟨rfl, ⟨List.nodup_nil, nofun, nofun⟩, permitted, .inr ⟨fresh, rfl⟩⟩, rfl⟩
  have whole : Mirrored number path (labels.foldl (step number path) (start path d, d)) ∧
      (labels.foldl (step number path) (start path d, d)).1.items = labels.foldl expected [] := by
    induction labels using List.reverseRecOn with
    | nil => exact first
    | append_singleton labels label ih =>
      rw [List.foldl_append, List.foldl_append]
      obtain ⟨mirrored, items⟩ := ih.1.step named label
      exact ⟨mirrored, items.trans (by rw [ih.2]; rfl)⟩
  exact whole.2

theorem blackboard_survives_restart :
    ([.put (some [107]) none, .restart, .put (some [108]) (some [49])].foldl
        (step (fun _ => []) [98]) (start [98] {}, {})).1.items = [([107], some []), ([108], some [49])] :=
  (blackboard_survives (by decide) ⟨rfl, rfl⟩ rfl _).trans rfl

end CognitiveOs.Cognition.Blackboard
