import CognitiveOs.Foundation.Linked
import CognitiveOs.Foundation.Machine
import CognitiveOs.Foundation.Probing
import CognitiveOs.Infra.Text

/-!
# The table of sessions

The metadata index of `cognition/reasoning.c` as it lies in memory: an array of entries, a hash table
of positions, a doubly linked list through the entries and a counter. A position is the index of an
entry; the source stores the index plus one, with 0 for none. Allocations succeed.
-/

namespace CognitiveOs.SessionTable

open Foundation Infra

/-- `struct sess_meta`. -/
structure Entry where
  id : Text
  title : Text := []
  createdMs : Int := 0
  totalMs : Int := 0
  lastActiveMs : Int := 0
  sharedMemory : Bool := false
  deleted : Bool := false
  prev : Option Nat := none
  next : Option Nat := none

/-- What the index takes from a session, or from a line of a file. -/
structure Fields where
  title : Text := []
  createdMs : Int := 0
  totalMs : Int := 0
  lastActiveMs : Int := 0
  sharedMemory : Bool := false

def Entry.fill (m : Entry) (f : Fields) : Entry :=
  { m with
    title := snprintf 128 f.title
    createdMs := f.createdMs
    totalMs := f.totalMs
    lastActiveMs := f.lastActiveMs
    sharedMemory := f.sharedMemory }

/-- The index in `struct sess_store`. -/
structure Store where
  metas : List Entry := []
  slots : List (Option Nat) := []
  indexed : Nat := 0
  head : Option Nat := none
  tail : Option Nat := none
  live : Nat := 0
  loaded : Bool := false

/-! ### The hash table -/

def metaHash (id : Text) : UInt64 :=
  id.foldl (fun h byte => (h ^^^ byte.toUInt64) * 16777619) 2166136261

def home (slotcap : Nat) (id : Text) : Nat :=
  (metaHash id).toNat &&& (slotcap - 1)

def nextSlot (slotcap slot : Nat) : Nat :=
  (slot + 1) &&& (slotcap - 1)

/-- The doubling of the capacity; it is enough after `rounds` rounds. -/
def doubled (needed : Nat) : (rounds cap : Nat) → Nat
  | 0, cap => cap
  | rounds + 1, cap => if cap < needed then doubled needed rounds (cap * 2) else cap

def Store.grown (s : Store) : Store :=
  let needed := (s.metas.length + 1) * 2
  if s.slots.length = 0 ∨ s.slots.length ≤ needed then
    let cap := doubled needed needed (if s.slots.length = 0 then 32 else s.slots.length * 2)
    { s with slots := List.replicate cap none, indexed := 0 }
  else s

def Store.indexOne (s : Store) : Store :=
  match s.metas[s.indexed]? with
  | none => s
  | some m =>
    let cap := s.slots.length
    match Probing.seek (nextSlot cap) Option.isNone s.slots cap (home cap m.id) with
    | none => s
    | some slot => { s with slots := s.slots.set slot (some s.indexed), indexed := s.indexed + 1 }

def Store.indexRest : Nat → Store → Store
  | 0, s => s
  | rounds + 1, s => indexRest rounds s.indexOne

def metaIndexSync (s : Store) : Store :=
  let s := s.grown
  s.indexRest (s.metas.length - s.indexed)

def Store.hasId (s : Store) (id : Text) (i : Nat) : Bool :=
  s.metas[i]?.any fun m => m.id = id

/-- `meta_find`, which brings the table up to date first. -/
def metaFind (s : Store) (id : Text) : Store × Option Nat :=
  let s := metaIndexSync s
  let cap := s.slots.length
  let slot := Probing.seek (nextSlot cap) (Probing.sought (s.hasId id)) s.slots cap (home cap id)
  (s, slot.bind fun slot => s.slots[slot]?.join)

/-! ### The recency list -/

def Store.links (s : Store) : Links where
  prev i := s.metas[i]?.bind Entry.prev
  next i := s.metas[i]?.bind Entry.next
  head := s.head
  tail := s.tail

def Store.setPrev (s : Store) (i : Nat) (prev : Option Nat) : Store :=
  { s with metas := s.metas.modify i fun m => { m with prev } }

def Store.setNext (s : Store) (i : Nat) (next : Option Nat) : Store :=
  { s with metas := s.metas.modify i fun m => { m with next } }

def Store.skipOn (s : Store) (i : Nat) : Store :=
  match s.links.prev i with
  | some p => s.setNext p (s.links.next i)
  | none => if s.head = some i then { s with head := s.links.next i } else s

def Store.skipBack (s : Store) (i : Nat) : Store :=
  match s.links.next i with
  | some n => s.setPrev n (s.links.prev i)
  | none => if s.tail = some i then { s with tail := s.links.prev i } else s

def Store.push (s : Store) (i : Nat) : Store :=
  let s := (s.setPrev i none).setNext i s.head
  let s :=
    match s.head with
    | some h => s.setPrev h (some i)
    | none => { s with tail := some i }
  { s with head := some i }

def metaTouch (s : Store) (i : Nat) : Store :=
  ((s.skipOn i).skipBack i).push i

/-! ### Entries -/

def Store.append (s : Store) (m : Entry) : Store :=
  { s with metas := s.metas ++ [{ m with id := snprintf 64 m.id, title := snprintf 128 m.title }] }

def metaEnsure (s : Store) (id : Text) : Store × Nat :=
  match metaFind s id with
  | (s, some i) => (s, i)
  | (s, none) => (metaIndexSync { s.append { id } with live := s.live + 1 }, s.metas.length)

def Store.isDeleted (s : Store) (i : Nat) : Bool :=
  s.metas[i]?.any Entry.deleted

def Store.modify (s : Store) (i : Nat) (change : Entry → Entry) : Store :=
  { s with metas := s.metas.modify i change }

/-- `meta_upsert_locked`, without the journal. -/
def metaUpsert (s : Store) (id : Text) (f : Fields) : Store :=
  let (s, i) := metaEnsure s id
  let s :=
    if s.isDeleted i then { s.modify i fun m => { m with deleted := false } with live := s.live + 1 } else s
  metaTouch (s.modify i fun m => m.fill f) i

/-- `meta_delete_locked`, without the journal: the entry stays as a tombstone. -/
def metaDelete (s : Store) (id : Text) : Store :=
  match metaFind s id with
  | (s, none) => s
  | (s, some i) =>
    if s.isDeleted i then s
    else { s.modify i fun m => { m with deleted := true } with live := s.live - 1 }

/-! ### Loading -/

structure Record where
  id : Text
  fields : Fields
  deleted : Bool := false

/-- The chat directory: a journal, or the small index with the transcripts and what title each of
them gives. -/
inductive Files where
  | journal (lines : List Record)
  | index (items : List Record) (transcripts : List (Text × Text))

def replay (s : Store) (r : Record) : Store :=
  if r.id = [] ∨ 64 ≤ r.id.length then s
  else
    let (s, i) := metaEnsure s r.id
    let was := s.isDeleted i
    let live := if !was && r.deleted then s.live - 1 else if was && !r.deleted then s.live + 1 else s.live
    let change := fun m : Entry => { m.fill { r.fields with sharedMemory := false } with deleted := r.deleted }
    metaTouch { s.modify i change with live } i

def readItem (s : Store) (r : Record) : Store :=
  if r.id = [] then s else s.append (Entry.fill { id := r.id } r.fields)

def heal (s : Store) (transcript : Text × Text) : Store :=
  match metaFind s transcript.1 with
  | (s, some i) => s.modify i fun m => if m.title = [] then { m with title := transcript.2 } else m
  | (s, none) => s.append { id := transcript.1, title := transcript.2 }

def activity (m : Entry) : Int :=
  if m.lastActiveMs ≠ 0 then m.lastActiveMs else m.createdMs

/-- `meta_activity_compare`, with `strcmp` on the ids. -/
def activityLe (x y : Entry) : Bool :=
  activity x < activity y || (activity x = activity y && decide (x.id ≤ y.id))

def metaLoad (s : Store) (files : Files) : Store :=
  if s.loaded then s
  else
    match files with
    | .journal lines => lines.foldl replay { s with loaded := true }
    | .index items transcripts =>
      let s := transcripts.foldl heal (items.foldl readItem { s with loaded := true })
      let s := { s with metas := s.metas.mergeSort activityLe, slots := [], indexed := 0 }
      let s := metaIndexSync s
      (List.range s.metas.length).foldl metaTouch { s with live := s.metas.length }

/-! ### Pages -/

structure Page where
  sessions : List Entry
  total : Nat
  nextCursor : Option Text

def fillPage (s : Store) : (rounds : Nat) → Option Nat → (room : Nat) → List Entry × Option Nat
  | rounds + 1, some pos, room + 1 =>
    match s.metas[pos]? with
    | none => ([], none)
    | some m =>
      if m.deleted then fillPage s rounds m.next (room + 1)
      else
        let (sessions, pos) := fillPage s rounds m.next room
        (m :: sessions, pos)
  | _, pos, _ => ([], pos)

def skipDeleted (s : Store) : (rounds : Nat) → Option Nat → Option Nat
  | rounds + 1, some pos =>
    match s.metas[pos]? with
    | none => none
    | some m => if m.deleted then skipDeleted s rounds m.next else some pos
  | _, pos => pos

/-- `reasoning_sessions_page_json`; an empty cursor is none. -/
def sessionsPage (s : Store) (cursor : Text) (limit : Nat) : Store × Page :=
  let limit := if limit = 0 ∨ 100 < limit then 12 else limit
  let (s, pos) := if cursor = [] then (s, s.head) else metaFind s cursor
  let (sessions, pos) := fillPage s s.metas.length pos limit
  let pos := skipDeleted s s.metas.length pos
  (s, { sessions, total := s.live, nextCursor := pos.bind fun pos => s.metas[pos]?.map Entry.id })

def followPages (s : Store) : (limits : List Nat) → (cursor : Text) → List Page
  | [], _ => []
  | limit :: limits, cursor =>
    let (s, page) := sessionsPage s cursor limit
    match page.nextCursor with
    | none => [page]
    | some cursor => page :: followPages s limits cursor

/-! ### Runs -/

inductive Act where
  | load (files : Files)
  | find (id : Text)
  | upsert (id : Text) (fields : Fields)
  | delete (id : Text)

def Store.step (s : Store) : Act → Store
  | .load files => metaLoad s files
  | .find id => (metaFind s id).1
  | .upsert id fields => metaUpsert s id fields
  | .delete id => metaDelete s id

/-! ### Finding sessions -/

def Store.ids (s : Store) : List Text :=
  s.metas.map Entry.id

variable {s : Store} {ids : List Text} {slots : List (Option Nat)} {indexed : Nat} {id : Text}

/-- The table holds the first entries, each behind the home of its id. -/
structure Table (ids : List Text) (slots : List (Option Nat)) (indexed : Nat) : Prop where
  power : slots ≠ [] → ∃ k, slots.length = 2 ^ k
  le : indexed ≤ ids.length
  holds : ∀ i, some i ∈ slots ↔ i < indexed
  taken : slots.countP Option.isSome = indexed
  placed : Probing.Placed (fun i => home slots.length (ids.getD i [])) slots

structure Synced (ids : List Text) (slots : List (Option Nat)) : Prop where
  table : Table ids slots ids.length
  room : ids.length < slots.length

theorem table_nil (ids : List Text) : Table ids [] 0 where
  power := fun some => absurd rfl some
  le := Nat.zero_le _
  holds := by simp
  taken := rfl
  placed := fun p a here => absurd here (by simp)

/-! ### Masks -/

theorem home_lt {k : Nat} (length : slots.length = 2 ^ k) (id : Text) : home slots.length id < slots.length :=
  Probing.mask_lt length _

theorem nextSlot_steps {k : Nat} (length : slots.length = 2 ^ k) : Probing.Steps (nextSlot slots.length) slots :=
  Probing.mask_steps length

theorem Table.numbered (table : Table ids slots indexed) :
    Probing.Numbered (fun i => home slots.length (ids.getD i [])) slots indexed :=
  ⟨table.holds, table.taken, table.placed⟩

theorem Table.of_numbered {size : Nat} (power : slots ≠ [] → ∃ k, slots.length = 2 ^ k) (le : indexed ≤ ids.length)
    (same : slots.length = size) (numbered : Probing.Numbered (fun i => home size (ids.getD i [])) slots indexed) :
    Table ids slots indexed :=
  ⟨power, le, numbered.holds, numbered.taken, same ▸ numbered.placed⟩

/-! ### Growing -/

theorem doubled_spec {needed rounds cap : Nat} (enough : needed ≤ cap * 2 ^ rounds) :
    needed ≤ doubled needed rounds cap ∧ ∃ k, doubled needed rounds cap = cap * 2 ^ k := by
  induction rounds generalizing cap with
  | zero => exact ⟨by simpa [doubled] using enough, 0, by simp [doubled]⟩
  | succ rounds ih =>
    unfold doubled
    split
    · obtain ⟨large, k, power⟩ := @ih (cap * 2) (by rw [Nat.mul_assoc, ← Nat.pow_succ']; exact enough)
      refine ⟨large, k + 1, ?_⟩
      rw [power, Nat.mul_assoc, ← Nat.pow_succ']
    next large => exact ⟨Nat.le_of_not_lt large, 0, by simp⟩

theorem grown_spec (table : Table s.ids s.slots s.indexed) :
    ∃ slots indexed, s.grown = { s with slots, indexed } ∧ Table s.ids slots indexed ∧
      s.metas.length < slots.length := by
  unfold Store.grown
  dsimp only
  split
  next small =>
    refine ⟨_, 0, rfl, ?_, ?_⟩
    · have start : ∃ k, (if s.slots.length = 0 then 32 else s.slots.length * 2) = 2 ^ k := by
        split
        · exact ⟨5, rfl⟩
        next some =>
          obtain ⟨k, power⟩ := table.power (fun none => some (by rw [none]; rfl))
          exact ⟨k + 1, by rw [power, Nat.pow_succ]⟩
      obtain ⟨k, start⟩ := start
      refine .of_numbered (fun _ => ?_) (Nat.zero_le _) List.length_replicate (Probing.numbered_replicate _ _)
      have enough : (s.metas.length + 1) * 2 ≤ 2 ^ k * 2 ^ ((s.metas.length + 1) * 2) := by
        calc (s.metas.length + 1) * 2 ≤ 2 ^ ((s.metas.length + 1) * 2) := Nat.le_of_lt Nat.lt_two_pow_self
          _ ≤ 2 ^ k * 2 ^ ((s.metas.length + 1) * 2) := Nat.le_mul_of_pos_left _ (Nat.two_pow_pos k)
      obtain ⟨-, j, power⟩ := doubled_spec enough
      exact ⟨k + j, by rw [List.length_replicate, start, power, Nat.pow_add]⟩
    · rw [List.length_replicate]
      have start : 1 ≤ (if s.slots.length = 0 then 32 else s.slots.length * 2) := by split <;> omega
      have enough : (s.metas.length + 1) * 2 ≤
          (if s.slots.length = 0 then 32 else s.slots.length * 2) * 2 ^ ((s.metas.length + 1) * 2) := by
        calc (s.metas.length + 1) * 2 ≤ 2 ^ ((s.metas.length + 1) * 2) := Nat.le_of_lt Nat.lt_two_pow_self
          _ ≤ _ := Nat.le_mul_of_pos_left _ start
      have large := (doubled_spec enough).1
      omega
  next large => exact ⟨s.slots, s.indexed, rfl, table, by omega⟩

/-! ### Indexing -/

theorem indexOne_spec (table : Table s.ids s.slots s.indexed) (more : s.indexed < s.metas.length)
    (room : s.metas.length < s.slots.length) :
    ∃ slots, s.indexOne = { s with slots, indexed := s.indexed + 1 } ∧ Table s.ids slots (s.indexed + 1) ∧
      slots.length = s.slots.length := by
  have some : s.slots ≠ [] := by
    intro none
    rw [none] at room
    exact absurd room (Nat.not_lt_zero _)
  obtain ⟨k, length⟩ := table.power some
  have here : s.metas[s.indexed]? = .some s.metas[s.indexed] := List.getElem?_eq_getElem more
  have idOf : s.ids.getD s.indexed [] = s.metas[s.indexed].id := by simp [Store.ids, here]
  obtain ⟨slot, found, numbered⟩ :=
    table.numbered.insert (nextSlot_steps length) (home_lt length _) (Nat.lt_trans more room)
  rw [idOf] at found
  refine ⟨s.slots.set slot (.some s.indexed), ?_, ?_, by simp⟩
  · unfold Store.indexOne
    simp only [here, found]
  · refine .of_numbered (fun _ => ⟨k, by rw [List.length_set, length]⟩) ?_ List.length_set numbered
    simp only [Store.ids, List.length_map]
    omega

theorem indexRest_spec {rounds : Nat} (table : Table s.ids s.slots s.indexed) (room : s.metas.length < s.slots.length)
    (enough : rounds = s.metas.length - s.indexed) :
    ∃ slots, s.indexRest rounds = { s with slots, indexed := s.metas.length } ∧ Synced s.ids slots := by
  have le : s.indexed ≤ s.metas.length := by simpa [Store.ids] using table.le
  have length : s.ids.length = s.metas.length := List.length_map _
  induction rounds generalizing s with
  | zero =>
    have all : s.indexed = s.metas.length := by omega
    refine ⟨s.slots, by rw [Store.indexRest, ← all], ?_, by rwa [length]⟩
    rw [length, ← all]
    exact table
  | succ rounds ih =>
    obtain ⟨slots, one, table', size⟩ := indexOne_spec table (by omega) room
    obtain ⟨slots', rest, synced⟩ := @ih { s with slots, indexed := s.indexed + 1 } table' (by dsimp only; omega)
      (by dsimp only; omega) (by dsimp only; omega) length
    exact ⟨slots', by rw [Store.indexRest, one, rest], synced⟩

theorem metaIndexSync_spec (table : Table s.ids s.slots s.indexed) :
    ∃ slots, metaIndexSync s = { s with slots, indexed := s.metas.length } ∧ Synced s.ids slots := by
  obtain ⟨slots, indexed, grown, table', room⟩ := grown_spec table
  obtain ⟨slots', rest, synced⟩ := @indexRest_spec { s with slots, indexed } _ table' room rfl
  exact ⟨slots', by rw [metaIndexSync, grown]; exact rest, synced⟩

/-! ### The lookup -/

theorem hasId_iff {i : Nat} : s.hasId id i = true ↔ s.ids[i]? = some id := by
  unfold Store.hasId Store.ids
  rw [List.getElem?_map]
  cases s.metas[i]? <;> simp

theorem metaFind_spec (table : Table s.ids s.slots s.indexed) (id : Text) :
    ∃ slots r, metaFind s id = ({ s with slots, indexed := s.metas.length }, r) ∧ Synced s.ids slots ∧
      (∀ i, r = some i → s.ids[i]? = some id) ∧ (r = none → id ∉ s.ids) := by
  obtain ⟨slots, sync, synced⟩ := metaIndexSync_spec table
  have some : slots ≠ [] := by
    rintro rfl
    exact absurd synced.room (Nat.not_lt_zero _)
  obtain ⟨k, length⟩ := synced.table.power some
  have homes : ∀ i, s.hasId id i = true → home slots.length (s.ids.getD i []) = home slots.length id := by
    intro i is
    rw [List.getD_eq_getElem?_getD, hasId_iff.mp is, Option.getD_some]
  obtain ⟨slot, content, found, here, holds, absent⟩ :=
    synced.table.numbered.find (nextSlot_steps length) (home_lt length id) synced.room homes
  refine ⟨slots, content, ?_, synced, ?_, ?_⟩
  · simp only [metaFind, sync]
    rw [show Store.hasId { s with slots, indexed := s.metas.length } id = s.hasId id from rfl, found, Option.bind_some,
      here, Option.join_some]
  · exact fun i taken => hasId_iff.mp (holds i taken).2
  · intro free member
    obtain ⟨i, at_i⟩ := List.mem_iff_getElem?.mp member
    have is := absent free i (List.getElem?_eq_some_iff.mp at_i).1
    rw [hasId_iff.mpr at_i] at is
    cases is

theorem metaFind_eq (table : Table s.ids s.slots s.indexed) (distinct : s.ids.Nodup) (id : Text) :
    ∃ slots, metaFind s id = ({ s with slots, indexed := s.metas.length }, s.ids.findIdx? fun other => other = id) ∧
      Synced s.ids slots := by
  obtain ⟨slots, r, found, synced, here, none⟩ := metaFind_spec table id
  refine ⟨slots, ?_, synced⟩
  rw [found]
  congr 1
  cases r with
  | none =>
    refine (List.findIdx?_eq_none_iff.mpr fun other member => ?_).symm
    have differ : other ≠ id := fun same => none rfl (same ▸ member)
    simpa using differ
  | some i =>
    obtain ⟨inside, at_i⟩ := List.getElem?_eq_some_iff.mp (here i rfl)
    refine (List.findIdx?_eq_some_iff_getElem.mpr ⟨inside, by simpa using at_i, ?_⟩).symm
    intro j less same
    have equal : s.ids[j] = s.ids[i] := by
      rw [at_i]
      simpa using same
    have index := (List.Nodup.getElem_inj_iff distinct).mp equal
    omega

theorem Table.append (table : Table ids slots indexed) (id : Text) : Table (ids ++ [id]) slots indexed where
  power := table.power
  le := by
    have le := table.le
    simp only [List.length_append, List.length_singleton]
    omega
  holds := table.holds
  taken := table.taken
  placed := by
    intro p i here
    have less := (table.holds i).mp (List.mem_iff_getElem?.mpr ⟨p, here⟩)
    have inside : i < ids.length := Nat.lt_of_lt_of_le less table.le
    have reaches := table.placed p i here
    simpa only [List.getD_eq_getElem?_getD, List.getElem?_append_left inside] using reaches

end CognitiveOs.SessionTable
