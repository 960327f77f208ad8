import CognitiveOs.Sessions.Table.Model

/-!
# The recency list

What `meta_touch` does to the links through the entries is what touching does to the order they stand
for.
-/

namespace CognitiveOs.SessionTable

open Foundation Infra

def Entry.face (m : Entry) : Text × Bool :=
  (m.id, !m.deleted)

def Store.faces (s : Store) : List (Text × Bool) :=
  s.metas.map Entry.face

variable {s : Store} {i : Nat} {order : List Nat}

theorem ids_eq (s : Store) : s.ids = s.faces.map Prod.fst := by
  simp [Store.ids, Store.faces, Entry.face]

theorem length_faces (s : Store) : s.faces.length = s.metas.length :=
  List.length_map _

structure SameFaces (s t : Store) : Prop where
  faces : t.faces = s.faces
  slots : t.slots = s.slots
  indexed : t.indexed = s.indexed
  live : t.live = s.live
  loaded : t.loaded = s.loaded

variable {t : Store}

theorem SameFaces.trans {s u : Store} (first : SameFaces s t) (second : SameFaces t u) : SameFaces s u :=
  ⟨second.faces.trans first.faces, second.slots.trans first.slots, second.indexed.trans first.indexed,
    second.live.trans first.live, second.loaded.trans first.loaded⟩

theorem SameFaces.length {s : Store} (same : SameFaces s t) : t.metas.length = s.metas.length := by
  rw [← length_faces, ← length_faces, same.faces]

variable {β : Type} {change : Entry → Entry}

theorem map_modify {g : Entry → β} (keeps : ∀ m, g (change m) = g m) (metas : List Entry) (i : Nat) :
    (metas.modify i change).map g = metas.map g := by
  refine List.ext_getElem? fun j => ?_
  rw [List.getElem?_map, List.getElem?_map, List.getElem?_modify]
  cases metas[j]? with
  | none => simp
  | some m => by_cases same : i = j <;> simp [same, keeps]

theorem same_setPrev (s : Store) (i : Nat) (prev : Option Nat) : SameFaces s (s.setPrev i prev) :=
  ⟨map_modify (by intro m; rfl) s.metas i, rfl, rfl, rfl, rfl⟩

theorem same_setNext (s : Store) (i : Nat) (next : Option Nat) : SameFaces s (s.setNext i next) :=
  ⟨map_modify (by intro m; rfl) s.metas i, rfl, rfl, rfl, rfl⟩

theorem same_skipOn (s : Store) (i : Nat) : SameFaces s (s.skipOn i) := by
  unfold Store.skipOn
  split
  · exact same_setNext s _ _
  · split <;> exact ⟨rfl, rfl, rfl, rfl, rfl⟩

theorem same_skipBack (s : Store) (i : Nat) : SameFaces s (s.skipBack i) := by
  unfold Store.skipBack
  split
  · exact same_setPrev s _ _
  · split <;> exact ⟨rfl, rfl, rfl, rfl, rfl⟩

theorem same_push (s : Store) (i : Nat) : SameFaces s (s.push i) := by
  have first := (same_setPrev s i none).trans (same_setNext (s.setPrev i none) i s.head)
  unfold Store.push
  dsimp only
  split
  next h _ =>
    have second := first.trans (same_setPrev _ h (some i))
    exact ⟨second.faces, second.slots, second.indexed, second.live, second.loaded⟩
  next => exact ⟨first.faces, first.slots, first.indexed, first.live, first.loaded⟩

theorem same_touch (s : Store) (i : Nat) : SameFaces s (metaTouch s i) :=
  ((same_skipOn s i).trans (same_skipBack _ i)).trans (same_push _ i)

/-! ### The links -/

theorem links_modify {field : Entry → Option β} {value : Option β} (set : ∀ m, field (change m) = value)
    (inside : i < s.metas.length) :
    (fun j => (s.metas.modify i change)[j]?.bind field) =
      Function.update (fun j => s.metas[j]?.bind field) i value := by
  funext j
  rw [List.getElem?_modify, Function.update_apply]
  by_cases same : j = i
  · subst same
    simp [List.getElem?_eq_getElem inside, set]
  · have other : ¬ i = j := fun equal => same equal.symm
    cases s.metas[j]? <;> simp [same, other]

theorem links_modify_other {field : Entry → Option β} (keeps : ∀ m, field (change m) = field m) (metas : List Entry)
    (i : Nat) : (fun j : Nat => (metas.modify i change)[j]?.bind field) = fun j : Nat => metas[j]?.bind field := by
  funext j
  rw [List.getElem?_modify]
  cases metas[j]? with
  | none => simp
  | some m => by_cases same : i = j <;> simp [same, keeps]

theorem links_setPrev (inside : i < s.metas.length) (prev : Option Nat) :
    (s.setPrev i prev).links = { s.links with prev := Function.update s.links.prev i prev } := by
  unfold Store.links Store.setPrev
  rw [Links.mk.injEq]
  exact ⟨links_modify (by intro m; rfl) inside, links_modify_other (by intro m; rfl) s.metas i, rfl, rfl⟩

theorem links_setNext (inside : i < s.metas.length) (next : Option Nat) :
    (s.setNext i next).links = { s.links with next := Function.update s.links.next i next } := by
  unfold Store.links Store.setNext
  rw [Links.mk.injEq]
  exact ⟨links_modify_other (by intro m; rfl) s.metas i, links_modify (by intro m; rfl) inside, rfl, rfl⟩

structure Inside (s : Store) (i : Nat) : Prop where
  prev : ∀ p, s.links.prev i = some p → p < s.metas.length ∧ p ≠ i
  next : ∀ n, s.links.next i = some n → n < s.metas.length

theorem links_skipOn (inside : Inside s i) : (s.skipOn i).links = s.links.skipOn i := by
  unfold Store.skipOn Links.skipOn
  cases before : s.links.prev i with
  | some p =>
    dsimp only
    rw [links_setNext (inside.prev p before).1]
  | none =>
    dsimp only
    rw [apply_ite Store.links]
    rfl

theorem links_skipBack (inside : ∀ n, s.links.next i = some n → n < s.metas.length) :
    (s.skipBack i).links = s.links.skipBack i := by
  unfold Store.skipBack Links.skipBack
  cases behind : s.links.next i with
  | some n =>
    dsimp only
    rw [links_setPrev (inside n behind)]
  | none =>
    dsimp only
    rw [apply_ite Store.links]
    rfl

theorem links_unlink (inside : Inside s i) : ((s.skipOn i).skipBack i).links = s.links.unlink i := by
  have first := links_skipOn inside
  rw [links_skipBack, first, Links.unlink]
  intro n here
  rw [first] at here
  rw [(same_skipOn s i).length]
  unfold Links.skipOn at here
  cases before : s.links.prev i with
  | some p =>
    rw [before] at here
    dsimp only at here
    rw [Function.update_of_ne (Ne.symm (inside.prev p before).2)] at here
    exact inside.next n here
  | none =>
    rw [before] at here
    dsimp only at here
    split at here <;> exact inside.next n here

theorem links_push (inside : i < s.metas.length) (head : ∀ h, s.head = some h → h < s.metas.length) :
    (s.push i).links = s.links.push i := by
  have first : ((s.setPrev i none).setNext i s.head).links =
      { s.links with
        prev := Function.update s.links.prev i none
        next := Function.update s.links.next i s.links.head } := by
    rw [links_setNext (by rw [(same_setPrev s i none).length]; exact inside), links_setPrev inside]
    rfl
  have size : ((s.setPrev i none).setNext i s.head).metas.length = s.metas.length :=
    ((same_setPrev s i none).trans (same_setNext _ i s.head)).length
  unfold Store.push Links.push
  dsimp only
  have same : ((s.setPrev i none).setNext i s.head).head = s.links.head := rfl
  rw [same]
  cases start : s.links.head with
  | some h =>
    dsimp only
    have second := @links_setPrev ((s.setPrev i none).setNext i s.head) h (by rw [size]; exact head h start) (some i)
    rw [first, start] at second
    exact congrArg (fun links : Links => { links with head := some i }) second
  | none =>
    rw [start] at first
    exact congrArg (fun links : Links => { links with head := some i, tail := some i }) first

structure Listed (s : Store) (order : List Nat) : Prop where
  shows : s.links.Shows order
  inside : ∀ i ∈ order, i < s.metas.length
  loose : ∀ i ∉ order, s.links.Loose i

theorem Listed.congr (listed : Listed s order) (links : t.links = s.links) (size : s.metas.length ≤ t.metas.length) :
    Listed t order := by
  refine ⟨by rw [links]; exact listed.shows, ?_, ?_⟩
  · intro j member
    exact Nat.lt_of_lt_of_le (listed.inside j member) size
  · intro j apart
    rw [links]
    exact listed.loose j apart

theorem Listed.neighbours (listed : Listed s order) (i : Nat) : Inside s i := by
  by_cases member : i ∈ order
  · obtain ⟨before, after, rfl⟩ := List.append_of_mem member
    constructor
    · intro p here
      rw [listed.shows.prev_eq] at here
      have inside : p ∈ before := List.mem_of_getLast? here
      refine ⟨listed.inside p (List.mem_append_left _ inside), ?_⟩
      rintro rfl
      exact (Links.not_mem_sides listed.shows.nodup).1 inside
    · intro n here
      rw [listed.shows.next_eq] at here
      exact listed.inside n (List.mem_append_right _ (List.mem_cons_of_mem _ (List.mem_of_head? here)))
  · obtain ⟨prev, next⟩ := listed.loose i member
    constructor
    · intro p here
      rw [prev] at here
      cases here
    · intro n here
      rw [next] at here
      cases here

theorem Listed.head_inside (listed : Listed s order) (h : Nat) (head : (s.links.unlink i).head = some h) :
    h < s.metas.length := by
  by_cases member : i ∈ order
  · obtain ⟨before, after, rfl⟩ := List.append_of_mem member
    rw [listed.shows.unlink.head] at head
    have inside := List.mem_of_head? head
    refine listed.inside h ?_
    rcases List.mem_append.mp inside with first | second
    · exact List.mem_append_left _ first
    · exact List.mem_append_right _ (List.mem_cons_of_mem _ second)
  · rw [Links.unlink_loose listed.shows member (listed.loose i member), listed.shows.head] at head
    exact listed.inside h (List.mem_of_head? head)

theorem Listed.touch (listed : Listed s order) (inside : i < s.metas.length) :
    Listed (metaTouch s i) (i :: order.erase i) := by
  have links : (metaTouch s i).links = s.links.touch i := by
    have first := links_unlink (listed.neighbours i)
    have size : ((s.skipOn i).skipBack i).metas.length = s.metas.length :=
      ((same_skipOn s i).trans (same_skipBack _ i)).length
    rw [metaTouch, links_push (by rw [size]; exact inside), first, Links.touch]
    intro h here
    rw [size]
    have head : (s.links.unlink i).head = some h := by rw [← first]; exact here
    exact listed.head_inside h head
  refine ⟨?_, ?_, ?_⟩
  · rw [links]
    exact listed.shows.touch (listed.loose i)
  · intro j member
    rw [(same_touch s i).length]
    rcases List.mem_cons.mp member with rfl | old
    · exact inside
    · exact listed.inside j (List.mem_of_mem_erase old)
  · intro j apart
    simp only [List.mem_cons, not_or] at apart
    have other : j ∉ order := fun member => apart.2 ((List.mem_erase_of_ne apart.1).mpr member)
    rw [links]
    exact Links.Loose.touch listed.shows (listed.loose i) other apart.1 (listed.loose j other)

end CognitiveOs.SessionTable
