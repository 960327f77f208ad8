import CognitiveOs.Sessions.Table.Invariant
import Mathlib.Data.List.Induction

/-!
# Loading the small index

The items of the index and what the transcripts add are sorted by activity and touched one after the
other, so the latest comes first.
-/

namespace CognitiveOs.SessionTable

open Foundation Infra

def cut (m : Entry) : Entry :=
  { m with id := snprintf 64 m.id, title := snprintf 128 m.title }

def itemEntries (items : List Record) : List Entry :=
  (items.filter fun r => r.id ≠ []).map fun r => cut (Entry.fill { id := r.id } r.fields)

def healed (metas : List Entry) (transcript : Text × Text) : List Entry :=
  match (metas.map Entry.id).findIdx? fun id => id = transcript.1 with
  | some i => metas.modify i fun m => if m.title = [] then { m with title := transcript.2 } else m
  | none => metas ++ [cut { id := transcript.1, title := transcript.2 }]

def latestFirst (items : List Record) (transcripts : List (Text × Text)) : List Entry :=
  ((transcripts.foldl healed (itemEntries items)).mergeSort activityLe).reverse

/-- An index that can be loaded: its ids fit, and no item repeats one. -/
structure Readable (items : List Record) (transcripts : List (Text × Text)) : Prop where
  distinct : ((items.filter fun r => r.id ≠ []).map Record.id).Nodup
  short : ∀ r ∈ items, r.id.length ≤ 63
  named : ∀ t ∈ transcripts, Fits t.1

structure Unlinked (metas : List Entry) : Prop where
  distinct : (metas.map Entry.id).Nodup
  fits : ∀ m ∈ metas, Fits m.id
  alone : ∀ m ∈ metas, m.prev = none ∧ m.next = none
  alive : ∀ m ∈ metas, m.deleted = false

variable {s : Store} {metas : List Entry} {items : List Record} {transcripts : List (Text × Text)}

theorem cut_id {m : Entry} (fits : Fits m.id) : (cut m).id = m.id :=
  List.take_of_length_le fits.2

theorem unlinked_items (readable : Readable items transcripts) : Unlinked (itemEntries items) := by
  have each : ∀ r ∈ items.filter fun r => r.id ≠ [], Fits r.id := by
    intro r member
    obtain ⟨inside, named⟩ := List.mem_filter.mp member
    exact ⟨by simpa using named, readable.short r inside⟩
  have ids : (itemEntries items).map Entry.id = (items.filter fun r => r.id ≠ []).map Record.id := by
    rw [itemEntries, List.map_map]
    refine List.map_congr_left fun r member => ?_
    exact List.take_of_length_le (each r member).2
  refine ⟨ids ▸ readable.distinct, ?_, ?_, ?_⟩
  · intro m member
    obtain ⟨r, inside, rfl⟩ := List.mem_map.mp member
    have fits := each r inside
    rw [@cut_id (Entry.fill { id := r.id } r.fields) fits]
    exact fits
  · intro m member
    obtain ⟨r, -, rfl⟩ := List.mem_map.mp member
    exact ⟨rfl, rfl⟩
  · intro m member
    obtain ⟨r, -, rfl⟩ := List.mem_map.mp member
    rfl

def linkage (m : Entry) : Text × Option Nat × Option Nat × Bool :=
  (m.id, m.prev, m.next, m.deleted)

theorem Unlinked.congr {others : List Entry} (unlinked : Unlinked metas)
    (same : others.map linkage = metas.map linkage) : Unlinked others := by
  have ids : others.map Entry.id = metas.map Entry.id := by
    have first := congrArg (List.map Prod.fst) same
    simpa [List.map_map, Function.comp_def, linkage] using first
  have old : ∀ m ∈ others, ∃ m' ∈ metas, linkage m' = linkage m := by
    intro m member
    have here : linkage m ∈ metas.map linkage := same ▸ List.mem_map_of_mem member
    exact List.mem_map.mp here
  refine ⟨ids ▸ unlinked.distinct, ?_, ?_, ?_⟩
  · intro m member
    obtain ⟨m', inside, equal⟩ := old m member
    simp only [linkage, Prod.mk.injEq] at equal
    exact equal.1 ▸ unlinked.fits m' inside
  · intro m member
    obtain ⟨m', inside, equal⟩ := old m member
    simp only [linkage, Prod.mk.injEq] at equal
    exact ⟨equal.2.1 ▸ (unlinked.alone m' inside).1, equal.2.2.1 ▸ (unlinked.alone m' inside).2⟩
  · intro m member
    obtain ⟨m', inside, equal⟩ := old m member
    simp only [linkage, Prod.mk.injEq] at equal
    exact equal.2.2.2 ▸ unlinked.alive m' inside

theorem Unlinked.perm {others : List Entry} (unlinked : Unlinked metas) (perm : others.Perm metas) :
    Unlinked others where
  distinct := (perm.map Entry.id).nodup_iff.mpr unlinked.distinct
  fits := fun m member => unlinked.fits m (perm.mem_iff.mp member)
  alone := fun m member => unlinked.alone m (perm.mem_iff.mp member)
  alive := fun m member => unlinked.alive m (perm.mem_iff.mp member)

theorem Unlinked.healed (unlinked : Unlinked metas) {transcript : Text × Text} (fits : Fits transcript.1) :
    Unlinked (healed metas transcript) := by
  unfold SessionTable.healed
  split
  next i _ =>
    refine unlinked.congr (map_modify ?_ metas i)
    intro m
    split <;> rfl
  next absent =>
    have new : transcript.1 ∉ metas.map Entry.id := by
      intro member
      have differ := List.findIdx?_eq_none_iff.mp absent transcript.1 member
      simp at differ
    have id : (cut { id := transcript.1, title := transcript.2 }).id = transcript.1 :=
      @cut_id { id := transcript.1, title := transcript.2 } fits
    refine ⟨?_, ?_, ?_, ?_⟩
    · rw [List.map_append, List.map_singleton, id]
      refine List.nodup_append.mpr ⟨unlinked.distinct, List.nodup_singleton _, ?_⟩
      rintro a member b here rfl
      exact new (List.mem_singleton.mp here ▸ member)
    · intro m member
      rcases List.mem_append.mp member with old | last
      · exact unlinked.fits m old
      · rw [List.mem_singleton.mp last, id]
        exact fits
    · intro m member
      rcases List.mem_append.mp member with old | last
      · exact unlinked.alone m old
      · rw [List.mem_singleton.mp last]
        exact ⟨rfl, rfl⟩
    · intro m member
      rcases List.mem_append.mp member with old | last
      · exact unlinked.alive m old
      · rw [List.mem_singleton.mp last]
        rfl

/-! ### Reading -/

/-- While the index is read, nothing is linked and the table is sound. -/
structure Reading (s : Store) : Prop where
  table : Table s.ids s.slots s.indexed
  unlinked : Unlinked s.metas
  ends : s.head = none ∧ s.tail = none

theorem reading_items (items : List Record) (table : Table s.ids s.slots s.indexed) :
    (items.foldl readItem s).metas = s.metas ++ itemEntries items ∧
      Table (items.foldl readItem s).ids (items.foldl readItem s).slots (items.foldl readItem s).indexed ∧
      (items.foldl readItem s).head = s.head ∧ (items.foldl readItem s).tail = s.tail := by
  induction items generalizing s with
  | nil => exact ⟨(List.append_nil _).symm, table, rfl, rfl⟩
  | cons r items ih =>
    rw [List.foldl_cons]
    by_cases none : r.id = []
    · have same : readItem s r = s := if_pos none
      rw [same]
      simpa [itemEntries, none] using ih table
    · have one : readItem s r = s.append (Entry.fill { id := r.id } r.fields) := if_neg none
      have ids : (readItem s r).ids = s.ids ++ [(cut (Entry.fill { id := r.id } r.fields)).id] := by
        rw [one]
        simp [Store.ids, Store.append, cut]
      obtain ⟨metas, table', head, tail⟩ := @ih (readItem s r) (by
        rw [ids, one]
        exact table.append _)
      refine ⟨?_, table', by rw [head, one]; rfl, by rw [tail, one]; rfl⟩
      rw [metas, one]
      simp [itemEntries, none, Store.append, cut]

theorem Reading.heal (reading : Reading s) {transcript : Text × Text} (fits : Fits transcript.1) :
    Reading (heal s transcript) ∧ (heal s transcript).metas = healed s.metas transcript := by
  obtain ⟨slots, found, synced⟩ := metaFind_eq reading.table reading.unlinked.distinct transcript.1
  have size : s.ids.length = s.metas.length := List.length_map _
  have table := size ▸ synced.table
  have unlinked := reading.unlinked.healed fits
  have search : (s.ids.findIdx? fun other => other = transcript.1) =
    (s.metas.map Entry.id).findIdx? fun id => id = transcript.1 := rfl
  unfold SessionTable.heal
  rw [found, search]
  unfold SessionTable.healed at unlinked ⊢
  cases at_i : (s.metas.map Entry.id).findIdx? fun id => id = transcript.1 with
  | some i =>
    rw [at_i] at unlinked
    dsimp only at unlinked ⊢
    refine ⟨⟨?_, unlinked, reading.ends⟩, rfl⟩
    have ids : (s.metas.modify i fun m => if m.title = [] then { m with title := transcript.2 } else m).map Entry.id =
        s.ids := map_modify (by intro m; split <;> rfl) s.metas i
    exact (congrArg (fun ids => Table ids slots s.metas.length) ids).mpr table
  | none =>
    rw [at_i] at unlinked
    dsimp only at unlinked ⊢
    refine ⟨⟨?_, unlinked, reading.ends⟩, rfl⟩
    have ids : (s.metas ++ [cut { id := transcript.1, title := transcript.2 }]).map Entry.id =
        s.ids ++ [(cut { id := transcript.1, title := transcript.2 }).id] := by simp [Store.ids]
    exact (congrArg (fun ids => Table ids slots s.metas.length) ids).mpr (table.append _)

theorem Reading.healAll (transcripts : List (Text × Text)) (reading : Reading s)
    (named : ∀ t ∈ transcripts, Fits t.1) :
    Reading (transcripts.foldl SessionTable.heal s) ∧
      (transcripts.foldl SessionTable.heal s).metas = transcripts.foldl healed s.metas := by
  induction transcripts generalizing s with
  | nil => exact ⟨reading, rfl⟩
  | cons t transcripts ih =>
    obtain ⟨first, later⟩ := List.forall_mem_cons.mp named
    obtain ⟨next, metas⟩ := reading.heal first
    rw [List.foldl_cons, List.foldl_cons, ← metas]
    exact ih next later

/-! ### Touching every entry -/

theorem listed_nil (unlinked : Unlinked s.metas) (ends : s.head = none ∧ s.tail = none) : Listed s [] where
  shows := Links.shows_nil ends.1 ends.2
  inside := fun i member => absurd member List.not_mem_nil
  loose := by
    intro i _
    unfold Links.Loose Store.links
    dsimp only
    cases here : s.metas[i]? with
    | none => exact ⟨rfl, rfl⟩
    | some m => exact unlinked.alone m (List.mem_of_getElem? here)

theorem touch_range (listed : Listed s []) {k : Nat} (inside : k ≤ s.metas.length) :
    SameFaces s ((List.range k).foldl metaTouch s) ∧
      Listed ((List.range k).foldl metaTouch s) (List.range k).reverse := by
  induction k with
  | zero => exact ⟨⟨rfl, rfl, rfl, rfl, rfl⟩, listed⟩
  | succ k ih =>
    obtain ⟨same, listed'⟩ := ih (Nat.le_of_succ_le inside)
    rw [List.range_succ, List.foldl_append, List.reverse_append, List.reverse_singleton, List.singleton_append]
    have next := listed'.touch (i := k) (by rw [same.length]; exact inside)
    rw [List.erase_of_not_mem (by simp)] at next
    exact ⟨same.trans (same_touch _ k), next⟩

theorem filterMap_range_reverse {α : Type} (l : List α) :
    ((List.range l.length).reverse).filterMap (fun i => l[i]?) = l.reverse := by
  rw [List.filterMap_reverse]
  congr 1
  induction l using List.reverseRecOn with
  | nil => rfl
  | append_singleton l a ih =>
    rw [List.length_append, List.length_singleton, List.range_succ, List.filterMap_append]
    have old : (List.range l.length).filterMap (fun i => (l ++ [a])[i]?) = l := by
      refine Eq.trans (List.filterMap_congr fun i member => ?_) ih
      exact List.getElem?_append_left (List.mem_range.mp member)
    rw [old]
    simp

theorem Sound.empty (sound : Sound s []) : s.metas = [] ∧ s.head = none ∧ s.tail = none := by
  obtain ⟨order, listed, all, shown⟩ := sound.listed
  have none : order = [] := by
    refine List.eq_nil_iff_forall_not_mem.mpr fun i member => ?_
    have inside : i < s.faces.length := by
      rw [length_faces]
      exact listed.inside i member
    have there : s.faces[i] ∈ s.shown order :=
      List.mem_filterMap.mpr ⟨i, member, List.getElem?_eq_getElem inside⟩
    rw [shown] at there
    exact absurd there List.not_mem_nil
  subst none
  refine ⟨?_, listed.shows.head, listed.shows.tail⟩
  by_contra some
  exact absurd (all 0 (List.length_pos_of_ne_nil some)) List.not_mem_nil

theorem Sound.index (sound : Sound s []) (fresh : s.loaded = false) (readable : Readable items transcripts) :
    Sound (metaLoad s (.index items transcripts)) ((latestFirst items transcripts).map fun m => (m.id, true)) := by
  obtain ⟨empty, head, tail⟩ := sound.empty
  have opened : Table ({ s with loaded := true } : Store).ids s.slots s.indexed := sound.table
  obtain ⟨metas, table, head', tail'⟩ := reading_items items opened
  have reading : Reading (items.foldl readItem { s with loaded := true }) := by
    refine ⟨table, ?_, head'.trans head, tail'.trans tail⟩
    rw [metas]
    show Unlinked (s.metas ++ itemEntries items)
    rw [empty]
    exact unlinked_items readable
  obtain ⟨reading', metas'⟩ := reading.healAll transcripts readable.named
  have entries : (transcripts.foldl SessionTable.heal (items.foldl readItem { s with loaded := true })).metas =
      transcripts.foldl healed (itemEntries items) := by
    rw [metas', metas]
    show transcripts.foldl healed (s.metas ++ itemEntries items) = _
    rw [empty, List.nil_append]
  unfold metaLoad
  rw [if_neg (by simp [fresh])]
  dsimp only
  generalize transcripts.foldl SessionTable.heal (items.foldl readItem { s with loaded := true }) = read
    at reading' entries
  have unlinked : Unlinked (read.metas.mergeSort activityLe) := reading'.unlinked.perm (List.mergeSort_perm _ _)
  let sorted : Store := { read with metas := read.metas.mergeSort activityLe, slots := [], indexed := 0 }
  obtain ⟨slots, sync, synced⟩ := metaIndexSync_spec (s := sorted) (table_nil _)
  show Sound ((List.range (metaIndexSync sorted).metas.length).foldl metaTouch
    { metaIndexSync sorted with live := (metaIndexSync sorted).metas.length }) _
  rw [sync]
  let ready : Store :=
    { sorted with slots, indexed := sorted.metas.length, live := sorted.metas.length }
  show Sound ((List.range ready.metas.length).foldl metaTouch ready) _
  have size : sorted.ids.length = sorted.metas.length := List.length_map _
  obtain ⟨same, listed⟩ := touch_range (listed_nil (s := ready) unlinked reading'.ends) (Nat.le_refl _)
  have faces : ready.faces = ready.metas.map fun m => (m.id, true) := by
    refine List.map_congr_left fun m member => ?_
    simp [Entry.face, unlinked.alive m member]
  have ids : ((List.range ready.metas.length).foldl metaTouch ready).ids = sorted.ids := by
    rw [ids_eq, same.faces, ← ids_eq]
    rfl
  refine ⟨⟨?_, ?_, ?_, ?_⟩, _, listed, ?_, ?_⟩
  · rw [ids, same.slots, same.indexed]
    have table' : Table sorted.ids slots sorted.metas.length := size ▸ synced.table
    exact table'
  · rw [ids]
    exact unlinked.distinct
  · rw [ids]
    intro id member
    obtain ⟨m, inside, rfl⟩ := List.mem_map.mp member
    exact unlinked.fits m inside
  · rw [same.live, same.faces, faces, List.countP_map]
    show ready.metas.length = _
    exact (List.countP_eq_length.mpr (by simp)).symm
  · intro i less
    rw [same.length] at less
    simpa using less
  · rw [Store.shown, same.faces, ← length_faces, filterMap_range_reverse, faces, latestFirst, ← entries,
      List.map_reverse]

end CognitiveOs.SessionTable
