import CognitiveOs.Sessions.Table.Recency
import Mathlib.Data.List.Count

/-!
# What the table of sessions holds

An index stands for a list of ids, the most recently touched first, each alive or a tombstone. Every
step does to that list what its name says.
-/

namespace CognitiveOs.SessionTable

open Foundation Infra

def touched (recent : List (Text × Bool)) (id : Text) (alive : Bool) : List (Text × Bool) :=
  (id, alive) :: recent.filter fun e => e.1 ≠ id

def buried (recent : List (Text × Bool)) (id : Text) : List (Text × Bool) :=
  recent.map fun e => if e.1 = id then (id, false) else e

def Fits (id : Text) : Prop :=
  id ≠ [] ∧ id.length ≤ 63

instance (id : Text) : Decidable (Fits id) :=
  inferInstanceAs (Decidable (id ≠ [] ∧ id.length ≤ 63))

structure Counted (s : Store) : Prop where
  table : Table s.ids s.slots s.indexed
  distinct : s.ids.Nodup
  fits : ∀ id ∈ s.ids, Fits id
  live : s.live = s.faces.countP Prod.snd

def Store.shown (s : Store) (order : List Nat) : List (Text × Bool) :=
  order.filterMap fun i => s.faces[i]?

structure Sound (s : Store) (recent : List (Text × Bool)) : Prop extends Counted s where
  listed : ∃ order, Listed s order ∧ (∀ i < s.metas.length, i ∈ order) ∧ s.shown order = recent

/-- The entry at `i` is that of the id, and is about to be touched. -/
structure Placing (s : Store) (i : Nat) (id : Text) (order : List Nat) (recent : List (Text × Bool)) : Prop
    extends Counted s where
  listed : Listed s order
  all : ∀ j < s.metas.length, j ∈ order ∨ j = i
  here : ∃ alive, s.faces[i]? = some (id, alive)
  shown : s.shown order = recent

variable {s t : Store} {recent : List (Text × Bool)} {order : List Nat} {id : Text} {i : Nat} {alive : Bool}

/-! ### Faces -/

variable {faces : List (Text × Bool)} {was : Bool}

theorem face_id_ne (distinct : (faces.map Prod.fst).Nodup) {i j : Nat} {e e' : Text × Bool}
    (here : faces[i]? = some e) (there : faces[j]? = some e') (other : j ≠ i) : e'.1 ≠ e.1 := by
  intro same
  have at_i : (faces.map Prod.fst)[i]? = some e.1 := by rw [List.getElem?_map, here]; rfl
  have at_j : (faces.map Prod.fst)[j]? = some e.1 := by rw [List.getElem?_map, there, ← same]; rfl
  have inside := (List.getElem?_eq_some_iff.mp at_j).1
  exact other ((List.getElem?_inj inside distinct).mp (at_j.trans at_i.symm))

theorem shown_touch (distinct : (faces.map Prod.fst).Nodup) (once : order.Nodup) (here : faces[i]? = some (id, was))
    (alive : Bool) :
    (i :: order.erase i).filterMap (fun j => (faces.set i (id, alive))[j]?) =
      touched (order.filterMap fun j => faces[j]?) id alive := by
  have inside : i < faces.length := (List.getElem?_eq_some_iff.mp here).1
  have first : (faces.set i (id, alive))[i]? = some (id, alive) := by simp [inside]
  rw [List.filterMap_cons, first, touched, once.erase_eq_filter, List.filterMap_filter, List.filter_filterMap]
  refine congrArg (List.cons (id, alive)) (List.filterMap_congr fun j _ => ?_)
  by_cases same : j = i
  · subst same
    simp [here, Option.filter]
  · rw [List.getElem?_set_ne (Ne.symm same)]
    cases at_j : faces[j]? with
    | none => simp
    | some e =>
      have other : e.1 ≠ id := face_id_ne distinct here at_j same
      simp [same, other, Option.filter]

theorem shown_bury (distinct : (faces.map Prod.fst).Nodup) (here : faces[i]? = some (id, was)) (order : List Nat) :
    order.filterMap (fun j => (faces.set i (id, false))[j]?) = buried (order.filterMap fun j => faces[j]?) id := by
  have inside : i < faces.length := (List.getElem?_eq_some_iff.mp here).1
  rw [buried, List.map_filterMap]
  refine List.filterMap_congr fun j _ => ?_
  by_cases same : j = i
  · subst same
    rw [List.getElem?_set_self inside, here]
    simp
  · rw [List.getElem?_set_ne (Ne.symm same)]
    cases at_j : faces[j]? with
    | none => rfl
    | some e => simp [face_id_ne distinct here at_j same]

theorem map_fst_set (here : faces[i]? = some (id, was)) (alive : Bool) :
    (faces.set i (id, alive)).map Prod.fst = faces.map Prod.fst := by
  obtain ⟨inside, at_i⟩ := List.getElem?_eq_some_iff.mp here
  refine List.ext_getElem? fun j => ?_
  rw [List.getElem?_map, List.getElem?_map, List.getElem?_set]
  split
  next same =>
    subst same
    simp [inside, at_i]
  next => rfl

theorem countP_set_face (here : faces[i]? = some (id, was)) (alive : Bool) :
    (faces.set i (id, alive)).countP Prod.snd + (if was then 1 else 0) =
      faces.countP Prod.snd + if alive then 1 else 0 := by
  obtain ⟨inside, at_i⟩ := List.getElem?_eq_some_iff.mp here
  rw [List.countP_set inside, at_i]
  have some : was = true → 0 < faces.countP Prod.snd := by
    rintro rfl
    exact List.countP_pos_iff.mpr ⟨(id, true), at_i ▸ List.getElem_mem inside, rfl⟩
  cases was with
  | false => simp
  | true =>
    have positive := some rfl
    simp
    omega

/-! ### Changes of one entry -/

theorem faces_modify {change : Entry → Entry} {face : Text × Bool} (inside : i < s.metas.length)
    (gives : ∀ m, s.metas[i]? = some m → (change m).face = face) : (s.modify i change).faces = s.faces.set i face := by
  refine List.ext_getElem? fun j => ?_
  simp only [Store.faces, Store.modify, List.getElem?_map, List.getElem?_modify, List.getElem?_set, List.length_map]
  by_cases same : i = j
  · subst same
    have at_i := List.getElem?_eq_getElem inside
    simp [inside, gives _ at_i]
  · simp [same]

theorem links_change {change : Entry → Entry} (prev : ∀ m, (change m).prev = m.prev)
    (next : ∀ m, (change m).next = m.next) (s : Store) (i : Nat) : (s.modify i change).links = s.links := by
  unfold Store.links Store.modify
  rw [Links.mk.injEq]
  exact ⟨links_modify_other prev s.metas i, links_modify_other next s.metas i, rfl, rfl⟩

theorem Placing.touch (placing : Placing s i id order recent) (faces : t.faces = s.faces.set i (id, alive))
    (links : t.links = s.links) (slots : t.slots = s.slots) (indexed : t.indexed = s.indexed)
    (live : t.live = t.faces.countP Prod.snd) : Sound (metaTouch t i) (touched recent id alive) := by
  obtain ⟨was, here⟩ := placing.here
  have same := same_touch t i
  have ids : t.ids = s.ids := by rw [ids_eq, ids_eq, faces, map_fst_set here]
  have ids' : (metaTouch t i).ids = s.ids := by rw [ids_eq, same.faces, ← ids_eq, ids]
  have length : t.metas.length = s.metas.length := by rw [← length_faces, ← length_faces, faces, List.length_set]
  have inside : i < t.metas.length := by
    rw [length, ← length_faces]
    exact (List.getElem?_eq_some_iff.mp here).1
  have listed : Listed t order := placing.listed.congr links (Nat.le_of_eq length.symm)
  refine ⟨⟨?_, ?_, ?_, ?_⟩, i :: order.erase i, listed.touch inside, ?_, ?_⟩
  · rw [ids', same.slots, same.indexed, slots, indexed]
    exact placing.table
  · rw [ids']
    exact placing.distinct
  · rw [ids']
    exact placing.fits
  · rw [same.live, same.faces, live]
  · intro j less
    rw [same.length, length] at less
    by_cases equal : j = i
    · exact equal ▸ List.mem_cons_self
    · exact List.mem_cons_of_mem _ ((List.mem_erase_of_ne equal).mpr ((placing.all j less).resolve_right equal))
  · have distinct := placing.distinct
    rw [ids_eq] at distinct
    rw [Store.shown, same.faces, faces, shown_touch distinct placing.listed.shows.nodup here, ← placing.shown]
    rfl

/-! ### Finding and making an entry -/

theorem Counted.sync (counted : Counted s) {slots : List (Option Nat)} (synced : Synced s.ids slots) :
    Counted { s with slots, indexed := s.metas.length } := by
  have size : s.ids.length = s.metas.length := List.length_map _
  exact ⟨size ▸ synced.table, counted.distinct, counted.fits, counted.live⟩

theorem Sound.find (sound : Sound s recent) (id : Text) : Sound (metaFind s id).1 recent := by
  obtain ⟨slots, found, synced⟩ := metaFind_eq sound.table sound.distinct id
  obtain ⟨order, listed, all, shown⟩ := sound.listed
  rw [found]
  exact ⟨sound.sync synced, order, listed.congr rfl (Nat.le_refl _), all, shown⟩

theorem ids_getElem? {i : Nat} : s.ids[i]? = some id ↔ ∃ alive, s.faces[i]? = some (id, alive) := by
  rw [ids_eq, List.getElem?_map]
  cases s.faces[i]? with
  | none => simp
  | some e =>
    obtain ⟨other, alive⟩ := e
    simp

theorem links_append {β : Type} {m : Entry} {field : Entry → Option β} (loose : field m = none) (metas : List Entry) :
    (fun j : Nat => (metas ++ [m])[j]?.bind field) = fun j : Nat => metas[j]?.bind field := by
  funext j
  rw [List.getElem?_append]
  split
  · rfl
  next outside =>
    rw [List.getElem?_eq_none (Nat.le_of_not_lt outside)]
    cases j - metas.length <;> simp [loose]

theorem Sound.made (sound : Sound s recent) (fits : Fits id) (absent : id ∉ s.ids) :
    ∃ order, Placing (metaIndexSync { s.append { id } with live := s.live + 1 }) s.metas.length id order recent := by
  obtain ⟨order, listed, all, shown⟩ := sound.listed
  refine ⟨order, ?_⟩
  have cut : snprintf 64 id = id := List.take_of_length_le fits.2
  let made : Store := { s.append { id } with live := s.live + 1 }
  have ids : made.ids = s.ids ++ [id] := by simp [made, Store.ids, Store.append, cut]
  have faces : made.faces = s.faces ++ [(id, true)] := by
    simp [made, Store.faces, Store.append, Entry.face, cut]
  have larger : made.metas.length = s.metas.length + 1 := by simp [made, Store.append]
  have table : Table made.ids made.slots made.indexed := by
    rw [ids]
    exact sound.table.append id
  have links : made.links = s.links := by
    unfold Store.links
    rw [Links.mk.injEq]
    exact ⟨links_append rfl s.metas, links_append rfl s.metas, rfl, rfl⟩
  have counted : Counted made := by
    refine ⟨table, ?_, ?_, ?_⟩
    · rw [ids]
      refine List.nodup_append.mpr ⟨sound.distinct, List.nodup_singleton _, ?_⟩
      rintro a member b here rfl
      exact absent (List.mem_singleton.mp here ▸ member)
    · intro other member
      rw [ids] at member
      rcases List.mem_append.mp member with old | new
      · exact sound.fits other old
      · exact List.mem_singleton.mp new ▸ fits
    · rw [faces, List.countP_append, ← sound.live]
      rfl
  obtain ⟨slots, sync, synced⟩ := metaIndexSync_spec table
  rw [sync]
  refine ⟨counted.sync synced, (listed.congr links (by omega)).congr rfl (Nat.le_refl _), ?_, ⟨true, ?_⟩, ?_⟩
  · intro j less
    have less : j < made.metas.length := less
    rw [larger] at less
    rcases Nat.lt_succ_iff_lt_or_eq.mp less with old | new
    · exact .inl (all j old)
    · exact .inr new
  · show made.faces[s.metas.length]? = some (id, true)
    rw [faces, ← length_faces, List.getElem?_concat_length]
  · show made.shown order = recent
    rw [← shown, Store.shown, Store.shown, faces]
    refine List.filterMap_congr fun j member => ?_
    rw [List.getElem?_append_left]
    rw [length_faces]
    exact listed.inside j member

theorem Sound.ensure (sound : Sound s recent) (fits : Fits id) :
    ∃ order, Placing (metaEnsure s id).1 (metaEnsure s id).2 id order recent := by
  obtain ⟨slots, r, found, -, here, none⟩ := metaFind_spec sound.table id
  have sound' := sound.find id
  unfold metaEnsure
  rw [found] at sound' ⊢
  cases r with
  | some i =>
    obtain ⟨order, listed, all, shown⟩ := sound'.listed
    exact ⟨order, sound'.toCounted, listed, fun j less => .inl (all j less), ids_getElem?.mp (here i rfl), shown⟩
  | none => exact sound'.made fits (none rfl)

/-! ### The steps -/

theorem entry_here (here : s.faces[i]? = some (id, was)) :
    ∃ m, s.metas[i]? = some m ∧ m.id = id ∧ m.deleted = !was := by
  unfold Store.faces at here
  rw [List.getElem?_map, Option.map_eq_some_iff] at here
  obtain ⟨m, at_i, face⟩ := here
  refine ⟨m, at_i, congrArg Prod.fst face, ?_⟩
  have alive : (!m.deleted) = was := congrArg Prod.snd face
  rw [← alive, Bool.not_not]

theorem isDeleted_eq (here : s.faces[i]? = some (id, was)) : s.isDeleted i = !was := by
  obtain ⟨m, at_i, -, deleted⟩ := entry_here here
  simp [Store.isDeleted, at_i, deleted]

theorem faces_change {was : Bool} (here : s.faces[i]? = some (id, was)) {change : Entry → Entry}
    (face : ∀ m : Entry, m.id = id → m.deleted = !was → (change m).face = (id, alive)) :
    (s.modify i change).faces = s.faces.set i (id, alive) := by
  obtain ⟨m, at_i, named, deleted⟩ := entry_here here
  refine faces_modify (List.getElem?_eq_some_iff.mp at_i).1 ?_
  intro m' same
  rw [at_i] at same
  cases same
  exact face m named deleted

theorem Sound.upsert (sound : Sound s recent) (fits : Fits id) (fields : Fields) :
    Sound (metaUpsert s id fields) (touched recent id true) := by
  obtain ⟨order, placing⟩ := sound.ensure fits
  unfold metaUpsert
  generalize metaEnsure s id = made at placing
  obtain ⟨t, i⟩ := made
  dsimp only at placing ⊢
  obtain ⟨was, here⟩ := placing.here
  have inside : i < t.faces.length := (List.getElem?_eq_some_iff.mp here).1
  have count := countP_set_face here true
  rw [isDeleted_eq here]
  cases was with
  | true =>
    have faces : (t.modify i fun m => m.fill fields).faces = t.faces.set i (id, true) :=
      faces_change here (by rintro m rfl deleted; simp [Entry.face, Entry.fill, deleted])
    refine placing.touch faces ?_ rfl rfl ?_
    · exact links_change (by intro m; rfl) (by intro m; rfl) t i
    · show t.live = _
      have same : (t.modify i fun m => m.fill fields).faces.countP Prod.snd = t.faces.countP Prod.snd := by
        rw [faces]
        simpa using count
      exact placing.live.trans same.symm
  | false =>
    let u : Store := { t.modify i fun m => { m with deleted := false } with live := t.live + 1 }
    have marked : u.faces = t.faces.set i (id, true) :=
      @faces_change t id i true false here _ (by rintro m rfl deleted; simp [Entry.face])
    have here' : u.faces[i]? = some (id, true) := by rw [marked, List.getElem?_set_self inside]
    have faces : (u.modify i fun m => m.fill fields).faces = t.faces.set i (id, true) := by
      rw [@faces_change u id i true true here' _ (by rintro m rfl deleted; simp [Entry.face, Entry.fill, deleted]),
        marked, List.set_set]
    refine placing.touch faces ?_ rfl rfl ?_
    · exact (links_change (by intro m; rfl) (by intro m; rfl) u i).trans
        (links_change (by intro m; rfl) (by intro m; rfl) t i)
    · have same : (u.modify i fun m => m.fill fields).faces.countP Prod.snd = t.faces.countP Prod.snd + 1 := by
        rw [faces]
        simpa using count
      have live : t.live + 1 = (u.modify i fun m => m.fill fields).faces.countP Prod.snd := by rw [same, placing.live]
      exact live

theorem buried_of_not_mem {recent : List (Text × Bool)} (absent : (id, true) ∉ recent) : buried recent id = recent := by
  unfold buried
  refine (List.map_congr_left fun e member => ?_).trans (List.map_id recent)
  obtain ⟨other, alive⟩ := e
  split
  next same =>
    obtain rfl : other = id := same
    cases alive with
    | true => exact absurd member absent
    | false => rfl
  next => rfl

theorem mem_shown {e : Text × Bool} (member : e ∈ s.shown order) : ∃ j : Nat, s.faces[j]? = some e := by
  obtain ⟨j, -, here⟩ := List.mem_filterMap.mp member
  exact ⟨j, here⟩

theorem Sound.dead (sound : Sound s recent) (face : s.faces[i]? = some (id, false)) : (id, true) ∉ recent := by
  obtain ⟨order, -, -, shown⟩ := sound.listed
  have distinct := sound.distinct
  rw [ids_eq] at distinct
  intro member
  rw [← shown] at member
  obtain ⟨j, at_j⟩ := mem_shown member
  by_cases same : j = i
  · rw [same, face] at at_j
    cases at_j
  · exact face_id_ne distinct face at_j same rfl

theorem Sound.bury (sound : Sound s recent) (face : s.faces[i]? = some (id, true)) :
    Sound { s.modify i fun m => { m with deleted := true } with live := s.live - 1 } (buried recent id) := by
  obtain ⟨order, listed, all, shown⟩ := sound.listed
  have distinct := sound.distinct
  rw [ids_eq] at distinct
  let t : Store := { s.modify i fun m => { m with deleted := true } with live := s.live - 1 }
  have faces : t.faces = s.faces.set i (id, false) :=
    @faces_change s id i false true face _ (by rintro m rfl _; simp [Entry.face])
  have ids : t.ids = s.ids := by rw [ids_eq, faces, map_fst_set face, ← ids_eq]
  have links : t.links = s.links := links_change (by intro m; rfl) (by intro m; rfl) s i
  have size : t.metas.length = s.metas.length := by rw [← length_faces, faces, List.length_set, length_faces]
  have count := countP_set_face face false
  show Sound t (buried recent id)
  refine ⟨⟨?_, ?_, ?_, ?_⟩, order, listed.congr links (Nat.le_of_eq size.symm), ?_, ?_⟩
  · rw [ids]
    exact sound.table
  · rw [ids]
    exact sound.distinct
  · rw [ids]
    exact sound.fits
  · rw [faces]
    show s.live - 1 = _
    rw [sound.live]
    simp at count
    omega
  · intro j less
    rw [size] at less
    exact all j less
  · rw [← shown, Store.shown, faces]
    exact shown_bury distinct face order

theorem Sound.delete (sound : Sound s recent) (id : Text) : Sound (metaDelete s id) (buried recent id) := by
  obtain ⟨slots, r, found, -, here, none⟩ := metaFind_spec sound.table id
  have sound' := sound.find id
  unfold metaDelete
  rw [found] at sound' ⊢
  cases r with
  | none =>
    rw [buried_of_not_mem]
    · exact sound'
    · intro member
      obtain ⟨order, -, -, shown⟩ := sound.listed
      rw [← shown] at member
      obtain ⟨j, at_j⟩ := mem_shown member
      exact none rfl (List.mem_of_getElem? (ids_getElem?.mpr ⟨true, at_j⟩))
  | some i =>
    obtain ⟨was, face⟩ := ids_getElem?.mp (here i rfl)
    have deleted : Store.isDeleted { s with slots, indexed := s.metas.length } i = !was := isDeleted_eq face
    dsimp only
    rw [deleted]
    cases was with
    | false =>
      rw [buried_of_not_mem (sound.dead face)]
      exact sound'
    | true => exact sound'.bury face

/-! ### Loading -/

def replayed (recent : List (Text × Bool)) (r : Record) : List (Text × Bool) :=
  if r.id = [] ∨ 64 ≤ r.id.length then recent else touched recent r.id !r.deleted

theorem Sound.replay (sound : Sound s recent) (r : Record) : Sound (replay s r) (replayed recent r) := by
  unfold SessionTable.replay replayed
  split
  · exact sound
  next accepted =>
    have fits : Fits r.id := by
      unfold Fits
      rw [not_or] at accepted
      exact ⟨accepted.1, by omega⟩
    obtain ⟨order, placing⟩ := sound.ensure fits
    generalize metaEnsure s r.id = made at placing
    obtain ⟨t, i⟩ := made
    dsimp only at placing ⊢
    obtain ⟨was, here⟩ := placing.here
    have count := countP_set_face here (!r.deleted)
    have faces : (t.modify i fun m =>
        { m.fill { r.fields with sharedMemory := false } with deleted := r.deleted }).faces =
        t.faces.set i (r.id, !r.deleted) :=
      faces_change here (by rintro m named _; simp [Entry.face, Entry.fill, named])
    refine placing.touch faces (links_change (by intro m; rfl) (by intro m; rfl) t i) rfl rfl ?_
    have live : t.live = t.faces.countP Prod.snd := placing.live
    refine Eq.trans ?_ (congrArg (List.countP Prod.snd) faces).symm
    dsimp only
    rw [isDeleted_eq here]
    cases was <;> cases mark : r.deleted <;> simp [mark] at count ⊢ <;> omega

theorem Sound.journal (lines : List Record) (sound : Sound s recent) :
    Sound (lines.foldl SessionTable.replay s) (lines.foldl replayed recent) := by
  induction lines generalizing s recent with
  | nil => exact sound
  | cons line lines ih => exact ih (sound.replay line)

end CognitiveOs.SessionTable
