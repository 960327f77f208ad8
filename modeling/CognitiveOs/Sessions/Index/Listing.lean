import CognitiveOs.Sessions.Index.Model
import Mathlib.Data.List.Nodup

/-!
# The listing of the session index

The array of entries and the recency list are one list of entries, latest first. A
change of an entry puts it at the front of that list, a tombstone takes it out.
-/

namespace CognitiveOs.SessionIndex

open Foundation Infra Sessions

variable {s : Store} {id : Text} {m : Meta}

def order (metas : List Meta) (recency : List Nat) : List Meta :=
  recency.filterMap fun i => metas[i]?

def record (entries : List Meta) (m : Meta) : List Meta :=
  live [m] ++ entries.filter fun other => other.id ≠ m.id

structure Meta.Named (m : Meta) : Prop where
  id : m.id ≠ []
  idLength : m.id.length ≤ 63
  titleLength : m.title.length ≤ 127

structure Wf (s : Store) : Prop where
  ids : (s.metas.map Meta.id).Nodup
  recency : s.recency.Nodup
  positions : ∀ i, i ∈ s.recency ↔ i < s.metas.length
  named : ∀ m ∈ s.metas, m.Named

variable {metas : List Meta}

theorem mem_live : m ∈ live metas ↔ m ∈ metas ∧ m.deleted = false := by
  simp [live]

theorem live_filter (p : Meta → Bool) (metas : List Meta) :
    live (metas.filter p) = (live metas).filter p := by
  simp only [live, List.filter_filter, Bool.and_comm]

theorem mem_record {entries : List Meta} {other : Meta} :
    other ∈ record entries m ↔
      other = m ∧ m.deleted = false ∨ other ∈ entries ∧ other.id ≠ m.id := by
  simp only [record, List.mem_append, mem_live, List.mem_filter, List.mem_singleton,
    decide_eq_true_eq]
  refine or_congr_left ⟨?_, ?_⟩
  · rintro ⟨rfl, alive⟩
    exact ⟨rfl, alive⟩
  · rintro ⟨rfl, alive⟩
    exact ⟨rfl, alive⟩

theorem listing_eq (s : Store) : listing s = live (order s.metas s.recency) := rfl

theorem mem_order (wf : Wf s) : m ∈ order s.metas s.recency ↔ m ∈ s.metas := by
  simp only [order, List.mem_filterMap, wf.positions]
  constructor
  · rintro ⟨i, _, found⟩
    exact List.mem_of_getElem? found
  · intro member
    obtain ⟨i, bound, rfl⟩ := List.mem_iff_getElem.mp member
    exact ⟨i, bound, List.getElem?_eq_getElem bound⟩

theorem mem_listing (wf : Wf s) : m ∈ listing s ↔ m ∈ s.metas ∧ m.deleted = false := by
  rw [listing_eq, mem_live, mem_order wf]

theorem order_range (metas : List Meta) : order metas (List.range metas.length) = metas := by
  have values : ∀ i ∈ List.range metas.length, metas[i]? = some (metas.getD i { id := [] }) := by
    intro i member
    have bound : i < metas.length := List.mem_range.mp member
    simp [List.getD, bound]
  rw [order, List.filterMap_congr values, List.filterMap_eq_map']
  refine List.ext_getElem (by simp) fun i _ bound => ?_
  simp [List.getD, bound]

theorem order_perm (wf : Wf s) : (order s.metas s.recency).Perm s.metas := by
  have positions : s.recency.Perm (List.range s.metas.length) :=
    (List.perm_ext_iff_of_nodup wf.recency List.nodup_range).mpr fun i => by
      simp [wf.positions]
  have ordered : (order s.metas s.recency).Perm (order s.metas (List.range s.metas.length)) :=
    positions.filterMap _
  rwa [order_range] at ordered

theorem listing_perm (wf : Wf s) : (listing s).Perm (live s.metas) :=
  (order_perm wf).filter _

theorem listing_ids (wf : Wf s) : ((listing s).map Meta.id).Nodup := by
  have whole : ((order s.metas s.recency).map Meta.id).Nodup :=
    ((order_perm wf).map Meta.id).nodup_iff.mpr wf.ids
  exact whole.sublist ((List.filter_sublist).map _)

variable {x y : Meta}

theorem eq_of_id (ids : (metas.map Meta.id).Nodup) (hx : x ∈ metas) (hy : y ∈ metas) (same : x.id = y.id) : x = y :=
  List.inj_on_of_nodup_map ids hx hy same

/-! ### Finding and placing an entry -/

theorem metaFind_eq_some {i : Nat} (found : metaFind s id = some i) :
    ∃ m, s.metas[i]? = some m ∧ m.id = id := by
  obtain ⟨bound, holds, _⟩ := List.findIdx?_eq_some_iff_getElem.mp found
  exact ⟨_, List.getElem?_eq_getElem bound, by simpa using holds⟩

theorem metaFind_eq_none : metaFind s id = none ↔ ∀ m ∈ s.metas, m.id ≠ id := by
  simp [metaFind, List.findIdx?_eq_none_iff]

theorem getElem?_id_ne (ids : (metas.map Meta.id).Nodup) {i j : Nat} (hx : metas[i]? = some x)
    (hy : metas[j]? = some y) (distinct : j ≠ i) : y.id ≠ x.id := by
  intro same
  have at_i : (metas.map Meta.id)[i]? = some x.id := by simp [hx]
  have at_j : (metas.map Meta.id)[j]? = some x.id := by simp [hy, same]
  obtain ⟨bound, _⟩ := List.getElem?_eq_some_iff.mp hy
  exact distinct ((List.getElem?_inj (by simpa using bound) ids).mp (at_j.trans at_i.symm))

theorem order_erase {recency : List Nat} {i : Nat} (ids : (metas.map Meta.id).Nodup) (distinct : recency.Nodup)
    (found : metas[i]? = some m) :
    order metas (recency.erase i) = (order metas recency).filter fun other => other.id ≠ m.id := by
  rw [order, order, distinct.erase_eq_filter, List.filterMap_filter, List.filter_filterMap]
  refine List.filterMap_congr fun j _ => ?_
  by_cases here : j = i
  · subst here
    simp [found, Option.filter]
  · cases at_j : metas[j]? with
    | none => simp
    | some other => simp [here, Option.filter, getElem?_id_ne ids found at_j here]

theorem order_congr {after : List Meta} {recency : List Nat} (same : ∀ j ∈ recency, after[j]? = metas[j]?) :
    order after recency = order metas recency :=
  List.filterMap_congr same

theorem modify_eq_set {i : Nat} {fill : Meta → Meta} (found : metas[i]? = some m) :
    metas.modify i fill = metas.set i (fill m) := by
  obtain ⟨bound, rfl⟩ := List.getElem?_eq_some_iff.mp found
  refine List.ext_getElem (by simp) fun j _ _ => ?_
  by_cases here : i = j
  · subst here
    simp
  · simp [here]

theorem map_id_set {i : Nat} {old : Meta} (found : metas[i]? = some old) (same : old.id = m.id) :
    (metas.set i m).map Meta.id = metas.map Meta.id := by
  obtain ⟨bound, rfl⟩ := List.getElem?_eq_some_iff.mp found
  refine List.ext_getElem? fun j => ?_
  by_cases here : i = j
  · subst here
    simp [same, bound]
  · simp [here]

theorem metaEnsure_spec (wf : Wf s) (short : id.length ≤ 63) :
    ∃ old, old.id = id ∧ (metaEnsure s id).2.metas[(metaEnsure s id).1]? = some old ∧
      ((metaEnsure s id).2.metas.map Meta.id).Nodup ∧
      order (metaEnsure s id).2.metas (s.recency.erase (metaEnsure s id).1) =
        (order s.metas s.recency).filter (fun other => other.id ≠ id) ∧
      (metaEnsure s id).2.metas.length = max s.metas.length ((metaEnsure s id).1 + 1) ∧
      ∀ m ∈ (metaEnsure s id).2.metas, m ∈ s.metas ∨ m = { id } := by
  unfold metaEnsure
  cases found : metaFind s id with
  | some i =>
    obtain ⟨old, at_i, rfl⟩ := metaFind_eq_some found
    obtain ⟨bound, _⟩ := List.getElem?_eq_some_iff.mp at_i
    refine ⟨old, rfl, at_i, wf.ids, order_erase wf.ids wf.recency at_i, ?_, fun m => .inl⟩
    simp only
    omega
  | none =>
    have absent := metaFind_eq_none.mp found
    have unlisted : s.metas.length ∉ s.recency := by simp [wf.positions]
    refine ⟨{ id := id.take 63 }, List.take_of_length_le short, by simp, ?_, ?_, by simp, ?_⟩
    · simp only [List.map_append, List.map_cons, List.map_nil, List.take_of_length_le short]
      refine List.nodup_append.mpr ⟨wf.ids, by simp, ?_⟩
      intro x hx y hy
      obtain ⟨m, member, rfl⟩ := List.mem_map.mp hx
      obtain rfl : y = id := by simpa using hy
      exact absent m member
    · have earlier : order (s.metas ++ [{ id := id.take 63 }]) s.recency = order s.metas s.recency :=
        order_congr fun j member => List.getElem?_append_left ((wf.positions j).mp member)
      simp only
      rw [List.erase_of_not_mem unlisted, earlier, eq_comm, List.filter_eq_self]
      intro other member
      simpa using absent other ((mem_order wf).mp member)
    · intro m member
      rcases List.mem_append.mp member with old | new
      · exact .inl old
      · obtain rfl := List.mem_singleton.mp new
        exact .inr (by rw [List.take_of_length_le short])

theorem metaEnsure_recency (s : Store) (id : Text) : (metaEnsure s id).2.recency = s.recency := by
  unfold metaEnsure
  cases metaFind s id <;> rfl

theorem metaEnsure_le (s : Store) (id : Text) : (metaEnsure s id).1 ≤ s.metas.length := by
  unfold metaEnsure
  cases found : metaFind s id with
  | none => exact le_refl _
  | some i =>
    obtain ⟨_, at_i, _⟩ := metaFind_eq_some found
    exact (List.getElem?_eq_some_iff.mp at_i).1.le

section Place

variable {fill : Meta → Meta} (wf : Wf s) (short : id.length ≤ 63) (fills : ∀ old, old.id = id → fill old = m)
  (ident : m.id = id)
include wf short fills ident

theorem order_metaPlace :
    order (metaPlace s id fill).metas (metaPlace s id fill).recency =
      m :: (order s.metas s.recency).filter fun other => other.id ≠ m.id := by
  obtain ⟨old, oldId, at_i, ids, rest, _, _⟩ := metaEnsure_spec wf short
  have same := metaEnsure_recency s id
  have later : order ((metaEnsure s id).2.metas.modify (metaEnsure s id).1 fill)
      (s.recency.erase (metaEnsure s id).1) =
        order (metaEnsure s id).2.metas (s.recency.erase (metaEnsure s id).1) := by
    refine order_congr fun j member => ?_
    have distinct : (metaEnsure s id).1 ≠ j := fun here =>
      wf.recency.not_mem_erase (here ▸ member)
    simp [distinct]
  have front : ((metaEnsure s id).2.metas.modify (metaEnsure s id).1 fill)[(metaEnsure s id).1]? =
      some m := by
    simp [at_i, fills old oldId]
  simp only [metaPlace, metaTouch, same, ident]
  rw [← rest, ← later]
  exact List.filterMap_cons_some front

theorem listing_metaPlace : listing (metaPlace s id fill) = record (listing s) m := by
  rw [listing_eq, order_metaPlace wf short fills ident, listing_eq, record, ← live_filter]
  exact List.filter_append [m] _

omit ident in
theorem metaPlace_head :
    ((metaPlace s id fill).recency.head?.bind fun i => (metaPlace s id fill).metas[i]?) = some m := by
  obtain ⟨old, oldId, at_i, _⟩ := metaEnsure_spec wf short
  simp [metaPlace, metaTouch, at_i, fills old oldId]

theorem wf_metaPlace (named : m.Named) : Wf (metaPlace s id fill) := by
  obtain ⟨old, oldId, at_i, ids, _, length, others⟩ := metaEnsure_spec wf short
  have same := metaEnsure_recency s id
  have filled : (metaEnsure s id).2.metas.modify (metaEnsure s id).1 fill =
      (metaEnsure s id).2.metas.set (metaEnsure s id).1 m := by
    rw [modify_eq_set at_i, fills old oldId]
  refine ⟨?_, ?_, fun j => ?_, fun other member => ?_⟩
  · simp only [metaPlace, metaTouch, filled]
    rw [map_id_set at_i (oldId.trans ident.symm)]
    exact ids
  · simp only [metaPlace, metaTouch, same]
    exact List.nodup_cons.mpr ⟨wf.recency.not_mem_erase, wf.recency.erase _⟩
  · simp only [metaPlace, metaTouch, same, List.mem_cons, List.length_modify, length]
    by_cases here : j = (metaEnsure s id).1
    · simp only [here, true_or, true_iff]
      omega
    · rw [List.mem_erase_of_ne here, wf.positions]
      have bounds := metaEnsure_le s id
      simp only [here, false_or]
      omega
  · simp only [metaPlace, metaTouch, filled] at member
    rcases List.mem_or_eq_of_mem_set member with earlier | rfl
    · rcases others other earlier with old | rfl
      · exact wf.named other old
      · exact ⟨ident ▸ named.id, short, by simp⟩
    · exact named

end Place

/-! ### Changing an entry in its place -/

/-- The entry with the id of `m` is replaced by `m`. -/
def replace (m : Meta) (other : Meta) : Meta :=
  if other.id = m.id then m else other

section InPlace

variable {i : Nat} {old : Meta}

theorem order_set (wf : Wf s) (found : s.metas[i]? = some old) (same : old.id = m.id) :
    order (s.metas.set i m) s.recency = (order s.metas s.recency).map (replace m) := by
  rw [order, order, List.map_filterMap]
  refine List.filterMap_congr fun j _ => ?_
  by_cases here : i = j
  · obtain ⟨bound, rfl⟩ := List.getElem?_eq_some_iff.mp found
    subst here
    simp [replace, same, bound]
  · cases at_j : s.metas[j]? with
    | none => simp [here, at_j]
    | some other =>
      have distinct := getElem?_id_ne wf.ids found at_j (Ne.symm here)
      simp [here, at_j, replace, same ▸ distinct]

theorem wf_set (wf : Wf s) (found : s.metas[i]? = some old) (same : old.id = m.id)
    (named : m.Named) : Wf { s with metas := s.metas.set i m } := by
  refine ⟨?_, wf.recency, ?_, fun other member => ?_⟩
  · simp only [map_id_set found same]
    exact wf.ids
  · simpa using wf.positions
  · rcases List.mem_or_eq_of_mem_set member with earlier | rfl
    · exact wf.named other earlier
    · exact named

theorem live_map_replace_deleted (gone : m.deleted = true) (metas : List Meta) :
    live (metas.map (replace m)) = record (live metas) m := by
  have gone' : live [m] = [] := by simp [live, gone]
  rw [record, gone', List.nil_append]
  induction metas with
  | nil => rfl
  | cons other metas ih =>
    simp only [live, List.map_cons, List.filter_cons] at ih ⊢
    by_cases its : other.id = m.id
    · cases other.deleted <;> simpa [replace, its, gone] using ih
    · cases alive : other.deleted <;> simpa [replace, its, alive] using ih

theorem live_map_replace_alive {metas : List Meta} (alive : m.deleted = false)
    (was : ∀ other ∈ metas, other.id = m.id → other.deleted = false) :
    live (metas.map (replace m)) = (live metas).map (replace m) := by
  rw [live, live, List.filter_map]
  congr 1
  refine List.filter_congr fun other member => ?_
  by_cases its : other.id = m.id
  · simp [replace, its, alive, was other member its]
  · simp [replace, its]

end InPlace

theorem metaDelete_cases (wf : Wf s) (id : Text) :
    (metaDelete s id = (s, false) ∧ ∀ m ∈ listing s, m.id ≠ id) ∨
      ∃ i old, s.metas[i]? = some old ∧ old.id = id ∧ old.deleted = false ∧
        metaDelete s id = (metaLogChange { s with metas := s.metas.set i { old with deleted := true } }
          { old with deleted := true }, true) := by
  unfold metaDelete
  cases found : metaFind s id with
  | none =>
    refine .inl ⟨rfl, fun m member => ?_⟩
    exact metaFind_eq_none.mp found m ((mem_listing wf).mp member).1
  | some i =>
    obtain ⟨old, at_i, rfl⟩ := metaFind_eq_some found
    simp only [Option.bind_some, at_i, Option.map_some]
    cases gone : old.deleted with
    | true =>
      refine .inl ⟨rfl, fun m member same => ?_⟩
      obtain ⟨member, alive⟩ := (mem_listing wf).mp member
      obtain rfl := eq_of_id wf.ids member (List.mem_of_getElem? at_i) same
      simp [alive] at gone
    | false => exact .inr ⟨i, old, at_i, rfl, gone, rfl⟩

/-! ### Replaying the journal and reading the index -/

variable {f : Files}

def replay (f : Files) (lines : List (Option Meta)) : Store :=
  lines.foldl replayLine { files := f, metaLog := true }

theorem metaLoad_journal {lines : List (Option Meta)} (written : f.journal = some lines) :
    metaLoad f = replay f lines := by
  simp [metaLoad, written, replay]

theorem wf_empty (f : Files) (metaLog : Bool) : Wf { files := f, metaLog } :=
  ⟨by simp, by simp, by simp, by simp⟩

theorem wf_replayLine (wf : Wf s) (line : Option Meta) : Wf (replayLine s line) := by
  cases line with
  | none => exact wf
  | some m =>
    simp only [replayLine]
    split
    · exact wf
    next usable =>
      rw [not_or, not_le] at usable
      have short : m.id.length ≤ 63 := by omega
      exact wf_metaPlace (m := { m with title := m.title.take 127 }) wf short
        (fun old same => by rw [same]) rfl ⟨usable.1, short, List.length_take_le ..⟩

theorem wf_foldl_replayLine (wf : Wf s) (lines : List (Option Meta)) :
    Wf (lines.foldl replayLine s) := by
  induction lines generalizing s with
  | nil => exact wf
  | cons line lines ih => exact ih (wf_replayLine wf line)

theorem wf_replay (f : Files) (lines : List (Option Meta)) : Wf (replay f lines) :=
  wf_foldl_replayLine (wf_empty f true) lines

theorem listing_replayLine (wf : Wf s) (named : m.Named) :
    listing (replayLine s (some m)) = record (listing s) m := by
  have usable : ¬ (m.id = [] ∨ 64 ≤ m.id.length) := by
    rintro (empty | long)
    · exact named.id empty
    · have := named.idLength
      omega
  rw [replayLine, if_neg usable]
  refine listing_metaPlace wf named.idLength (fun old same => ?_) rfl
  rw [same, List.take_of_length_le named.titleLength]

theorem listing_replay_append {lines : List (Option Meta)} (named : m.Named) :
    listing (replay f (lines ++ [some m])) = record (listing (replay f lines)) m := by
  unfold replay
  rw [List.foldl_append]
  exact listing_replayLine (wf_replay f lines) named

theorem listing_replay_none (f : Files) (lines : List (Option Meta)) :
    listing (replay f (lines ++ [none])) = listing (replay f lines) := by
  simp [replay, replayLine]

theorem listing_foldl_array (wf : Wf s) (ids : (metas.map Meta.id).Nodup) (named : ∀ m ∈ metas, m.Named)
    (fresh : ∀ x ∈ listing s, ∀ y ∈ metas, x.id ≠ y.id) :
    listing ((metas.map some).foldl replayLine s) = (live metas).reverse ++ listing s := by
  induction metas generalizing s with
  | nil => simp [live]
  | cons m metas ih =>
    obtain ⟨unused, ids⟩ := List.nodup_cons.mp ids
    have step : listing (replayLine s (some m)) = live [m] ++ listing s := by
      rw [listing_replayLine wf (named m List.mem_cons_self), record]
      congr 1
      refine List.filter_eq_self.mpr fun other member => ?_
      simpa using fresh other member m List.mem_cons_self
    simp only [List.map_cons, List.foldl_cons]
    rw [ih (wf_replayLine wf _) ids (fun other member => named other (List.mem_cons_of_mem _ member)),
      step]
    · simp only [live, List.filter_cons]
      split <;> simp
    · intro x member y hy same
      rw [step, List.mem_append, mem_live, List.mem_singleton] at member
      rcases member with ⟨rfl, _⟩ | earlier
      · exact unused (List.mem_map.mpr ⟨y, hy, same.symm⟩)
      · exact fresh x earlier y (List.mem_cons_of_mem _ hy) same

theorem listing_replay_array (ids : (metas.map Meta.id).Nodup) (named : ∀ m ∈ metas, m.Named) :
    listing (replay f (metas.map some)) = (live metas).reverse := by
  have whole := listing_foldl_array (wf_empty f true) ids named (by simp [listing, live])
  simpa [replay, listing, live] using whole

/-! ### The order by activity -/

theorem activityLe_iff : activityLe x y ↔ activity x < activity y ∨ activity x = activity y ∧ x.id ≤ y.id := by
  simp [activityLe]

theorem activityLe_trans (x y z : Meta) (first : activityLe x y) (second : activityLe y z) :
    activityLe x z := by
  rw [activityLe_iff] at *
  rcases first with first | ⟨first, ids⟩ <;> rcases second with second | ⟨second, later⟩
  · exact .inl (Int.lt_trans first second)
  · exact .inl (second ▸ first)
  · exact .inl (first ▸ second)
  · exact .inr ⟨first.trans second, List.le_trans ids later⟩

theorem activityLe_total (x y : Meta) : (activityLe x y || activityLe y x) = true := by
  rw [Bool.or_eq_true, activityLe_iff, activityLe_iff]
  rcases Int.lt_trichotomy (activity x) (activity y) with less | same | more
  · exact .inl (.inl less)
  · rcases List.le_total x.id y.id with ids | ids
    · exact .inl (.inr ⟨same, ids⟩)
    · exact .inr (.inr ⟨same.symm, ids⟩)
  · exact .inr (.inl more)

theorem id_eq_of_activityLe (first : activityLe x y) (second : activityLe y x) : x.id = y.id := by
  rw [activityLe_iff] at *
  rcases first with first | ⟨first, ids⟩ <;> rcases second with second | ⟨second, later⟩
  · omega
  · omega
  · omega
  · exact List.le_antisymm ids later

theorem mergeSort_reverse {entries sorted : List Meta} (same : entries.Perm sorted)
    (ids : (sorted.map Meta.id).Nodup) (descending : sorted.Pairwise fun x y => activityLe y x) :
    (entries.mergeSort activityLe).reverse = sorted := by
  have perm : (entries.mergeSort activityLe).Perm sorted.reverse :=
    ((List.mergeSort_perm entries activityLe).trans same).trans (List.reverse_perm sorted).symm
  have ascending : sorted.reverse.Pairwise fun x y => activityLe x y :=
    List.pairwise_reverse.mpr descending
  have sorts := List.pairwise_mergeSort activityLe_trans activityLe_total entries
  rw [List.reverse_eq_iff]
  refine perm.eq_of_pairwise (fun x y hx hy first second => ?_) sorts ascending
  have hx : x ∈ sorted := List.mem_reverse.mp (perm.mem_iff.mp hx)
  exact eq_of_id ids hx (List.mem_reverse.mp hy) (id_eq_of_activityLe first second)

theorem foldl_healTranscript {transcripts : List (Text × Text)} (ids : (metas.map Meta.id).Nodup)
    (titled : ∀ t ∈ transcripts, ∃ m ∈ metas, m.id = t.1 ∧ (m.title = [] → t.2 = [])) :
    transcripts.foldl healTranscript (metas, false) = (metas, false) := by
  induction transcripts with
  | nil => rfl
  | cons t transcripts ih =>
    obtain ⟨m, member, same, recovered⟩ := titled t List.mem_cons_self
    have step : healTranscript (metas, false) t = (metas, false) := by
      simp only [healTranscript]
      cases found : metas.findIdx? fun m => m.id = t.1 with
      | none =>
        have absent := List.findIdx?_eq_none_iff.mp found m member
        simp [same] at absent
      | some i =>
        obtain ⟨bound, holds, _⟩ := List.findIdx?_eq_some_iff_getElem.mp found
        have its : metas[i] = m :=
          eq_of_id ids (List.getElem_mem bound) member ((by simpa using holds : _ = t.1).trans same.symm)
        refine if_neg ?_
        rintro ⟨empty, title⟩
        rw [List.getElem?_eq_getElem bound, its] at empty
        exact title (recovered (by simpa using empty))
    rw [List.foldl_cons, step]
    exact ih fun other member => titled other (List.mem_cons_of_mem _ member)

theorem metaLoad_index (small : f.journal = none) (ids : ((f.index.getD []).map Meta.id).Nodup)
    (named : ∀ m ∈ f.index.getD [], m.Named ∧ m.deleted = false)
    (titled : ∀ t ∈ f.transcripts, ∃ m ∈ f.index.getD [], m.id = t.1 ∧ (m.title = [] → t.2 = [])) :
    metaLoad f = { files := f, metas := (f.index.getD []).mergeSort activityLe,
                   recency := (List.range (f.index.getD []).length).reverse } := by
  have legacy : metaLoadLegacy f = { files := f, metas := f.index.getD [] } := by
    unfold metaLoadLegacy
    cases written : f.index with
    | none => simp
    | some entries =>
      simp only [written, Option.getD_some] at ids named titled ⊢
      have read : ((entries.filter fun m => m.id ≠ []).map fun m =>
          { m with id := m.id.take 63, title := m.title.take 127, deleted := false }) = entries := by
        rw [List.filter_eq_self.mpr fun m member => by simpa using (named m member).1.id]
        refine (List.map_congr_left fun m member => ?_).trans (List.map_id entries)
        obtain ⟨keeps, alive⟩ := named m member
        rw [List.take_of_length_le keeps.idLength, List.take_of_length_le keeps.titleLength, ← alive]
        rfl
      rw [read, foldl_healTranscript ids titled]
      rfl
  simp only [metaLoad, small, legacy, List.length_mergeSort]

theorem listing_range_reverse (alive : ∀ m ∈ metas, m.deleted = false) :
    live (order metas (List.range metas.length).reverse) = metas.reverse := by
  have backwards : order metas (List.range metas.length).reverse = metas.reverse := by
    rw [order, List.filterMap_reverse]
    exact congrArg List.reverse (order_range metas)
  rw [backwards]
  refine List.filter_eq_self.mpr fun m member => ?_
  simpa using alive m (List.mem_reverse.mp member)

end CognitiveOs.SessionIndex
