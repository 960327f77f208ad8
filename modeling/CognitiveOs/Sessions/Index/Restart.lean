import CognitiveOs.Sessions.Index.Steps

/-!
# Restarts of the session index

What a new process lists after a run, against what the old one listed.
-/

namespace CognitiveOs.SessionIndex

open Foundation Infra Sessions

variable {s : Store} {id : Text} {m : Meta} {l : Live}

theorem Durable.step (durable : Durable s) {action : Action} (safe : Safe s action) :
    Durable (s.step action) := by
  cases action with
  | new => exact durable.new safe
  | notePrompt => exact durable.notePrompt safe
  | runStart => exact durable.runStart
  | runEnd => exact durable.runEnd safe
  | recordTurn => exact durable.recordTurn safe
  | runDone => exact durable.runDone
  | setTitle => exact durable.setTitle safe
  | delete => exact durable.delete safe
  | restart => exact durable.restart

theorem durable_empty : Durable {} := by
  refine ⟨wf_empty {} false, .inl ⟨⟨rfl, rfl, Nat.zero_le _, List.Perm.refl _, List.Pairwise.nil⟩, ?_, ?_⟩⟩
  · simp
  · simp

theorem durable_run {actions : List Action} (run : (sessions.restrict Safe).Run {} actions s) :
    Durable s := by
  refine run.invariant (fun before action after durable taken => ?_) durable_empty
  obtain ⟨safe, rfl⟩ := taken
  exact durable.step safe

/-- In every run of safe steps, a new process lists the sessions of the old one. -/
theorem reload_lists {actions : List Action} (run : (sessions.restrict Safe).Run {} actions s) :
    listing (metaLoad s.files) = listing s :=
  (durable_run run).listing_metaLoad

theorem rename_lost (durable : Durable s) (opened : s.metaLog = true) {title : Text}
    (listed : m ∈ listing s) (some : title ≠ []) (short : title.length < 128)
    (changed : title ≠ m.title) :
    listing (metaLoad (s.step (.setTitle m.id title)).files) ≠
      listing (s.step (.setTitle m.id title)) := by
  obtain ⟨stored, alive⟩ := (mem_listing durable.wf).mp listed
  cases at_i : metaFind s m.id with
  | none => exact absurd rfl (metaFind_eq_none.mp at_i m stored)
  | some i =>
    obtain ⟨old, found, same⟩ := metaFind_eq_some at_i
    obtain rfl := eq_of_id durable.wf.ids (List.mem_of_getElem? found) stored same
    have renamed : s.step (.setTitle old.id title) =
        { setLive s old.id ((s.live old.id).map fun l => { l with title }) with
          metas := s.metas.set i { old with title } } := by
      simp only [Store.step, SessionIndex.setTitle, at_i, Option.bind_some, found, Option.map_some]
      rw [if_neg (by simpa [some] using short), if_neg (by simp [alive]),
        metaSave_open (by exact opened)]
      rfl
    have lists := listing_retitle durable.wf title found alive
    rw [renamed]
    intro reloaded
    have listedNew := (durable.listing_metaLoad.symm.trans reloaded).trans lists
    have member : retitle old.id title old ∈ listing s :=
      listedNew ▸ List.mem_map_of_mem listed
    have its := eq_of_id (listing_ids durable.wf) member listed (by simp)
    rw [retitle, if_pos rfl] at its
    exact changed (congrArg Meta.title its)

/-! ### A run into the journal -/

def token (k : Nat) : List (Fin 16) :=
  [Fin.ofNat 16 (k / 16), Fin.ofNat 16 k] ++ List.replicate 30 0

def creation (k : Nat) : Action :=
  .new (token k) k

def created (k : Nat) : Meta :=
  { id := sessionUuid (token k), createdMs := k, lastActiveMs := k }

theorem hexDigit_inj {i j : Fin 16} (same : hexDigit i.val.toUInt64 = hexDigit j.val.toUInt64) :
    i = j := by
  revert i j
  decide

theorem uuid_token_inj {j k : Nat} (hj : j < 256) (hk : k < 256)
    (same : sessionUuid (token j) = sessionUuid (token k)) : j = k := by
  have first (k : Nat) : (sessionUuid (token k))[0]? =
      some (hexDigit (Fin.ofNat 16 (k / 16)).val.toUInt64) := rfl
  have second (k : Nat) : (sessionUuid (token k))[1]? =
      some (hexDigit (Fin.ofNat 16 k).val.toUInt64) := rfl
  have high := hexDigit_inj (Option.some.inj ((first j).symm.trans (same ▸ first k)))
  have low := hexDigit_inj (Option.some.inj ((second j).symm.trans (same ▸ second k)))
  have high := congrArg Fin.val high
  have low := congrArg Fin.val low
  simp only [Fin.val_ofNat] at high low
  omega

theorem uuid_token_length (k : Nat) : (sessionUuid (token k)).length = 36 := rfl

structure Created (s : Store) (k : Nat) : Prop where
  run : (sessions.restrict Safe).Run {} ((List.range k).map creation) s
  metas : s.metas = (List.range k).map created
  listed : listing s = s.metas.reverse

theorem created_inj {j k : Nat} (hj : j < 256) (hk : k < 256)
    (same : (created j).id = (created k).id) : j = k :=
  uuid_token_inj hj hk same

theorem activityLe_created {j k : Nat} (less : j < k) : activityLe (created j) (created k) := by
  have activity_created (k : Nat) : activity (created k) = k := by
    simp [activity, created]
  rw [activityLe_iff, activity_created, activity_created]
  exact .inl (Int.ofNat_lt.mpr less)

theorem Created.next {k : Nat} (before : Created s k) (closed : s.metaLog = false) (room : k ≤ 128) :
    Created (s.step (creation k)) (k + 1) ∧ ((s.step (creation k)).metaLog = decide (k = 128)) := by
  have wf := (durable_run before.run).wf
  have stored : ∀ m ∈ s.metas, ∃ j, j < k ∧ m = created j := by
    intro m member
    rw [before.metas] at member
    obtain ⟨j, bound, rfl⟩ := List.mem_map.mp member
    exact ⟨j, List.mem_range.mp bound, rfl⟩
  have alive : live s.metas = s.metas := by
    refine List.filter_eq_self.mpr fun m member => ?_
    obtain ⟨j, _, rfl⟩ := stored m member
    rfl
  have absent : metaFind s (sessionUuid (token k)) = none := by
    refine metaFind_eq_none.mpr fun m member same => ?_
    obtain ⟨j, bound, rfl⟩ := stored m member
    have := created_inj (by omega) (by omega) same
    omega
  have short : (sessionUuid (token k)).length ≤ 63 := by
    rw [uuid_token_length]
    omega
  have safe : Safe s (creation k) := by
    refine fun _ => ⟨short, fun _ => ?_⟩
    split
    · rw [before.listed, alive]
    · intro m member _
      rw [before.listed, List.mem_reverse] at member
      obtain ⟨j, bound, rfl⟩ := stored m member
      exact activityLe_created bound
  have stepped : s.step (creation k) =
      metaSave (metaUpsert s (sessionUuid (token k)) { createdMs := k, lastActiveMs := k }) := by
    simp [creation, Store.step, sessionNew, absent]
  have lists := publish_listing (l := { createdMs := k, lastActiveMs := k }) wf short
  rw [← stepped] at lists
  obtain ⟨array, log⟩ : (s.step (creation k)).metas = s.metas ++ [created k] ∧
      (s.step (creation k)).metaLog = decide (k = 128) := by
    have array := metaPlace_new short absent (fillFrom { createdMs := k, lastActiveMs := k })
    have opened := (metaPlace_frame s (sessionUuid (token k))
      (fillFrom { createdMs := k, lastActiveMs := k })).2.2.trans closed
    have length : s.metas.length = k := by simp [before.metas]
    rw [stepped, metaUpsert_eq wf short, metaLogChange, if_neg (by simp [opened])]
    by_cases full : k = 128
    · rw [metaSave_migrates opened (by rw [array, List.length_append, length]; simp [full])]
      exact ⟨array, by simp [full]⟩
    · rw [metaSave_small opened (by simp only [array, List.length_append, List.length_singleton]; omega)]
      exact ⟨array, by simp [full, opened]⟩
  refine ⟨⟨?_, ?_, ?_⟩, log⟩
  · rw [List.range_succ, List.map_append]
    exact before.run.step ⟨safe, rfl⟩
  · rw [array, before.metas, List.range_succ, List.map_append]
    rfl
  · have others : (listing s).filter (fun m => m.id ≠ (created k).id) = listing s := by
      refine List.filter_eq_self.mpr fun m member => ?_
      rw [before.listed, List.mem_reverse] at member
      exact decide_eq_true (metaFind_eq_none.mp absent m member)
    refine (lists.trans (congrArg (live [created k] ++ ·) others)).trans ?_
    rw [array, before.listed, List.reverse_append]
    rfl

theorem created_run (k : Nat) (room : k ≤ 129) :
    ∃ s, Created s k ∧ s.metaLog = decide (k = 129) := by
  induction k with
  | zero => exact ⟨{}, ⟨.start _, rfl, rfl⟩, rfl⟩
  | succ k ih =>
    obtain ⟨s, before, log⟩ := ih (by omega)
    have closed : s.metaLog = false := by
      rw [log]
      exact decide_eq_false (by omega)
    obtain ⟨after, logAfter⟩ := before.next closed (by omega)
    exact ⟨_, after, by simpa using logAfter⟩

theorem reload_fails :
    ¬ ∀ (actions : List Action) (s : Store), sessions.Run {} actions s →
      listing (metaLoad s.files) = listing s := by
  intro reloads
  obtain ⟨s, made, opened⟩ := created_run 129 (by omega)
  have durable := durable_run made.run
  have listed : created 0 ∈ listing s := by
    rw [made.listed, made.metas, List.mem_reverse]
    exact List.mem_map_of_mem (List.mem_range.mpr (by omega))
  have some : ascii "plan" ≠ [] := by decide
  exact rename_lost durable opened listed some (by decide) (by decide)
    (reloads _ _ (made.run.unrestrict.step rfl))

theorem reload_lists_renamed :
    listing (metaLoad (Store.step (Store.step {} (creation 7))
      (.setTitle (created 7).id (ascii "plan"))).files) =
        listing (Store.step (Store.step {} (creation 7)) (.setTitle (created 7).id (ascii "plan"))) := by
  have create : Safe {} (creation 7) := fun _ => ⟨by decide, fun _ => by simp [listing, live]⟩
  have rename : Safe (Store.step {} (creation 7)) (.setTitle (created 7).id (ascii "plan")) :=
    fun opened => absurd opened (by decide)
  exact reload_lists (.cons ⟨create, rfl⟩ (.single ⟨rename, rfl⟩))

end CognitiveOs.SessionIndex
