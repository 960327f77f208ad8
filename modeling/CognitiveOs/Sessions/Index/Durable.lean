import CognitiveOs.Sessions.Index.Listing

/-!
# What the files of the session index keep

What a new process reads from the chat directory, against what the old one listed. The
small index keeps the sessions but not the recency list, so its order comes back only
while it is the order of activity; the journal keeps every record but no renames.
-/

namespace CognitiveOs.SessionIndex

open Foundation Infra Sessions

variable {s : Store} {id : Text} {m : Meta} {l : Live}

def sessions : Machine Store Action :=
  Machine.ofFun Store.step

/-- Publishing this session leaves an order that the files keep. The 129th entry moves the
index to the journal, which lists the array from its end; before that the index is listed
by activity. -/
def InOrder (s : Store) (id : Text) (l : Live) : Prop :=
  id.length ≤ 63 ∧ (s.metaLog = false →
    if metaFind s id = none ∧ s.metas.length = 128 then listing s = (live s.metas).reverse
    else ∀ m ∈ listing s, m.id ≠ id →
      activityLe m { id, createdMs := l.createdMs, lastActiveMs := l.lastActiveMs })

def Owned (id : Text) : Prop :=
  safeName id = id ∧ id ≠ journalName

def Known (s : Store) (id : Text) : Prop :=
  (s.live id).isSome ∨ ∃ m ∈ listing s, m.id = id

def Safe (s : Store) : Action → Prop
  | .new token now =>
    metaFind s (sessionUuid token) = none →
      InOrder s (sessionUuid token) { createdMs := now, lastActiveMs := now }
  | .notePrompt sessionId prompt now =>
    prompt ≠ [] → InOrder s (wanted sessionId) (sessionGet s (wanted sessionId) now)
  | .runEnd sessionId _ =>
    ∀ l, running s (wanted sessionId) = some l → InOrder s (wanted sessionId) l
  | .recordTurn sessionId _ _ =>
    ∀ l, running s (wanted sessionId) = some l →
      InOrder s (wanted sessionId) l ∧ (s.metaLog = false → Owned (wanted sessionId))
  | .setTitle sessionId title =>
    s.metaLog = true → title ≠ [] → title.length < 128 →
      ∀ m ∈ listing s, m.id = sessionId → m.title = title
  | .delete sessionId =>
    Known s (wanted sessionId) →
      if s.metaLog then safeName (wanted sessionId) ≠ journalName else Owned (wanted sessionId)
  | .runStart _ _ | .runDone _ | .restart => True

@[simp] theorem setLive_files (s : Store) (id : Text) (l : Option Live) :
    (setLive s id l).files = s.files := rfl

@[simp] theorem setLive_live (s : Store) (id : Text) (l : Option Live) :
    (setLive s id l).live = Function.update s.live id l := rfl

@[simp] theorem setLive_listing (s : Store) (id : Text) (l : Option Live) :
    listing (setLive s id l) = listing s := rfl

/-! ### What the files keep -/

/-- The small index holds the live entries, and they are listed by activity. -/
structure Small (s : Store) : Prop where
  log : s.metaLog = false
  journal : s.files.journal = none
  small : s.metas.length ≤ 128
  index : (s.files.index.getD []).Perm (live s.metas)
  sorted : (listing s).Pairwise fun x y => activityLe y x

structure Journaled (s : Store) : Prop where
  log : s.metaLog = true
  replays : ∃ lines, s.files.journal = some lines ∧ listing (replay s.files lines) = listing s

/-- A live session agrees with its entry, and a session with turns has a transcript. -/
structure Agrees (s : Store) (id : Text) (l : Live) : Prop where
  titled : ∀ m ∈ listing s, m.id = id → l.title = m.title
  untitled : (∀ m ∈ listing s, m.id ≠ id) → l.title = []
  filed : l.histEmpty = false → safeName id = id → ∃ t ∈ s.files.transcripts, t.1 = id

/-- No transcript holds a session or a title that the index lacks. -/
structure Healthy (s : Store) : Prop where
  transcripts : ∀ t ∈ s.files.transcripts,
    ∃ m ∈ listing s, m.id = t.1 ∧ (m.title = [] → t.2 = [])
  live : ∀ id l, s.live id = some l → Agrees s id l

structure Durable (s : Store) : Prop where
  wf : Wf s
  kept : (Small s ∧ Healthy s) ∨ Journaled s

def entry (id : Text) (l : Live) : Meta :=
  fillFrom l { id }

theorem entry_named (named : id ≠ []) (short : id.length ≤ 63) : (entry id l).Named :=
  ⟨named, short, List.length_take_le ..⟩

theorem replay_files (f g : Files) (lines : List (Option Meta)) :
    replay g lines = { replay f lines with files := g } := by
  have step (s : Store) (line : Option Meta) :
      replayLine { s with files := g } line = { replayLine s line with files := g } := by
    cases line with
    | none => rfl
    | some m =>
      simp only [replayLine]
      split
      · rfl
      · simp only [metaPlace, metaEnsure, metaFind, metaTouch]
        cases s.metas.findIdx? fun other => other.id = m.id <;> rfl
  have whole (s : Store) : lines.foldl replayLine { s with files := g } =
      { lines.foldl replayLine s with files := g } := by
    induction lines generalizing s with
    | nil => rfl
    | cons line lines ih => rw [List.foldl_cons, step, ih, List.foldl_cons]
  exact whole { files := f, metaLog := true }

theorem replay_metaLog (f : Files) (lines : List (Option Meta)) :
    (replay f lines).metaLog = true := by
  have step (s : Store) (line : Option Meta) : (replayLine s line).metaLog = s.metaLog := by
    cases line with
    | none => rfl
    | some m =>
      simp only [replayLine]
      split
      · rfl
      · simp only [metaPlace, metaEnsure, metaFind, metaTouch]
        cases s.metas.findIdx? fun other => other.id = m.id <;> rfl
  have whole (s : Store) : (lines.foldl replayLine s).metaLog = s.metaLog := by
    induction lines generalizing s with
    | nil => rfl
    | cons line lines ih => rw [List.foldl_cons, ih, step]
  exact whole _

theorem listing_replay (f g : Files) (lines : List (Option Meta)) :
    listing (replay g lines) = listing (replay f lines) := by
  rw [replay_files f g]
  rfl

theorem Small.entries (small : Small s) (wf : Wf s) :
    (∀ x ∈ s.files.index.getD [], x ∈ listing s) ∧
      (s.files.index.getD []).Perm (listing s) ∧ ((s.files.index.getD []).map Meta.id).Nodup := by
  have perm : (s.files.index.getD []).Perm (listing s) := small.index.trans (listing_perm wf).symm
  exact ⟨fun x member => perm.mem_iff.mp member, perm,
    (perm.map Meta.id).nodup_iff.mpr (listing_ids wf)⟩

theorem metaLoad_small (wf : Wf s) (small : Small s) (healthy : Healthy s) :
    metaLoad s.files =
      { files := s.files, metas := (s.files.index.getD []).mergeSort activityLe,
        recency := (List.range (s.files.index.getD []).length).reverse } := by
  obtain ⟨listed, perm, ids⟩ := small.entries wf
  refine metaLoad_index small.journal ids (fun x member => ?_) fun t member => ?_
  · obtain ⟨stored, alive⟩ := (mem_listing wf).mp (listed x member)
    exact ⟨wf.named x stored, alive⟩
  · obtain ⟨x, stored, its⟩ := healthy.transcripts t member
    exact ⟨x, perm.mem_iff.mpr stored, its⟩

theorem listing_metaLoad_small (wf : Wf s) (small : Small s) (healthy : Healthy s) :
    listing (metaLoad s.files) = listing s := by
  obtain ⟨listed, perm, ids⟩ := small.entries wf
  have alive : ∀ x ∈ (s.files.index.getD []).mergeSort activityLe, x.deleted = false := by
    intro x member
    exact ((mem_listing wf).mp (listed x (List.mem_mergeSort.mp member))).2
  have reversed := listing_range_reverse alive
  rw [List.length_mergeSort] at reversed
  rw [metaLoad_small wf small healthy, listing_eq, reversed]
  exact mergeSort_reverse perm (listing_ids wf) small.sorted

theorem Durable.listing_metaLoad (durable : Durable s) : listing (metaLoad s.files) = listing s := by
  rcases durable.kept with ⟨small, healthy⟩ | journaled
  · exact listing_metaLoad_small durable.wf small healthy
  · obtain ⟨lines, written, replays⟩ := journaled.replays
    rw [metaLoad_journal written, replays]

theorem Durable.restart (durable : Durable s) : Durable (metaLoad s.files) := by
  have same := durable.listing_metaLoad
  rcases durable.kept with ⟨small, healthy⟩ | journaled
  · obtain ⟨listed, perm, ids⟩ := small.entries durable.wf
    have loaded := metaLoad_small durable.wf small healthy
    rw [loaded] at same ⊢
    have alive : ∀ x ∈ (s.files.index.getD []).mergeSort activityLe, x.deleted = false := by
      intro x member
      exact ((mem_listing durable.wf).mp (listed x (List.mem_mergeSort.mp member))).2
    have every : live ((s.files.index.getD []).mergeSort activityLe) =
        (s.files.index.getD []).mergeSort activityLe :=
      List.filter_eq_self.mpr fun x member => by simpa using alive x member
    have sorts := List.mergeSort_perm (s.files.index.getD []) activityLe
    refine ⟨⟨?_, ?_, ?_, fun x member => ?_⟩, .inl ⟨⟨rfl, small.journal, ?_, ?_, ?_⟩, ?_, ?_⟩⟩
    · exact (sorts.map Meta.id).nodup_iff.mpr ids
    · exact List.nodup_reverse.mpr List.nodup_range
    · simp
    · have stored := listed x (List.mem_mergeSort.mp member)
      exact durable.wf.named x ((mem_listing durable.wf).mp stored).1
    · rw [List.length_mergeSort, small.index.length_eq]
      exact (List.length_filter_le ..).trans small.small
    · rw [every]
      exact sorts.symm
    · rw [same]
      exact small.sorted
    · rw [same]
      exact healthy.transcripts
    · simp
  · obtain ⟨lines, written, replays⟩ := journaled.replays
    rw [metaLoad_journal written]
    have files : (replay s.files lines).files = s.files := by
      rw [replay_files s.files s.files]
    refine ⟨wf_replay _ _, .inr ⟨replay_metaLog _ _, lines, ?_, ?_⟩⟩
    · rw [files, written]
    · rw [files]

/-! ### Publishing -/

theorem metaUpsert_eq (wf : Wf s) (short : id.length ≤ 63) :
    metaUpsert s id l = metaLogChange (metaPlace s id (fillFrom l)) (entry id l) := by
  have fills (old : Meta) (same : old.id = id) : fillFrom l old = entry id l := by
    simp [entry, fillFrom, same]
  have front := metaPlace_head wf short fills
  simp only [metaUpsert, front]

theorem metaLogChange_listing (s : Store) (m : Meta) : listing (metaLogChange s m) = listing s := by
  unfold metaLogChange
  split <;> rfl

theorem metaLogChange_wf (wf : Wf s) (m : Meta) : Wf (metaLogChange s m) := by
  unfold metaLogChange
  split
  · exact ⟨wf.ids, wf.recency, wf.positions, wf.named⟩
  · exact wf

theorem metaSave_listing (s : Store) : listing (metaSave s) = listing s := by
  unfold metaSave
  split
  · rfl
  · split <;> rfl

theorem metaSave_wf (wf : Wf s) : Wf (metaSave s) := by
  unfold metaSave
  split
  · exact wf
  · split <;> exact ⟨wf.ids, wf.recency, wf.positions, wf.named⟩

theorem metaSave_frame (s : Store) :
    (metaSave s).live = s.live ∧ (metaSave s).files.transcripts = s.files.transcripts := by
  unfold metaSave
  split
  · exact ⟨rfl, rfl⟩
  · split <;> exact ⟨rfl, rfl⟩

theorem metaLogChange_frame (s : Store) (m : Meta) :
    (metaLogChange s m).live = s.live ∧
      (metaLogChange s m).files.transcripts = s.files.transcripts := by
  unfold metaLogChange
  split <;> exact ⟨rfl, rfl⟩

theorem metaPlace_frame (s : Store) (id : Text) (fill : Meta → Meta) :
    (metaPlace s id fill).live = s.live ∧ (metaPlace s id fill).files = s.files ∧
      (metaPlace s id fill).metaLog = s.metaLog := by
  simp only [metaPlace, metaEnsure, metaTouch]
  cases metaFind s id <;> exact ⟨rfl, rfl, rfl⟩

theorem metaPlace_new (short : id.length ≤ 63) (absent : metaFind s id = none) (fill : Meta → Meta) :
    (metaPlace s id fill).metas = s.metas ++ [fill { id }] := by
  simp only [metaPlace, metaEnsure, metaTouch, absent, List.take_of_length_le short]
  rw [modify_eq_set (m := { id }) (by simp)]
  simp

theorem metaPlace_old {fill : Meta → Meta} {i : Nat} (found : metaFind s id = some i) :
    (metaPlace s id fill).metas.length = s.metas.length := by
  simp only [metaPlace, metaEnsure, metaTouch, found, List.length_modify]

theorem metaSave_small (closed : s.metaLog = false) (few : s.metas.length ≤ 128) :
    metaSave s = { s with files.index := some (live s.metas) } := by
  rw [metaSave, if_neg (by simp [closed]), if_neg (Nat.not_lt.mpr few)]

theorem metaSave_migrates (closed : s.metaLog = false) (many : 128 < s.metas.length) :
    metaSave s = { s with files.journal := some (s.metas.map some), metaLog := true } := by
  rw [metaSave, if_neg (by simp [closed]), if_pos many]

theorem metaSave_open (opened : s.metaLog = true) : metaSave s = s :=
  if_pos opened

theorem Journaled.logChange {after : Store} (journaled : Journaled s) (files : after.files = s.files)
    (log : after.metaLog = true) (named : m.Named) (lists : listing after = record (listing s) m) :
    Journaled (metaLogChange after m) := by
  obtain ⟨lines, written, replays⟩ := journaled.replays
  refine ⟨?_, lines ++ [some m], ?_, ?_⟩
  · simp [metaLogChange, log]
  · simp [metaLogChange, log, files, written]
  · rw [metaLogChange_listing, lists, listing_replay_append named, listing_replay s.files, replays]

theorem sorted_record {entries : List Meta} (sorted : entries.Pairwise fun x y => activityLe y x)
    (latest : ∀ x ∈ entries, x.id ≠ m.id → activityLe x m) :
    (record entries m).Pairwise fun x y => activityLe y x := by
  refine List.pairwise_append.mpr ⟨?_, sorted.filter _, fun x member y others => ?_⟩
  · exact (List.pairwise_singleton _ m).filter _
  · obtain rfl : x = m := List.mem_singleton.mp (List.mem_filter.mp member).1
    obtain ⟨stored, distinct⟩ := List.mem_filter.mp others
    exact latest y stored (by simpa using distinct)

section Publish

variable (wf : Wf s) (named : id ≠ []) (short : id.length ≤ 63)
include wf named short

theorem publish_wf : Wf (metaSave (metaUpsert s id l)) := by
  rw [metaUpsert_eq wf short]
  refine metaSave_wf (metaLogChange_wf (wf_metaPlace (m := entry id l) wf short ?_ rfl ?_) _)
  · intro old same
    simp [entry, fillFrom, same]
  · exact entry_named named short

omit named in
theorem publish_listing :
    listing (metaSave (metaUpsert s id l)) = record (listing s) (entry id l) := by
  rw [metaUpsert_eq wf short, metaSave_listing, metaLogChange_listing]
  refine listing_metaPlace wf short (fun old same => ?_) rfl
  simp [entry, fillFrom, same]

theorem Journaled.publish (journaled : Journaled s) : Journaled (metaSave (metaUpsert s id l)) := by
  obtain ⟨_, files, log⟩ := metaPlace_frame s id (fillFrom l)
  have logged : Journaled (metaLogChange (metaPlace s id (fillFrom l)) (entry id l)) := by
    refine journaled.logChange files (log.trans journaled.log) (entry_named named short) ?_
    refine listing_metaPlace wf short (fun old same => ?_) rfl
    simp [entry, fillFrom, same]
  rw [metaUpsert_eq wf short, metaSave_open logged.log]
  exact logged

theorem Small.publish (small : Small s) (inOrder : InOrder s id l) :
    Small (metaSave (metaUpsert s id l)) ∨ Journaled (metaSave (metaUpsert s id l)) := by
  obtain ⟨_, files, log⟩ := metaPlace_frame s id (fillFrom l)
  have placed : Wf (metaPlace s id (fillFrom l)) := by
    refine wf_metaPlace (m := entry id l) wf short (fun old same => ?_) rfl (entry_named named short)
    simp [entry, fillFrom, same]
  have lists : listing (metaPlace s id (fillFrom l)) = record (listing s) (entry id l) := by
    refine listing_metaPlace wf short (fun old same => ?_) rfl
    simp [entry, fillFrom, same]
  have closed : (metaPlace s id (fillFrom l)).metaLog = false := log.trans small.log
  have ordered := inOrder.2 small.log
  have upserted : metaUpsert s id l = metaPlace s id (fillFrom l) := by
    rw [metaUpsert_eq wf short, metaLogChange, if_neg (by simp [closed])]
  have room := small.small
  rw [upserted]
  by_cases full : metaFind s id = none ∧ s.metas.length = 128
  · right
    rw [if_pos full] at ordered
    have array := metaPlace_new short full.1 (fillFrom l)
    have many : 128 < (metaPlace s id (fillFrom l)).metas.length := by
      simp [array, full.2]
    rw [metaSave_migrates closed many]
    refine ⟨rfl, _, rfl, ?_⟩
    rw [listing_replay_array placed.ids placed.named]
    refine Eq.trans ?_ lists.symm
    have fresh : (listing s).filter (fun other => other.id ≠ id) = listing s := by
      refine List.filter_eq_self.mpr fun other member => ?_
      simpa using metaFind_eq_none.mp full.1 other ((mem_listing wf).mp member).1
    have front : (entry id l).id = id := rfl
    rw [record, front, fresh, ordered, array]
    simp only [live, List.filter_append, List.reverse_append]
    rfl
  · left
    rw [if_neg full] at ordered
    have few : (metaPlace s id (fillFrom l)).metas.length ≤ 128 := by
      cases found : metaFind s id with
      | none =>
        have room' : s.metas.length ≠ 128 := fun count => full ⟨found, count⟩
        rw [metaPlace_new short found, List.length_append]
        simp only [List.length_singleton]
        omega
      | some i =>
        rw [metaPlace_old found]
        omega
    rw [metaSave_small closed few]
    refine ⟨closed, files ▸ small.journal, few, List.Perm.refl _, ?_⟩
    exact (congrArg (List.Pairwise _) lists).mpr (sorted_record small.sorted ordered)

end Publish

/-! ### The live sessions and the transcripts -/

theorem Healthy.record {after : Store} (healthy : Healthy s) (alive : m.deleted = false)
    (lists : listing after = record (listing s) m)
    (others : ∀ id, id ≠ m.id → after.live id = s.live id)
    (own : ∀ l, after.live m.id = some l → l.title = m.title ∧
      (l.histEmpty = false → safeName m.id = m.id → ∃ t ∈ after.files.transcripts, t.1 = m.id))
    (kept : ∀ t ∈ s.files.transcripts, t ∈ after.files.transcripts)
    (known : ∀ t ∈ after.files.transcripts, t.1 ≠ m.id → t ∈ s.files.transcripts)
    (its : ∀ t ∈ after.files.transcripts, t.1 = m.id → m.title = [] → t.2 = []) :
    Healthy after := by
  have listed : m ∈ listing after := lists ▸ mem_record.mpr (.inl ⟨rfl, alive⟩)
  refine ⟨fun t member => ?_, fun id l found => ?_⟩
  · by_cases here : t.1 = m.id
    · exact ⟨m, listed, here.symm, its t member here⟩
    · obtain ⟨x, stored, same, title⟩ := healthy.transcripts t (known t member here)
      exact ⟨x, lists ▸ mem_record.mpr (.inr ⟨stored, same ▸ here⟩), same, title⟩
  · by_cases here : id = m.id
    · subst here
      obtain ⟨title, filed⟩ := own l found
      refine ⟨fun x member same => ?_, fun absent => absurd rfl (absent m listed), filed⟩
      rw [lists, mem_record] at member
      rcases member with ⟨rfl, _⟩ | ⟨_, distinct⟩
      · exact title
      · exact absurd same distinct
    · rw [others id here] at found
      have agrees := healthy.live id l found
      refine ⟨fun x member same => ?_, fun absent => agrees.untitled fun x stored same => ?_,
        fun some safe => ?_⟩
      · rw [lists, mem_record] at member
        rcases member with ⟨rfl, _⟩ | ⟨stored, _⟩
        · exact absurd same.symm here
        · exact agrees.titled x stored same
      · have distinct : x.id ≠ m.id := same ▸ here
        exact absent x (lists ▸ mem_record.mpr (.inr ⟨stored, distinct⟩)) same
      · obtain ⟨t, member, same⟩ := agrees.filed some safe
        exact ⟨t, kept t member, same⟩

theorem Healthy.remove {after : Store} (healthy : Healthy s) (id : Text)
    (lists : ∀ x, x ∈ listing after ↔ x ∈ listing s ∧ x.id ≠ id)
    (transcripts : ∀ t, t ∈ after.files.transcripts ↔ t ∈ s.files.transcripts ∧ t.1 ≠ id)
    (gone : after.live id = none) (others : ∀ other, other ≠ id → after.live other = s.live other) :
    Healthy after := by
  refine ⟨fun t member => ?_, fun other l found => ?_⟩
  · obtain ⟨stored, distinct⟩ := (transcripts t).mp member
    obtain ⟨x, listed, same, title⟩ := healthy.transcripts t stored
    exact ⟨x, (lists x).mpr ⟨listed, same ▸ distinct⟩, same, title⟩
  · have distinct : other ≠ id := by
      rintro rfl
      simp [gone] at found
    have agrees := healthy.live other l (others other distinct ▸ found)
    refine ⟨fun x member => agrees.titled x ((lists x).mp member).1,
      fun absent => agrees.untitled fun x listed same => ?_, fun turns safe => ?_⟩
    · exact absent x ((lists x).mpr ⟨listed, same ▸ distinct⟩) same
    · obtain ⟨t, stored, same⟩ := agrees.filed turns safe
      exact ⟨t, (transcripts t).mpr ⟨stored, same ▸ distinct⟩, same⟩

theorem Healthy.setLive (healthy : Healthy s) (agrees : Agrees s id l) :
    Healthy (setLive s id (some l)) := by
  refine ⟨healthy.transcripts, fun other l' found => ?_⟩
  by_cases here : other = id
  · subst here
    obtain rfl : l = l' := by simpa [SessionIndex.setLive] using found
    exact ⟨agrees.titled, agrees.untitled, agrees.filed⟩
  · have old := healthy.live other l' (by simpa [SessionIndex.setLive, here] using found)
    exact ⟨old.titled, old.untitled, old.filed⟩

theorem Healthy.sessionGet (wf : Wf s) (healthy : Healthy s) (id : Text) (now : Int) :
    Agrees s id (sessionGet s id now) := by
  unfold SessionIndex.sessionGet
  cases found : s.live id with
  | some l => exact healthy.live id l found
  | none =>
    cases at_i : metaFind s id with
    | none =>
      refine ⟨fun x member same => ?_, fun _ => rfl, by simp⟩
      exact absurd same (metaFind_eq_none.mp at_i x ((mem_listing wf).mp member).1)
    | some i =>
      obtain ⟨old, stored, rfl⟩ := metaFind_eq_some at_i
      have unique : ∀ x ∈ listing s, x.id = old.id → x = old := fun x member same =>
        eq_of_id wf.ids ((mem_listing wf).mp member).1 (List.mem_of_getElem? stored) same
      simp only [Option.bind_some, stored]
      split
      next dead =>
        refine ⟨fun x member same => ?_, fun _ => rfl, by simp⟩
        have alive := ((mem_listing wf).mp member).2
        rw [unique x member same, dead] at alive
        exact absurd alive (by decide)
      next alive =>
        refine ⟨fun x member same => by rw [unique x member same], fun absent => ?_, by simp⟩
        have listed : old ∈ listing s :=
          (mem_listing wf).mpr ⟨List.mem_of_getElem? stored, by simpa using alive⟩
        exact absurd rfl (absent old listed)

theorem Agrees.title_length (wf : Wf s) (agrees : Agrees s id l) : l.title.length ≤ 127 := by
  by_cases listed : ∃ m ∈ listing s, m.id = id
  · obtain ⟨m, member, same⟩ := listed
    rw [agrees.titled m member same]
    exact (wf.named m ((mem_listing wf).mp member).1).titleLength
  · rw [agrees.untitled fun m member same => listed ⟨m, member, same⟩]
    exact Nat.zero_le _

end CognitiveOs.SessionIndex
