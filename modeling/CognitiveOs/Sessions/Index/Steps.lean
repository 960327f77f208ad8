import CognitiveOs.Sessions.Index.Durable

/-!
# The steps of the session index

Each action keeps the files in agreement with the listing, when it is safe.
-/

namespace CognitiveOs.SessionIndex

open Foundation Infra Sessions

variable {s : Store} {id : Text} {m : Meta} {l : Live}

theorem publish_frame (wf : Wf s) (short : id.length ≤ 63) :
    (metaSave (metaUpsert s id l)).live = s.live ∧
      (metaSave (metaUpsert s id l)).files.transcripts = s.files.transcripts := by
  obtain ⟨lives, files, _⟩ := metaPlace_frame s id (fillFrom l)
  obtain ⟨logLives, logFiles⟩ := metaLogChange_frame (metaPlace s id (fillFrom l)) (entry id l)
  obtain ⟨saveLives, saveFiles⟩ := metaSave_frame (metaUpsert s id l)
  rw [saveLives, saveFiles, metaUpsert_eq wf short, logLives, logFiles, lives, files]
  exact ⟨rfl, rfl⟩

theorem durable_publish (wf : Wf s) (named : id ≠ []) (inOrder : InOrder s id l)
    (base : (Small s ∧ Healthy (metaSave (metaUpsert s id l))) ∨ Journaled s) :
    Durable (metaSave (metaUpsert s id l)) := by
  refine ⟨publish_wf wf named inOrder.1, ?_⟩
  rcases base with ⟨small, healthy⟩ | journaled
  · exact (small.publish wf named inOrder.1 inOrder).imp_left fun small => ⟨small, healthy⟩
  · exact .inr (journaled.publish wf named inOrder.1)

theorem Healthy.publish {f : Files} (healthy : Healthy s) (wf : Wf s) (short : id.length ≤ 63)
    (title : l.title.length ≤ 127)
    (filed : l.histEmpty = false → safeName id = id → ∃ t ∈ f.transcripts, t.1 = id)
    (kept : ∀ t ∈ s.files.transcripts, t ∈ f.transcripts)
    (known : ∀ t ∈ f.transcripts, t.1 ≠ id → t ∈ s.files.transcripts)
    (its : ∀ t ∈ f.transcripts, t.1 = id → l.title = [] → t.2 = []) :
    Healthy (publish { s with files := f } id l) := by
  have wf' : Wf (SessionIndex.setLive { s with files := f } id (some l)) :=
    ⟨wf.ids, wf.recency, wf.positions, wf.named⟩
  obtain ⟨lives, files⟩ := publish_frame (l := l) wf' short
  have lists := publish_listing (l := l) wf' short
  have whole : l.title.take 127 = l.title := List.take_of_length_le title
  refine healthy.record (m := entry id l) rfl lists (fun other distinct => ?_) (fun l' found => ?_)
    ?_ ?_ ?_
  · exact (congrFun lives other).trans (Function.update_of_ne distinct ..)
  · have stored := (congrFun lives id).symm.trans found
    obtain rfl : l = l' := by simpa [SessionIndex.setLive] using stored
    exact ⟨whole.symm, fun turns safe => files ▸ filed turns safe⟩
  · exact files ▸ kept
  · exact files ▸ known
  · intro t member same empty
    exact its t (files ▸ member) same (whole.symm.trans empty)

theorem wanted_ne_nil (sessionId : Text) : wanted sessionId ≠ [] := by
  unfold wanted
  split
  · decide
  · assumption

theorem durable_setLive (durable : Durable s) (agrees : Small s → Healthy s → Agrees s id l) :
    Durable (setLive s id (some l)) := by
  have wf := durable.wf
  refine ⟨⟨wf.ids, wf.recency, wf.positions, wf.named⟩, ?_⟩
  rcases durable.kept with ⟨small, healthy⟩ | journaled
  · exact .inl ⟨⟨small.log, small.journal, small.small, small.index, small.sorted⟩,
      healthy.setLive (agrees small healthy)⟩
  · exact .inr ⟨journaled.log, journaled.replays⟩

variable {now : Int}

theorem Durable.new (durable : Durable s) {token : List (Fin 16)} (safe : Safe s (.new token now)) :
    Durable (s.step (.new token now)) := by
  have named : sessionUuid token ≠ [] := by simp [sessionUuid]
  simp only [Store.step, sessionNew]
  cases found : metaFind s (sessionUuid token) with
  | some i => simpa using durable
  | none =>
    have inOrder := safe found
    have absent : ∀ x ∈ listing s, x.id ≠ sessionUuid token := fun x member =>
      metaFind_eq_none.mp found x ((mem_listing durable.wf).mp member).1
    refine durable_publish durable.wf named inOrder (durable.kept.imp_left ?_)
    rintro ⟨small, healthy⟩
    obtain ⟨lives, files⟩ := publish_frame
      (l := { createdMs := now, lastActiveMs := now }) durable.wf inOrder.1
    refine ⟨small, healthy.record (m := entry (sessionUuid token) _) rfl
      (publish_listing durable.wf inOrder.1) (fun other _ => by rw [lives]) (fun l stored => ?_)
      (by simp [files]) (fun t member _ => files ▸ member) fun t member same => ?_⟩
    · rw [lives] at stored
      have agrees := healthy.live _ l stored
      exact ⟨agrees.untitled absent, by simpa only [files] using agrees.filed⟩
    · rw [files] at member
      obtain ⟨x, listed, its, _⟩ := healthy.transcripts t member
      exact absurd (its.trans same) (absent x listed)

theorem Durable.publishLive (durable : Durable s) (named : id ≠ []) (inOrder : InOrder s id l)
    (title : Healthy s → l.title.length ≤ 127)
    (filed : Healthy s → l.histEmpty = false → safeName id = id →
      ∃ t ∈ s.files.transcripts, t.1 = id)
    (its : Healthy s → ∀ t ∈ s.files.transcripts, t.1 = id → l.title = [] → t.2 = []) :
    Durable (publish s id l) := by
  have wf := durable.wf
  refine durable_publish ⟨wf.ids, wf.recency, wf.positions, wf.named⟩ named inOrder ?_
  rcases durable.kept with ⟨small, healthy⟩ | journaled
  · refine .inl ⟨⟨small.log, small.journal, small.small, small.index, small.sorted⟩, ?_⟩
    exact healthy.publish (f := s.files) wf inOrder.1 (title healthy) (filed healthy)
      (fun _ member => member) (fun _ member _ => member) (its healthy)
  · exact .inr ⟨journaled.log, journaled.replays⟩

theorem Agrees.recovered (healthy : Healthy s) (agrees : Agrees s id l) :
    ∀ t ∈ s.files.transcripts, t.1 = id → l.title = [] → t.2 = [] := by
  intro t member same empty
  obtain ⟨x, listed, its, title⟩ := healthy.transcripts t member
  exact title ((agrees.titled x listed (its.trans same)).symm.trans empty)

theorem strHead_ne_nil {cap : Nat} {text : Text} (some : text ≠ []) : strHead cap text ≠ [] := by
  unfold strHead
  split
  · exact some
  · simp

variable {sessionId : Text}

theorem Durable.notePrompt (durable : Durable s) {prompt : Text} (safe : Safe s (.notePrompt sessionId prompt now)) :
    Durable (s.step (.notePrompt sessionId prompt now)) := by
  simp only [Store.step, SessionIndex.notePrompt]
  split
  · exact durable
  next some =>
    have wf := durable.wf
    have head : strHead 60 prompt ≠ [] := strHead_ne_nil some
    refine durable.publishLive (wanted_ne_nil _) (safe some) (fun healthy => ?_)
      (fun healthy => (healthy.sessionGet wf _ now).filed) fun healthy t _ _ empty => ?_
    · simp only
      split
      · exact List.length_take_le ..
      · exact (healthy.sessionGet wf _ now).title_length wf
    · simp only at empty
      split at empty
      · simp [head] at empty
      next titled => exact absurd empty titled

theorem running_eq_some (found : running s id = some l) : s.live id = some l :=
  (Option.filter_eq_some_iff.mp found).1

theorem Durable.runEnd (durable : Durable s) {elapsed : Int} (safe : Safe s (.runEnd sessionId elapsed)) :
    Durable (s.step (.runEnd sessionId elapsed)) := by
  simp only [Store.step]
  cases found : running s (wanted sessionId) with
  | none => exact durable
  | some l =>
    have agrees (healthy : Healthy s) : Agrees s _ { l with totalMs := l.totalMs + elapsed } :=
      have before := healthy.live _ l (running_eq_some found)
      ⟨before.titled, before.untitled, before.filed⟩
    exact durable.publishLive (wanted_ne_nil _) (safe l found)
      (fun healthy => (agrees healthy).title_length durable.wf)
      (fun healthy => (agrees healthy).filed) fun healthy => (agrees healthy).recovered healthy

theorem Durable.runStart (durable : Durable s) : Durable (s.step (.runStart sessionId now)) := by
  simp only [Store.step, SessionIndex.runStart]
  split
  · exact durable
  · refine durable_setLive durable fun _ healthy => ?_
    have agrees := healthy.sessionGet durable.wf (wanted sessionId) now
    refine ⟨agrees.titled, agrees.untitled, fun turns safe => ?_⟩
    simp only at turns
    by_cases empty : (SessionIndex.sessionGet s (wanted sessionId) now).histEmpty = false
    · exact agrees.filed empty safe
    · split at turns
      · exact absurd turns empty
      · have found : s.files.transcripts.any (fun t => t.1 = safeName (wanted sessionId)) = true := by
          simpa [empty] using turns
        obtain ⟨t, member, same⟩ := List.any_eq_true.mp found
        exact ⟨t, member, (of_decide_eq_true same).trans safe⟩

theorem Durable.runDone (durable : Durable s) : Durable (s.step (.runDone sessionId)) := by
  simp only [Store.step]
  cases found : running s (wanted sessionId) with
  | none => exact durable
  | some l =>
    refine durable_setLive durable fun _ healthy => ?_
    have agrees := healthy.live _ l (running_eq_some found)
    exact ⟨agrees.titled, agrees.untitled, agrees.filed⟩

theorem Journaled.transcriptAppend (journaled : Journaled s) (id q : Text) (fits : Bool) :
    Journaled { s with files := transcriptAppend s.files id q fits } := by
  obtain ⟨lines, written, replays⟩ := journaled.replays
  unfold SessionIndex.transcriptAppend
  split
  · refine ⟨journaled.log, lines ++ [none], by simp [written], ?_⟩
    rw [listing_replay_none, listing_replay s.files, replays]
    rfl
  · split
    · exact journaled
    · refine ⟨journaled.log, lines, written, ?_⟩
      rw [listing_replay s.files, replays]
      rfl

theorem recoveredTitle_nil (fits : Bool) : recoveredTitle (strHead 4000 []) fits = [] := by
  cases fits <;> rfl

theorem transcriptAppend_owned {f : Files} {q : Text} {fits : Bool} (owned : Owned id) :
    transcriptAppend f id q fits =
      if f.transcripts.any fun t => t.1 = id then f
      else { f with transcripts := f.transcripts ++ [(id, recoveredTitle q fits)] } := by
  rw [transcriptAppend, owned.1, if_neg owned.2]

theorem Healthy.recordTurn (healthy : Healthy s) (wf : Wf s) (stored : s.live id = some l)
    (owned : Owned id) (short : id.length ≤ 63) (q : Text) (fits : Bool) :
    Healthy (recordTurn s id l q fits) := by
  have agrees := healthy.live id l stored
  have empty_of : (if l.histEmpty && decide (l.title = []) then (strHead 60 q).take 127
      else l.title) = [] → l.title = [] ∧ (l.histEmpty = true → q = []) := by
    intro empty
    split at empty
    next first =>
      simp only [Bool.and_eq_true, decide_eq_true_eq] at first
      refine ⟨first.2, fun _ => by_contra fun some => ?_⟩
      simp [strHead_ne_nil some] at empty
    next later =>
      simp only [Bool.and_eq_true, decide_eq_true_eq, not_and] at later
      exact ⟨empty, fun first => absurd empty (later first)⟩
  simp only [SessionIndex.recordTurn, transcriptAppend_owned owned]
  split
  next found =>
    obtain ⟨t, member, same⟩ := List.any_eq_true.mp found
    refine healthy.publish (f := s.files) wf short ?_ (fun _ _ => ?_) (fun _ member => member)
      (fun _ member _ => member) fun t member same empty => ?_
    · simp only
      split
      · exact List.length_take_le ..
      · exact agrees.title_length wf
    · exact ⟨t, member, by simpa using same⟩
    · exact agrees.recovered healthy t member same (empty_of empty).1
  next fresh =>
    have absent : ∀ t ∈ s.files.transcripts, t.1 ≠ id := fun t member same =>
      fresh (List.any_eq_true.mpr ⟨t, member, by simpa using same⟩)
    have first : l.histEmpty = true := by
      by_contra turns
      obtain ⟨t, member, same⟩ := agrees.filed (by simpa using turns) owned.1
      exact absent t member same
    refine healthy.publish wf short ?_ (fun _ _ => ?_) (fun _ member => List.mem_append_left _ member)
      (fun t member distinct => ?_) fun t member same empty => ?_
    · simp only
      split
      · exact List.length_take_le ..
      · exact agrees.title_length wf
    · exact ⟨_, List.mem_append_right _ (List.mem_singleton.mpr rfl), rfl⟩
    · rcases List.mem_append.mp member with old | new
      · exact old
      · exact absurd (congrArg Prod.fst (List.mem_singleton.mp new)) distinct
    · rcases List.mem_append.mp member with old | new
      · exact absurd same (absent t old)
      · rw [List.mem_singleton.mp new, (empty_of empty).2 first]
        exact recoveredTitle_nil fits

theorem Durable.recordTurn (durable : Durable s) {q : Text} {fits : Bool}
    (safe : Safe s (.recordTurn sessionId q fits)) : Durable (s.step (.recordTurn sessionId q fits)) := by
  simp only [Store.step]
  cases found : running s (wanted sessionId) with
  | none => exact durable
  | some l =>
    obtain ⟨inOrder, owned⟩ := safe l found
    have wf := durable.wf
    refine durable_publish ⟨wf.ids, wf.recency, wf.positions, wf.named⟩ (wanted_ne_nil _) inOrder ?_
    rcases durable.kept with ⟨small, healthy⟩ | journaled
    · have owned := owned small.log
      have journal : (transcriptAppend s.files (wanted sessionId) (strHead 4000 q) fits).journal =
          none ∧ (transcriptAppend s.files (wanted sessionId) (strHead 4000 q) fits).index =
            s.files.index := by
        rw [transcriptAppend_owned owned]
        split <;> exact ⟨small.journal, rfl⟩
      refine .inl ⟨⟨small.log, journal.1, small.small, ?_, small.sorted⟩, ?_⟩
      · simp only [SessionIndex.setLive, journal.2]
        exact small.index
      · exact healthy.recordTurn wf (running_eq_some found) owned inOrder.1 q fits
    · have appended := journaled.transcriptAppend (wanted sessionId) (strHead 4000 q) fits
      exact .inr ⟨appended.log, appended.replays⟩

/-! ### Renaming -/

def retitle (id title : Text) (m : Meta) : Meta :=
  if m.id = id then { m with title } else m

@[simp] theorem retitle_id (title : Text) : (retitle id title m).id = m.id := by
  unfold retitle
  split <;> rfl

theorem retitle_key (id title : Text) (x y : Meta) :
    activityLe (retitle id title x) (retitle id title y) = activityLe x y := by
  have same (m : Meta) : activity (retitle id title m) = activity m := by
    unfold retitle
    split <;> rfl
  rw [Bool.eq_iff_iff, activityLe_iff, activityLe_iff, same, same, retitle_id, retitle_id]

theorem listing_retitle (wf : Wf s) {i : Nat} (title : Text) (found : s.metas[i]? = some m)
    (alive : m.deleted = false) :
    listing { s with metas := s.metas.set i { m with title } } =
      (listing s).map (retitle m.id title) := by
  have unique : ∀ x ∈ order s.metas s.recency, x.id = m.id → x = m := fun x member same =>
    eq_of_id wf.ids ((mem_order wf).mp member) (List.mem_of_getElem? found) same
  rw [listing_eq]
  refine (congrArg live (order_set (m := { m with title }) wf found rfl)).trans ?_
  rw [live_map_replace_alive (m := { m with title }) alive fun x member same => by
    rw [unique x member same, alive]]
  refine List.map_congr_left fun x member => ?_
  unfold replace retitle
  by_cases its : x.id = m.id
  · rw [if_pos its, if_pos its, unique x (mem_live.mp member).1 its]
  · rw [if_neg its, if_neg its]

theorem Healthy.retitle {after : Store} {title : Text} (healthy : Healthy s) (some : title ≠ [])
    (lists : listing after = (listing s).map (retitle id title))
    (listed : ∃ m ∈ listing s, m.id = id)
    (transcripts : after.files.transcripts = s.files.transcripts)
    (lives : after.live = Function.update s.live id ((s.live id).map fun l => { l with title })) :
    Healthy after := by
  have renamed {x : Meta} (stored : x ∈ listing s) : SessionIndex.retitle id title x ∈ listing after :=
    lists ▸ List.mem_map_of_mem stored
  refine ⟨fun t member => ?_, fun other l found => ?_⟩
  · obtain ⟨x, stored, same, empty⟩ := healthy.transcripts t (transcripts ▸ member)
    refine ⟨_, renamed stored, by simpa using same, fun untitled => ?_⟩
    unfold SessionIndex.retitle at untitled
    split at untitled
    · exact absurd untitled some
    · exact empty untitled
  · rw [lives] at found
    by_cases its : other = id
    · subst its
      obtain ⟨old, stored, rfl⟩ : ∃ old, s.live other = Option.some old ∧ { old with title } = l := by
        simpa using found
      refine ⟨fun x member same => ?_, fun absent => ?_, fun turns safe => ?_⟩
      · rw [lists] at member
        obtain ⟨y, _, rfl⟩ := List.mem_map.mp member
        rw [SessionIndex.retitle, if_pos (by simpa using same)]
      · obtain ⟨m, listed, same⟩ := listed
        exact absurd (by simpa using same) (absent _ (renamed listed))
      · exact transcripts ▸ (healthy.live other old stored).filed turns safe
    · have agrees := healthy.live other l (by simpa [its] using found)
      refine ⟨fun x member same => ?_, fun absent => agrees.untitled fun x stored => ?_,
        transcripts ▸ agrees.filed⟩
      · rw [lists] at member
        obtain ⟨y, stored, rfl⟩ := List.mem_map.mp member
        have same : y.id = other := by simpa using same
        rw [SessionIndex.retitle, if_neg (same ▸ its)]
        exact agrees.titled y stored same
      · simpa using absent _ (renamed stored)

theorem Durable.setTitle (durable : Durable s) {title : Text} (safe : Safe s (.setTitle sessionId title)) :
    Durable (s.step (.setTitle sessionId title)) := by
  simp only [Store.step, SessionIndex.setTitle]
  split
  · exact durable
  next valid =>
    rw [not_or, not_le] at valid
    cases at_i : metaFind s sessionId with
    | none => exact durable
    | some i =>
      obtain ⟨m, found, rfl⟩ := metaFind_eq_some at_i
      simp only [Option.bind_some, found, Option.map_some]
      split
      · exact durable
      next alive =>
        have wf := durable.wf
        have alive : m.deleted = false := by simpa using alive
        have listed : m ∈ listing s := (mem_listing wf).mpr ⟨List.mem_of_getElem? found, alive⟩
        have named := wf.named m (List.mem_of_getElem? found)
        have short : title.length ≤ 127 := Nat.le_of_lt_succ valid.2
        have wf' := wf_set (m := { m with title }) wf found rfl ⟨named.id, named.idLength, short⟩
        have lists := listing_retitle wf title found alive
        refine ⟨metaSave_wf ⟨wf'.ids, wf'.recency, wf'.positions, wf'.named⟩, ?_⟩
        rcases durable.kept with ⟨small, healthy⟩ | journaled
        · rw [metaSave_small (by exact small.log) (by exact (List.length_set ..).trans_le small.small)]
          refine .inl ⟨⟨small.log, small.journal, (List.length_set ..).trans_le small.small, List.Perm.refl _, ?_⟩, ?_⟩
          · refine (congrArg (List.Pairwise _) lists).mpr (List.pairwise_map.mpr ?_)
            exact small.sorted.imp fun less => (retitle_key ..).trans less
          · exact healthy.retitle valid.1 lists ⟨m, listed, rfl⟩ rfl rfl
        · have kept : s.metas.set i { m with title } = s.metas := by
            have same : { m with title } = m := by
              rw [← safe journaled.log valid.1 valid.2 m listed rfl]
            obtain ⟨bound, rfl⟩ := List.getElem?_eq_some_iff.mp found
            rw [same, List.set_getElem_self]
          rw [metaSave_open (by exact journaled.log)]
          simp only [SessionIndex.setLive, kept]
          exact .inr ⟨journaled.log, journaled.replays⟩

/-! ### Deleting -/

def erased (s : Store) (id : Text) : Store :=
  let s := metaSave (metaDelete (setLive s id none) id).1
  { s with files := transcriptRemove s.files id }

theorem metaDelete_wf (wf : Wf s) (id : Text) : Wf (metaDelete s id).1 := by
  rcases metaDelete_cases wf id with ⟨same, _⟩ | ⟨i, old, found, rfl, _, same⟩
  · rw [same]
    exact wf
  · have named := wf.named old (List.mem_of_getElem? found)
    rw [same]
    exact metaLogChange_wf (wf_set (m := { old with deleted := true }) wf found rfl
      ⟨named.id, named.idLength, named.titleLength⟩) _

theorem metaDelete_listing (wf : Wf s) (id : Text) :
    listing (metaDelete s id).1 = (listing s).filter fun m => m.id ≠ id := by
  rcases metaDelete_cases wf id with ⟨same, absent⟩ | ⟨i, old, found, rfl, _, same⟩
  · rw [same, eq_comm, List.filter_eq_self]
    intro m member
    simpa using absent m member
  · rw [same, metaLogChange_listing, listing_eq]
    refine (congrArg live (order_set (m := { old with deleted := true }) wf found rfl)).trans ?_
    exact live_map_replace_deleted rfl _

theorem metaDelete_small (wf : Wf s) (closed : s.metaLog = false) (id : Text) :
    (metaDelete s id).1.metaLog = false ∧ (metaDelete s id).1.files = s.files ∧
      (metaDelete s id).1.live = s.live ∧ (metaDelete s id).1.metas.length = s.metas.length := by
  rcases metaDelete_cases wf id with ⟨same, _⟩ | ⟨i, old, found, rfl, _, same⟩
  · rw [same]
    exact ⟨closed, rfl, rfl, rfl⟩
  · rw [same, metaLogChange, if_neg (by simp [closed])]
    exact ⟨closed, rfl, rfl, List.length_set ..⟩

theorem Journaled.metaDelete (wf : Wf s) (journaled : Journaled s) (id : Text) :
    Journaled (metaDelete s id).1 := by
  rcases metaDelete_cases wf id with ⟨same, _⟩ | ⟨i, old, found, rfl, _, same⟩
  · rw [same]
    exact journaled
  · have named := wf.named old (List.mem_of_getElem? found)
    rw [same]
    refine journaled.logChange (m := { old with deleted := true }) rfl journaled.log
      ⟨named.id, named.idLength, named.titleLength⟩ ?_
    rw [listing_eq]
    refine (congrArg live (order_set (m := { old with deleted := true }) wf found rfl)).trans ?_
    exact live_map_replace_deleted rfl _

theorem Durable.erased (durable : Durable s)
    (safe : if s.metaLog then safeName id ≠ journalName else Owned id) : Durable (erased s id) := by
  have wf : Wf (SessionIndex.setLive s id none) :=
    ⟨durable.wf.ids, durable.wf.recency, durable.wf.positions, durable.wf.named⟩
  have wf' := metaSave_wf (metaDelete_wf wf id)
  have lists := (metaSave_listing _).trans (metaDelete_listing wf id)
  refine ⟨⟨wf'.ids, wf'.recency, wf'.positions, wf'.named⟩, ?_⟩
  rcases durable.kept with ⟨small, healthy⟩ | journaled
  · rw [if_neg (by simp [small.log])] at safe
    obtain ⟨closed, files, lives, length⟩ := metaDelete_small wf small.log id
    have few : (metaDelete (SessionIndex.setLive s id none) id).1.metas.length ≤ 128 :=
      length.trans_le small.small
    have removed (f : Files) : transcriptRemove f id =
        { f with transcripts := f.transcripts.filter fun t => t.1 ≠ id } := by
      rw [transcriptRemove, safe.1, if_neg safe.2]
    unfold SessionIndex.erased
    rw [metaSave_small closed few] at lists ⊢
    simp only [removed]
    refine .inl ⟨⟨closed, ?_, few, List.Perm.refl _, ?_⟩, ?_⟩
    · simp only [files]
      exact small.journal
    · exact (congrArg (List.Pairwise _) lists).mpr (small.sorted.filter _)
    · refine healthy.remove id (fun x => ?_) (fun t => ?_) ?_ fun other distinct => ?_
      · exact (congrArg (x ∈ ·) lists).to_iff.trans (by simp)
      · simp [files]
      · simp [lives]
      · simp [lives, distinct]
  · rw [if_pos journaled.log] at safe
    have deleted := Journaled.metaDelete (s := SessionIndex.setLive s id none) wf
      ⟨journaled.log, journaled.replays⟩ id
    obtain ⟨lines, written, replays⟩ := deleted.replays
    unfold SessionIndex.erased
    rw [metaSave_open deleted.log]
    simp only [transcriptRemove, if_neg safe]
    refine .inr ⟨deleted.log, lines, written, ?_⟩
    rw [listing_replay (metaDelete (SessionIndex.setLive s id none) id).1.files]
    exact replays

theorem Durable.save (durable : Durable s) : Durable (metaSave s) := by
  refine ⟨metaSave_wf durable.wf, ?_⟩
  rcases durable.kept with ⟨small, healthy⟩ | journaled
  · rw [metaSave_small small.log small.small]
    exact .inl ⟨⟨small.log, small.journal, small.small, List.Perm.refl _, small.sorted⟩,
      healthy.transcripts, fun id l found =>
        have agrees := healthy.live id l found
        ⟨agrees.titled, agrees.untitled, agrees.filed⟩⟩
  · rw [metaSave_open journaled.log]
    exact .inr journaled

theorem Durable.delete (durable : Durable s) (safe : Safe s (.delete sessionId)) :
    Durable (s.step (.delete sessionId)) := by
  simp only [Store.step, sessionDelete]
  cases found : s.live (wanted sessionId) with
  | none =>
    have unchanged : setLive s (wanted sessionId) none = s := by
      rw [setLive, ← found, Function.update_eq_self]
    rcases metaDelete_cases durable.wf (wanted sessionId) with
      ⟨same, _⟩ | ⟨i, old, stored, its, alive, same⟩
    · simpa only [same, Bool.false_eq_true, if_false] using durable.save
    · have listed := (mem_listing durable.wf).mpr ⟨List.mem_of_getElem? stored, alive⟩
      have gone := durable.erased (safe (.inr ⟨old, listed, its⟩))
      rw [SessionIndex.erased, unchanged] at gone
      rw [same] at gone ⊢
      exact gone
  | some l =>
    simp only
    split
    · exact durable
    · exact durable.erased (safe (.inl (by simp [found])))

end CognitiveOs.SessionIndex
