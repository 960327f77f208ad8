import CognitiveOs.Sessions.Transcript

/-!
# Isolation of chat sessions

Every turn stays in the transcript its session's file path names, and in the rings of
sessions with that path. Two sessions are isolated exactly when their paths differ.
-/

namespace CognitiveOs.Sessions

open Foundation Infra

def Action.session : Action → Option Text
  | .turn sessionId .. | .history sessionId .. | .lastInput sessionId ..
  | .clear sessionId .. | .delete sessionId .. => some (wanted sessionId)
  | .restart => none

def chats : Machine Chat Action :=
  Machine.ofFun fun c action => (c.step action).1

/-- In every run, no action on `id` hands out a turn of `other` or removes one. -/
def Isolated (stateRoot id other : Text) : Prop :=
  ∀ actions c, chats.Run { stateRoot } actions c → ∀ action, action.session = some id →
    (∀ turn ∈ (c.step action).2, turn.session ≠ other) ∧
      (∀ path turn, turn.session = other → turn ∈ (c.file path).getD [] →
        turn ∈ ((c.step action).1.file path).getD []) ∧
      (c.step action).1.live other = c.live other

/-- Turns are only where the file path of their session puts them. -/
structure Filed (c : Chat) : Prop where
  file : ∀ path turns, c.file path = some turns →
    ∀ turn ∈ turns, chatFilePath c.stateRoot turn.session = path
  live : ∀ id s, c.live id = some s →
    ∀ turn ∈ s.hist, chatFilePath c.stateRoot turn.session = chatFilePath c.stateRoot id

variable {c : Chat} {id : Text}

theorem hist_foldl_admitTurn (turns : List Turn) (s : Session) :
    (turns.foldl admitTurn s).hist = s.hist ++ turns := by
  induction turns generalizing s with
  | nil => simp
  | cons turn turns ih => simp [ih, admitTurn]

variable {turn : Turn}

theorem mem_sessionLoaded (filed : Filed c) (member : turn ∈ (sessionLoaded c id).hist) :
    chatFilePath c.stateRoot turn.session = chatFilePath c.stateRoot id := by
  have resident : ∀ turn ∈ ((c.live id).getD {}).hist,
      chatFilePath c.stateRoot turn.session = chatFilePath c.stateRoot id := by
    cases found : c.live id with
    | none => simp
    | some s => exact filed.live id s found
  simp only [sessionLoaded] at member
  split at member
  · exact resident turn member
  · cases found : transcript c id with
    | none =>
      simp only [sessionLoadPersisted, found] at member
      exact resident turn member
    | some turns =>
      simp only [sessionLoadPersisted, found, hist_foldl_admitTurn] at member
      rcases List.mem_append.mp member with member | member
      · exact resident turn member
      · exact filed.file _ turns found turn (List.mem_of_mem_drop member)

theorem mem_recordRing {s : Session} {other : Turn} {compacts : Bool}
    (member : other ∈ (recordRing s turn compacts).hist) : other ∈ s.hist ∨ other = turn := by
  simp only [recordRing] at member
  generalize (if s.histCap = 0 then 16 else s.histCap) = histCap at member
  have pushed : other ∈ pushTurn s.hist histCap turn := by
    unfold compactHistory at member
    split at member
    · exact List.mem_of_mem_drop member
    · exact member
  rcases List.mem_append.mp pushed with old | new
  · split at old
    · exact .inl (List.mem_of_mem_drop old)
    · exact .inl old
  · exact .inr (List.mem_singleton.mp new)

theorem Filed.setLive (filed : Filed c) {s : Session}
    (placed : ∀ turn ∈ s.hist, chatFilePath c.stateRoot turn.session = chatFilePath c.stateRoot id) :
    Filed (setLive c id (some s)) := by
  refine ⟨filed.file, fun other t found => ?_⟩
  by_cases same : other = id
  · subst same
    obtain rfl : s = t := by simpa [Sessions.setLive] using found
    exact placed
  · exact filed.live other t (by simpa [Sessions.setLive, Function.update_of_ne same] using found)

theorem Filed.unsetLive (filed : Filed c) : Filed (Sessions.setLive c id none) := by
  refine ⟨filed.file, fun other t found => ?_⟩
  by_cases same : other = id
  · subst same
    simp [Sessions.setLive] at found
  · exact filed.live other t (by simpa [Sessions.setLive, Function.update_of_ne same] using found)

theorem Filed.setFile (filed : Filed c) {path : Text} {turns : Option (List Turn)}
    (placed : ∀ listed, turns = some listed →
      ∀ turn ∈ listed, chatFilePath c.stateRoot turn.session = path) :
    Filed (Sessions.setFile c path turns) := by
  refine ⟨fun other listed found => ?_, filed.live⟩
  by_cases same : other = path
  · subst same
    exact placed listed (by simpa [Sessions.setFile] using found)
  · exact filed.file other listed
      (by simpa [Sessions.setFile, Function.update_of_ne same] using found)

theorem Filed.chatRemove (filed : Filed c) : Filed (chatRemove c id) :=
  filed.setFile (by simp)

theorem Filed.chatPersistAppend (filed : Filed c) (turn : Turn)
    (placed : chatFilePath c.stateRoot turn.session = chatFilePath c.stateRoot id) :
    Filed (chatPersistAppend c id turn) := by
  refine filed.setFile fun listed same other member => ?_
  obtain rfl := Option.some.inj same
  rcases List.mem_append.mp member with old | new
  · cases found : c.file (chatFilePath c.stateRoot id) with
    | none => simp [found] at old
    | some turns => exact filed.file _ turns found other (by simpa [found] using old)
  · obtain rfl := List.mem_singleton.mp new
    exact placed

theorem Filed.step (filed : Filed c) (action : Action) : Filed (c.step action).1 := by
  have load (id : Text) : Filed (Sessions.setLive c id (some (sessionLoaded c id))) :=
    filed.setLive fun _ => mem_sessionLoaded filed
  cases action with
  | turn sessionId q a compacts stored =>
    have recorded : Filed (Sessions.setLive c (wanted sessionId) (some (recordRing
        (sessionLoaded c (wanted sessionId)) ⟨wanted sessionId, q, a⟩ compacts))) := by
      refine filed.setLive fun turn member => ?_
      rcases mem_recordRing member with old | rfl
      · exact mem_sessionLoaded filed old
      · rfl
    simp only [Chat.step, runTurn]
    split
    · exact recorded.chatPersistAppend _ rfl
    · exact recorded
  | history sessionId maxTurns indexed =>
    simp only [Chat.step, historyJson]
    split
    · exact filed
    · split
      · exact filed
      · exact load _
  | lastInput sessionId indexed =>
    simp only [Chat.step, Sessions.lastInput]
    split
    · exact filed
    · split
      · exact filed
      · exact load _
  | clear sessionId indexed removed =>
    have emptied : Filed (Sessions.setLive c (wanted sessionId)
        (some { (c.live (wanted sessionId)).getD {} with hist := [] })) :=
      filed.setLive (by simp)
    simp only [Chat.step, sessionClear]
    split
    · exact filed
    · split
      · exact emptied.chatRemove
      · exact emptied
  | delete sessionId indexed removed =>
    simp only [Chat.step, sessionDelete]
    split
    · exact filed
    · split
      · exact filed.unsetLive.chatRemove
      · exact filed.unsetLive
  | restart => exact ⟨filed.file, by simp [Chat.step]⟩

theorem step_stateRoot (c : Chat) (action : Action) :
    (c.step action).1.stateRoot = c.stateRoot := by
  cases action <;>
    simp only [Chat.step, runTurn, historyJson, Sessions.lastInput, sessionClear, sessionDelete] <;>
    (repeat' split) <;> rfl

theorem path_of_handed (filed : Filed c) {action : Action} (about : action.session = some id)
    (member : turn ∈ (c.step action).2) : chatFilePath c.stateRoot turn.session = chatFilePath c.stateRoot id := by
  cases action with
  | restart => simp [Action.session] at about
  | clear | delete => simp [Chat.step] at member
  | turn sessionId =>
    obtain rfl : wanted sessionId = id := Option.some.inj about
    exact mem_sessionLoaded filed member
  | history sessionId =>
    obtain rfl : wanted sessionId = id := Option.some.inj about
    simp only [Chat.step, historyJson] at member
    generalize (if _ ≤ (0 : Int) then 20 else Int.toNat _) = limit at member
    split at member
    · simp at member
    · split at member
      next turns found =>
        split at found
        · exact filed.file _ turns found turn member
        · simp at found
      next => exact mem_sessionLoaded filed (List.mem_of_mem_drop member)
  | lastInput sessionId =>
    obtain rfl : wanted sessionId = id := Option.some.inj about
    simp only [Chat.step, Sessions.lastInput] at member
    split at member
    · simp at member
    next named =>
      split at member
      · simp at member
      · have last := List.mem_of_getLast? (Option.mem_toList.mp member)
        simpa [wanted, named] using mem_sessionLoaded filed last

theorem step_other {action : Action} (about : action.session = some id) :
    (∀ path, path ≠ chatFilePath c.stateRoot id → (c.step action).1.file path = c.file path) ∧
      ∀ other, other ≠ id → (c.step action).1.live other = c.live other := by
  cases action with
  | restart => simp [Action.session] at about
  | turn sessionId | history sessionId | lastInput sessionId | clear sessionId | delete sessionId =>
    obtain rfl : wanted sessionId = id := Option.some.inj about
    refine ⟨fun path distinct => ?_, fun other distinct => ?_⟩ <;>
      simp only [Chat.step, runTurn, historyJson, Sessions.lastInput, sessionClear,
        sessionDelete] <;>
      (repeat' split) <;>
      simp_all [setLive, Sessions.setFile, Sessions.chatPersistAppend, Sessions.chatRemove, wanted]

variable {stateRoot : Text}

theorem filed_run {actions : List Action} (run : chats.Run { stateRoot } actions c) :
    Filed c ∧ c.stateRoot = stateRoot := by
  have preserved : ∀ (before : Chat) (action : Action) (after : Chat),
      Filed before ∧ before.stateRoot = stateRoot → chats before action after →
        Filed after ∧ after.stateRoot = stateRoot := by
    rintro before action after ⟨filed, same⟩ rfl
    exact ⟨filed.step action, (step_stateRoot before action).trans same⟩
  exact run.invariant preserved ⟨⟨by simp, by simp⟩, rfl⟩

variable {other : Text}

theorem isolated_of_path_ne (distinct : chatFilePath stateRoot id ≠ chatFilePath stateRoot other) :
    Isolated stateRoot id other := by
  intro actions c run action about
  obtain ⟨filed, rfl⟩ := filed_run run
  obtain ⟨files, lives⟩ := step_other (c := c) about
  refine ⟨fun turn member same => ?_, fun path turn same member => ?_, ?_⟩
  · exact distinct ((path_of_handed filed about member).symm.trans (by rw [same]))
  · cases found : c.file path with
    | none => simp [found] at member
    | some turns =>
      have here := filed.file path turns found turn (by simpa [found] using member)
      rw [files path (by rw [← here, same]; exact Ne.symm distinct)]
      exact member
  · exact lives other fun same => distinct (by rw [same])

theorem not_isolated_of_path_eq (named : id ≠ []) (otherNamed : other ≠ [])
    (same : chatFilePath stateRoot id = chatFilePath stateRoot other) : ¬ Isolated stateRoot id other := by
  intro isolated
  let turn : Turn := { session := other, q := [], a := [] }
  let recorded : Chat := ((Chat.step { stateRoot } (.turn other [] [] false true)).1.step .restart).1
  have run : chats.Run { stateRoot } [.turn other [] [] false true, .restart] recorded :=
    .cons rfl (.single rfl)
  have saved : transcript recorded id = some [turn] := by
    simp [recorded, turn, transcript, Chat.step, runTurn, chatPersistAppend, Sessions.setFile,
      Sessions.setLive, same, wanted, otherNamed]
  have fresh : recorded.live id = none := rfl
  have handed : turn ∈ (recorded.step (.history id 1 false)).2 := by
    simp [Chat.step, historyJson, wanted, named, saved, fresh, sessionLoaded, sessionLoadPersisted,
      admitTurn, chatPersistMax]
  have about : (Action.history id 1 false).session = some id := by simp [Action.session, wanted, named]
  exact (isolated _ _ run _ about).1 turn handed rfl

/-- Two sessions are isolated from each other in every run exactly when their ids give
two file paths. -/
theorem isolated_iff {stateRoot other : Text} (named : id ≠ []) (otherNamed : other ≠ []) :
    Isolated stateRoot id other ∧ Isolated stateRoot other id ↔
      chatFilePath stateRoot id ≠ chatFilePath stateRoot other := by
  constructor
  · intro isolated same
    exact not_isolated_of_path_eq named otherNamed same isolated.1
  · intro distinct
    exact ⟨isolated_of_path_ne distinct, isolated_of_path_ne distinct.symm⟩

theorem isolated_fails :
    ¬ ∀ stateRoot id other : Text, id ≠ [] → other ≠ [] → id ≠ other →
      Isolated stateRoot id other ∧ Isolated stateRoot other id := by
  intro isolated
  have both := isolated (ascii "state") (ascii "a b") (ascii "a_b") (by decide) (by decide) (by decide)
  exact not_isolated_of_path_eq (by decide) (by decide) (by decide) both.1

theorem isolated_iff_dots :
    Isolated (ascii "state") (ascii "a.b") (ascii "a_b") ∧
      Isolated (ascii "state") (ascii "a_b") (ascii "a.b") :=
  (isolated_iff (by decide) (by decide)).mpr (by decide)

theorem pathJoin_eq (n : Nat) (a : Text) : ∃ pre, pre.length ≤ a.length + 1 ∧
    ∀ b, pathJoin n a b = snprintf n (pre ++ b) := by
  cases last : a.getLast? with
  | none => exact ⟨[], by simp, fun b => by simp [pathJoin, last]⟩
  | some final =>
    by_cases separated : final = slash ∨ final = backslash
    · exact ⟨a, by simp, fun b => by simp [pathJoin, last, separated]⟩
    · exact ⟨a ++ [slash], by simp, fun b => by simp [pathJoin, last, separated]⟩

theorem chatFilePath_eq_iff (short : stateRoot.length ≤ 560) :
    chatFilePath stateRoot id = chatFilePath stateRoot other ↔ safeName id = safeName other := by
  obtain ⟨first, firstLength, firstJoin⟩ := pathJoin_eq 600 stateRoot
  obtain ⟨pre, length, join⟩ := pathJoin_eq 700 (pathJoin 600 stateRoot (ascii "chat"))
  have dir : (pathJoin 600 stateRoot (ascii "chat")).length ≤ 565 := by
    rw [firstJoin]
    have chat : (ascii "chat").length = 4 := rfl
    simp only [snprintf, List.length_take, List.length_append]
    omega
  have name (id : Text) : (safeName id).length ≤ 127 := by
    simp only [safeName, List.length_map, List.length_take]
    omega
  have suffix : (ascii ".jsonl").length = 6 := rfl
  have whole (id : Text) : chatFilePath stateRoot id = pre ++ (safeName id ++ ascii ".jsonl") := by
    have bound := name id
    rw [chatFilePath, join, snprintf, snprintf, List.take_of_length_le, List.take_of_length_le]
    · simp only [List.length_append]
      omega
    · simp only [List.length_append, List.length_take]
      omega
  rw [whole, whole]
  simp

end CognitiveOs.Sessions
