import CognitiveOs.Im.Store
import Mathlib.Data.List.Infix

/-!
# The order of chat messages

Ids are handed out in increasing order over restarts, and no reply comes after a later message of a
user.
-/

namespace CognitiveOs.Im.Chat

open Foundation Infra
open Infra.Cjson

/-! ### Ids -/

variable {sessions : List Session} {id : Int} {s : Session}

def Session.ids (s : Session) : List Int :=
  s.id :: s.messages.map Message.id

theorem find_spec (found : (sessions.find? fun s => s.id = id) = some s) : s ∈ sessions ∧ s.id = id :=
  ⟨List.mem_of_find?_eq_some found, by simpa using List.find?_some found⟩

theorem ids_updateFirst {m : Message} (found : (sessions.find? fun s => s.id = id) = some s) :
    ((updateFirst id (fun s => { s with messages := s.messages ++ [m] }) sessions).flatMap Session.ids).Perm
      (m.id :: sessions.flatMap Session.ids) := by
  induction sessions with
  | nil => cases found
  | cons first sessions ih =>
    by_cases here : first.id = id
    · have shape : updateFirst id (fun s => { s with messages := s.messages ++ [m] }) (first :: sessions) =
          { first with messages := first.messages ++ [m] } :: sessions := if_pos here
      have more : Session.ids { first with messages := first.messages ++ [m] } = first.ids ++ [m.id] := by
        simp [Session.ids]
      rw [shape, List.flatMap_cons, List.flatMap_cons, more, List.append_assoc]
      exact List.perm_middle
    · have shape : updateFirst id (fun s => { s with messages := s.messages ++ [m] }) (first :: sessions) =
          first :: updateFirst id (fun s => { s with messages := s.messages ++ [m] }) sessions := if_neg here
      have later : (sessions.find? fun s => s.id = id) = some s := by simpa [here] using found
      rw [shape, List.flatMap_cons, List.flatMap_cons]
      exact ((ih later).append_left first.ids).trans List.perm_middle

theorem mem_updateFirst {f : Session → Session} (distinct : (sessions.map Session.id).Nodup)
    (member : s ∈ updateFirst id f sessions) :
    s ∈ sessions ∧ s.id ≠ id ∨ ∃ old ∈ sessions, (sessions.find? fun s => s.id = id) = some old ∧ s = f old := by
  induction sessions with
  | nil => cases member
  | cons first sessions ih =>
    obtain ⟨fresh, distinct⟩ := List.nodup_cons.mp distinct
    by_cases here : first.id = id
    · rw [updateFirst, if_pos here] at member
      rcases List.mem_cons.mp member with rfl | later
      · exact .inr ⟨first, List.mem_cons_self, by simp [here], rfl⟩
      · refine .inl ⟨List.mem_cons_of_mem _ later, fun same => fresh ?_⟩
        rw [here, ← same]
        exact List.mem_map_of_mem later
    · rw [updateFirst, if_neg here] at member
      rcases List.mem_cons.mp member with rfl | later
      · exact .inl ⟨List.mem_cons_self, here⟩
      · rcases ih distinct later with ⟨inside, apart⟩ | ⟨old, inside, found, rfl⟩
        · exact .inl ⟨List.mem_cons_of_mem _ inside, apart⟩
        · exact .inr ⟨old, List.mem_cons_of_mem _ inside, by simpa [here] using found, rfl⟩

theorem map_core_updateFirst {f : Session → Session} (same : ∀ s, core (f s) = core s) :
    (updateFirst id f sessions).map core = sessions.map core := by
  induction sessions with
  | nil => rfl
  | cons first sessions ih =>
    rw [updateFirst]
    split
    · rw [List.map_cons, List.map_cons, same]
    · rw [List.map_cons, List.map_cons, ih]

theorem eraseFirst_sublist (id : Int) (sessions : List Session) : (eraseFirst id sessions).Sublist sessions := by
  induction sessions with
  | nil => exact .slnil
  | cons first sessions ih =>
    rw [eraseFirst]
    split
    · exact List.sublist_cons_self first sessions
    · exact ih.cons_cons first

theorem eraseFirst_ids (id : Int) (sessions : List Session) :
    ((eraseFirst id sessions).flatMap Session.ids).Sublist (sessions.flatMap Session.ids) := by
  induction sessions with
  | nil => exact .slnil
  | cons first sessions ih =>
    rw [eraseFirst]
    split
    · rw [List.flatMap_cons]
      exact List.sublist_append_right first.ids _
    · rw [List.flatMap_cons, List.flatMap_cons]
      exact ih.append_left first.ids

/-! ### The invariant -/

def Session.users (s : Session) : List Int :=
  (s.messages.filter fun m => decide m.IsUser).map Message.id

/-- The ids that have been handed out are below the counter, and what is in the store is in the
history. -/
structure Sound (st : State) : Prop where
  positive : 0 < st.store.nextId
  increasing : st.created.Pairwise (· < ·)
  range : ∀ id ∈ st.created, 0 < id ∧ id < st.store.nextId
  created : ∀ id ∈ st.store.ids, id ∈ st.created
  distinct : st.store.ids.Nodup
  sessions : ∀ user ∈ st.users, user.1 < st.store.nextId ∧ user.2 < st.store.nextId
  users : st.users.Pairwise fun a b => a.2 < b.2
  shown : ∀ s ∈ st.store.sessions, (st.users.filter (·.1 = s.id)).map Prod.snd = s.users
  replies : ∀ reply ∈ st.replies, reply.2.2 < st.store.nextId ∧ (reply.1, reply.2.1) ∈ st.users ∧
    ∀ user ∈ st.users, user.1 = reply.1 → reply.2.1 < user.2 → reply.2.2 < user.2

theorem Sound.ordered {st : State} (sound : Sound st) : Ordered st :=
  ⟨sound.increasing, sound.created, sound.distinct, fun reply member => (sound.replies reply member).2⟩

def coreIds (c : Int × Text × List (Int × Text)) : List Int :=
  c.1 :: c.2.2.map Prod.fst

theorem ids_eq (st : Store) : st.ids = (st.sessions.map core).flatMap coreIds := by
  rw [List.flatMap_map]
  refine List.flatMap_congr fun s _ => ?_
  simp [coreIds, core]

theorem users_eq (s : Session) :
    s.users = ((core s).2.2.filter fun m => decide (m.2 = ascii "user")).map Prod.fst := by
  simp only [Session.users, core, List.filter_map, List.map_map]
  rfl

theorem Sound.of_core {st : State} (sound : Sound st) {store : Store} (counter : store.nextId = st.store.nextId)
    (same : store.sessions.map core = st.store.sessions.map core) (file : Option Text) :
    Sound { st with store, file } := by
  have ids : store.ids = st.store.ids := by rw [ids_eq, ids_eq, same]
  constructor
  · exact counter ▸ sound.positive
  · exact sound.increasing
  · exact fun id member => counter ▸ sound.range id member
  · exact fun id member => sound.created id (ids ▸ member)
  · exact ids ▸ sound.distinct
  · exact fun user member => counter ▸ sound.sessions user member
  · exact sound.users
  · intro s member
    have inside : core s ∈ st.store.sessions.map core := same ▸ List.mem_map_of_mem member
    obtain ⟨s', member', cores⟩ := List.mem_map.mp inside
    have here := sound.shown s' member'
    have id : s'.id = s.id := congrArg Prod.fst cores
    rw [users_eq, cores, ← users_eq, id] at here
    exact here
  · exact fun reply member => counter ▸ sound.replies reply member

theorem Sound.sessions_distinct {st : State} (sound : Sound st) : (st.store.sessions.map Session.id).Nodup := by
  refine sound.distinct.sublist ?_
  unfold Store.ids
  induction st.store.sessions with
  | nil => exact .slnil
  | cons s sessions ih =>
    rw [List.map_cons, List.flatMap_cons, List.cons_append]
    exact (ih.trans (List.sublist_append_right _ _)).cons_cons s.id

theorem Sound.session_mem {st : State} (sound : Sound st) (member : s ∈ st.store.sessions) :
    0 < s.id ∧ s.id < st.store.nextId :=
  sound.range s.id (sound.created s.id (List.mem_flatMap.mpr ⟨s, member, List.mem_cons_self⟩))

/-! ### Steps -/

section Steps

variable {st : State}

theorem Sound.created_snoc (sound : Sound st) : (st.created ++ [st.store.nextId]).Pairwise (· < ·) ∧
    ∀ id ∈ st.created ++ [st.store.nextId], 0 < id ∧ id < st.store.nextId + 1 := by
  constructor
  · refine List.pairwise_append.mpr ⟨sound.increasing, List.pairwise_singleton _ _, ?_⟩
    intro id member next here
    rw [List.mem_singleton.mp here]
    exact (sound.range id member).2
  · intro id member
    have positive := sound.positive
    rcases List.mem_append.mp member with old | new
    · have := sound.range id old
      omega
    · rw [List.mem_singleton.mp new]
      omega

variable {s : Session}

theorem Sound.create (sound : Sound st) (id : s.id = st.store.nextId) (empty : s.messages = []) (file : Option Text) :
    Sound { st with
      store := { nextId := st.store.nextId + 1, sessions := st.store.sessions ++ [s] }
      file
      created := st.created ++ [st.store.nextId] } := by
  obtain ⟨increasing, range⟩ := sound.created_snoc
  have ids : Store.ids { nextId := st.store.nextId + 1, sessions := st.store.sessions ++ [s] } =
      st.store.ids ++ [st.store.nextId] := by
    simp [Store.ids, id, empty]
  have positive := sound.positive
  constructor
  · show 0 < st.store.nextId + 1
    omega
  · exact increasing
  · exact range
  · intro id' member
    rw [ids] at member
    rcases List.mem_append.mp member with old | new
    · exact List.mem_append_left _ (sound.created id' old)
    · exact List.mem_append_right _ new
  · rw [ids]
    refine List.nodup_append.mpr ⟨sound.distinct, List.nodup_singleton _, ?_⟩
    intro old member new here same
    have below := (sound.range old (sound.created old member)).2
    rw [same, List.mem_singleton.mp here] at below
    omega
  · intro user member
    have := sound.sessions user member
    exact ⟨Int.lt_add_one_of_le this.1.le, Int.lt_add_one_of_le this.2.le⟩
  · exact sound.users
  · intro s' member
    rcases List.mem_append.mp member with old | new
    · exact sound.shown s' old
    · rw [List.mem_singleton.mp new]
      have nothing : st.users.filter (·.1 = s.id) = [] := by
        rw [List.filter_eq_nil_iff]
        intro user member
        have := (sound.sessions user member).1
        rw [id]
        simpa using this.ne
      simp [nothing, Session.users, empty]
  · intro reply member
    obtain ⟨below, trigger, order⟩ := sound.replies reply member
    exact ⟨Int.lt_add_one_of_le below.le, trigger, order⟩

theorem Sound.addMessage (sound : Sound st) {session : Int} (found : st.store.find session = some s) (role : Text)
    (sender : Option Text) (content : Text) (now : Int) (file : Option Text) :
    Sound { st with
      store := addMessage session role sender content now st.store
      file
      created := st.created ++ [st.store.nextId]
      users := if cstr role = ascii "user" then st.users ++ [(session, st.store.nextId)] else st.users } := by
  obtain ⟨increasing, range⟩ := sound.created_snoc
  obtain ⟨inside, isSession⟩ := find_spec found
  have ids : (Chat.addMessage session role sender content now st.store).ids.Perm (st.store.nextId :: st.store.ids) :=
    ids_updateFirst found
  have positive := sound.positive
  constructor
  · show 0 < st.store.nextId + 1
    omega
  · exact increasing
  · exact range
  · intro id member
    rcases List.mem_cons.mp (ids.subset member) with rfl | old
    · exact List.mem_append_right _ (List.mem_singleton_self _)
    · exact List.mem_append_left _ (sound.created id old)
  · rw [ids.nodup_iff]
    refine List.nodup_cons.mpr ⟨fun member => ?_, sound.distinct⟩
    have below := (sound.range _ (sound.created _ member)).2
    omega
  · have room := (sound.session_mem inside).2
    rw [isSession] at room
    intro user member
    show user.1 < st.store.nextId + 1 ∧ user.2 < st.store.nextId + 1
    have old (member : user ∈ st.users) : user.1 < st.store.nextId + 1 ∧ user.2 < st.store.nextId + 1 := by
      have := sound.sessions user member
      omega
    dsimp only at member
    split at member
    · rcases List.mem_append.mp member with member | new
      · exact old member
      · rw [List.mem_singleton.mp new]
        dsimp only
        omega
    · exact old member
  · dsimp only
    split
    · refine List.pairwise_append.mpr ⟨sound.users, List.pairwise_singleton _ _, ?_⟩
      intro user member new here
      rw [List.mem_singleton.mp here]
      exact (sound.sessions user member).2
    · exact sound.users
  · intro s' member
    rcases mem_updateFirst sound.sessions_distinct member with ⟨other, apart⟩ | ⟨old, there, found', rfl⟩
    · have before := sound.shown s' other
      dsimp only
      split
      · have skip : decide (session = s'.id) = false := by simpa using Ne.symm apart
        simp [List.filter_append, skip, before]
      · exact before
    · have same : old = s := Option.some.inj (found'.symm.trans found)
      subst same
      have before := sound.shown old there
      dsimp only
      by_cases user : cstr role = ascii "user"
      · rw [if_pos user]
        simp [List.filter_append, isSession, Session.users, Message.IsUser, user] at before ⊢
        exact before
      · rw [if_neg user]
        simp [isSession, Session.users, Message.IsUser, List.filter_append, user] at before ⊢
        exact before
  · intro reply member
    obtain ⟨below, trigger, order⟩ := sound.replies reply member
    refine ⟨Int.lt_add_one_of_le below.le, ?_, ?_⟩
    · dsimp only
      split
      · exact List.mem_append_left _ trigger
      · exact trigger
    · intro user member
      dsimp only at member
      split at member
      · rcases List.mem_append.mp member with member | new
        · exact order user member
        · rw [List.mem_singleton.mp new]
          exact fun _ _ => below
      · exact order user member

theorem latestUser_spec {trigger : Int} (positive : 0 < trigger) (latest : latestUser s.messages = trigger) :
    ∃ before, s.users = before ++ [trigger] := by
  unfold latestUser at latest
  split at latest
  · next m found =>
    obtain ⟨user, later, earlier, whole, none⟩ := List.find?_eq_some_iff_append.mp found
    have shape : s.messages = earlier.reverse ++ m :: later.reverse := by
      rw [← List.reverse_reverse s.messages, whole]
      simp
    have nothing : later.reverse.filter (fun m => decide m.IsUser) = [] := by
      rw [List.filter_eq_nil_iff]
      intro m member
      simpa using none m (List.mem_reverse.mp member)
    refine ⟨(earlier.reverse.filter fun m => decide m.IsUser).map Message.id, ?_⟩
    have here : (m :: later.reverse).filter (fun m => decide m.IsUser) = [m] := by
      rw [List.filter_cons_of_pos (p := fun m : Message => decide m.IsUser) user, nothing]
    rw [Session.users, shape, List.filter_append, here, List.map_append, ← latest]
    rfl
  · omega

theorem Sound.addReply (sound : Sound st) {session trigger : Int} (positive : 0 < trigger)
    (found : st.store.find session = some s) (latest : latestUser s.messages = trigger) (sender : Option Text)
    (content : Text) (now : Int) (file : Option Text) :
    Sound { st with
      store := Chat.addMessage session (ascii "assistant") sender content now st.store
      file
      created := st.created ++ [st.store.nextId]
      replies := st.replies ++ [(session, trigger, st.store.nextId)] } := by
  have added := sound.addMessage found (ascii "assistant") sender content now file
  rw [if_neg (show ¬ cstr (ascii "assistant") = ascii "user" by decide)] at added
  refine ⟨added.positive, added.increasing, added.range, added.created, added.distinct, added.sessions, added.users,
    added.shown, ?_⟩
  intro reply member
  rcases List.mem_append.mp member with old | new
  · exact added.replies reply old
  · rw [List.mem_singleton.mp new]
    obtain ⟨inside, isSession⟩ := find_spec found
    obtain ⟨before, ends⟩ := latestUser_spec positive latest
    have shown := sound.shown s inside
    rw [isSession, ends] at shown
    -- the trigger is the last message of a user in the session, so none of them is later
    have ordered : (before ++ [trigger]).Pairwise (· < ·) := by
      rw [← shown, List.pairwise_map]
      exact sound.users.sublist List.filter_sublist
    refine ⟨Int.lt_succ_self _, ?_, ?_⟩
    · have member : trigger ∈ (st.users.filter (·.1 = session)).map Prod.snd := by simp [shown]
      obtain ⟨⟨session', trigger'⟩, member, same⟩ := List.mem_map.mp member
      obtain ⟨member, here⟩ := List.mem_filter.mp member
      have here : session' = session := by simpa using here
      rw [← here, ← show trigger' = trigger from same]
      exact member
    · intro user member here later
      have inside : user.2 ∈ before ++ [trigger] := by
        rw [← shown]
        exact List.mem_map_of_mem (List.mem_filter.mpr ⟨member, by simpa using here⟩)
      rcases List.mem_append.mp inside with earlier | last
      · have below := (List.pairwise_append.mp ordered).2.2 user.2 earlier trigger (List.mem_singleton_self _)
        exact absurd later (not_lt.mpr below.le)
      · rw [List.mem_singleton.mp last] at later
        exact absurd later (lt_irrefl _)

end Steps

/-! ### The file -/

def OnFile (number : Rat → Text) (st : State) : Prop :=
  st.file = none ∧ st.store.sessions = [] ∧ st.store.nextId = 1 ∨
    ∃ store, st.file = some (storeText number store) ∧ store.nextId = st.store.nextId ∧
      store.sessions.map core = st.store.sessions.map core

structure Held (number : Rat → Text) (st : State) : Prop where
  sound : Sound st
  small : st.store.nextId < 10 ^ 15
  onFile : OnFile number st

theorem onFile_written (number : Rat → Text) {st : State} (file : st.file = some (storeText number st.store)) :
    OnFile number st :=
  .inr ⟨st.store, file, rfl, rfl⟩

section Reloads

variable {number : Rat → Text} {st : State}

theorem Held.load (prints : PrintsNumbers number) (held : Held number st) :
    (load st.file).nextId = st.store.nextId ∧ (load st.file).sessions.map core = st.store.sessions.map core := by
  rcases held.onFile with ⟨file, sessions, counter⟩ | ⟨store, file, counter, cores⟩
  · rw [file, sessions, counter]
    exact ⟨rfl, rfl⟩
  · have small (id : Int) (member : id ∈ store.ids) : Small id := by
      rw [ids_eq, cores, ← ids_eq] at member
      have range := held.sound.range id (held.sound.created id member)
      have bound := held.small
      exact ⟨by omega, by omega⟩
    have positive := held.sound.positive
    have bound := held.small
    rw [file, ← counter, ← cores]
    apply load_storeText prints
    · rw [counter]
      exact ⟨by omega, bound⟩
    · intro s member
      refine ⟨small s.id (List.mem_flatMap.mpr ⟨s, member, List.mem_cons_self⟩), fun m inside => ?_⟩
      exact small m.id (List.mem_flatMap.mpr ⟨s, member, List.mem_cons_of_mem _ (List.mem_map_of_mem inside)⟩)

theorem Held.of_core (held : Held number st) {store : Store} (counter : store.nextId = st.store.nextId)
    (same : store.sessions.map core = st.store.sessions.map core) :
    Held number (persist number true store st) :=
  ⟨held.sound.of_core counter same _, counter ▸ held.small, onFile_written number rfl⟩

theorem held_step (prints : PrintsNumbers number) (held : Held number st) {label : Label} (durable : Durable st label) :
    Held number (step number st label) := by
  cases label with
  | create c written =>
    obtain ⟨rfl, bound⟩ := durable
    simp only [step]
    split
    · exact held
    · next store id created =>
      unfold imCreateSessionDiscussion at created
      split at created
      · cases created
      · cases created
        exact ⟨held.sound.create rfl rfl _, bound, onFile_written number rfl⟩
  | send session role content sender now written =>
    obtain ⟨rfl, bound⟩ := durable
    simp only [step]
    split
    · exact held
    · next store id sent =>
      unfold imSendEx at sent
      split at sent
      · cases sent
      · next s found =>
        cases sent
        exact ⟨held.sound.addMessage found _ _ _ _ _, bound, onFile_written number rfl⟩
  | reply session trigger content sender now written =>
    obtain ⟨rfl, bound⟩ := durable
    simp only [step]
    split
    · exact held
    · next store id sent =>
      unfold imSendAgentReply at sent
      split at sent
      · cases sent
      · next asked =>
        split at sent
        · cases sent
        · next s found =>
          split at sent
          · cases sent
          · next latest =>
            cases sent
            rw [not_or] at asked
            rw [not_or, not_not, not_not] at latest
            have added := held.sound.addReply (by omega) found latest.2 sender content now
              (some (storeText number (addMessage session (ascii "assistant") sender content now st.store)))
            exact ⟨added, bound, onFile_written number rfl⟩
  | configure session members rounds written =>
    obtain rfl : written = true := durable
    simp only [step]
    split
    · exact held
    · next store changed =>
      unfold imSessionConfigure at changed
      split at changed
      · cases changed
      · split at changed
        · cases changed
        · split at changed
          · cases changed
          · cases changed
            exact held.of_core rfl (map_core_updateFirst fun _ => rfl)
  | setChannel session channel written =>
    obtain rfl : written = true := durable
    simp only [step]
    split
    · exact held
    · next store changed =>
      unfold imSessionSetChannel at changed
      split at changed
      · cases changed
      · cases changed
        exact held.of_core rfl (map_core_updateFirst fun _ => rfl)
  | delete session written =>
    obtain rfl : written = true := durable
    simp only [step]
    split
    · exact held
    · next store changed =>
      unfold imDeleteSession at changed
      split at changed
      · cases changed
      · cases changed
        have less := eraseFirst_sublist session st.store.sessions
        have ids :
            (Store.ids { st.store with sessions := eraseFirst session st.store.sessions }).Sublist st.store.ids :=
          eraseFirst_ids session st.store.sessions
        have sound := held.sound
        refine ⟨⟨sound.positive, sound.increasing, sound.range, ?_, ?_, sound.sessions, sound.users, ?_, sound.replies⟩,
          held.small, onFile_written number rfl⟩
        · exact fun id member => sound.created id (ids.subset member)
        · exact sound.distinct.sublist ids
        · exact fun s member => sound.shown s (less.subset member)
  | restart =>
    obtain ⟨counter, same⟩ := held.load prints
    refine ⟨held.sound.of_core counter same _, counter ▸ held.small, ?_⟩
    rcases held.onFile with ⟨file, sessions, one⟩ | ⟨store, file, counter', cores⟩
    · refine .inl ⟨file, ?_, ?_⟩
      · rw [sessions] at same
        exact List.map_eq_nil_iff.mp same
      · exact counter.trans one
    · exact .inr ⟨store, file, counter'.trans counter.symm, cores.trans same.symm⟩

end Reloads

/-- In a run in which the file is written after every change and the counter stays below 10^15, ids
increase over all restarts, and no reply comes after a message of a user that is later than its
trigger. -/
theorem chats_ordered {number : Rat → Text} (prints : PrintsNumbers number) {labels : List Label} {st : State}
    (run : ((chats number).restrict Durable).Run {} labels st) : Ordered st := by
  have held : Held number st := by
    refine @Machine.Run.invariant _ _ _ (Held number) ?_ _ _ _ run ?_
    · rintro st label _ before ⟨durable, rfl⟩
      exact held_step prints before durable
    · refine ⟨⟨by decide, .nil, ?_, ?_, .nil, ?_, .nil, ?_, ?_⟩, by decide, .inl ⟨rfl, rfl, rfl⟩⟩ <;>
        exact fun _ member => absurd member List.not_mem_nil
  exact held.sound.ordered

def creation (kind : String) : Creation where
  name := none
  kind := some (ascii kind)
  members := []
  rounds := 0
  now := 0

/-- The file is not written, and after a restart the same id is handed out. -/
theorem id_repeated : ∃ st : State, (chats naturalText).Run {}
    [.create (creation "group") false, .restart, .create (creation "group") false] st ∧ ¬ Ordered st := by
  refine ⟨_, Machine.run_ofFun_iff.mpr rfl, fun ordered => ?_⟩
  have increasing : ([1, 1] : List Int).Pairwise (· < ·) := ordered.increasing
  exact absurd increasing (by decide)

/-- A session, a message, the reply of an agent and a restart. -/
theorem chats_ordered_hi : ∃ st : State, ((chats naturalText).restrict Durable).Run {}
    [.create (creation "group") true, .send 1 none (ascii "hi") none 0 true,
      .reply 1 2 (ascii "hello") (some (ascii "a")) 0 true, .restart] st ∧ Ordered st :=
  have run := Machine.Run.cons ⟨⟨rfl, by decide⟩, rfl⟩ (Machine.Run.cons ⟨⟨rfl, by decide⟩, rfl⟩
    (Machine.Run.cons ⟨⟨rfl, by decide⟩, rfl⟩ (Machine.Run.single ⟨trivial, rfl⟩)))
  ⟨_, run, chats_ordered printsNumbers_naturalText run⟩

end CognitiveOs.Im.Chat
