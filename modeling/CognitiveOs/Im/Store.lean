import CognitiveOs.Foundation.Machine
import CognitiveOs.Infra.Rereads
import Mathlib.Data.List.Nodup

/-!
# Chat sessions

The sessions and messages of `im/im.c`, one counter for the ids of both, and the file they are
written to after every change and read from when the process starts.
-/

namespace CognitiveOs.Im.Chat

open Foundation Infra
open Infra.Cjson

/-! ### Sessions -/

/-- `im_msg`. -/
structure Message where
  id : Int
  role : Text
  sender : Option Text
  content : Text
  tsMs : Int

/-- `im_sess`. -/
structure Session where
  id : Int
  name : Text
  kind : Text
  members : List Text := []
  discussionRounds : Int
  channel : Option Text := none
  createdMs : Int
  messages : List Message := []

/-- `im`. -/
structure Store where
  nextId : Int := 1
  sessions : List Session := []

/-- `find_sess`. -/
def Store.find (st : Store) (id : Int) : Option Session :=
  st.sessions.find? fun s => s.id = id

def updateFirst (id : Int) (f : Session → Session) : List Session → List Session
  | [] => []
  | s :: sessions => if s.id = id then f s :: sessions else s :: updateFirst id f sessions

def eraseFirst (id : Int) : List Session → List Session
  | [] => []
  | s :: sessions => if s.id = id then sessions else s :: eraseFirst id sessions

def discussionDefaultRounds : Int := 3

def discussionMaxRounds : Int := 5

def isGroup (kind : Text) : Prop :=
  cstr kind = ascii "group"

instance (kind : Text) : Decidable (isGroup kind) :=
  inferInstanceAs (Decidable (cstr kind = ascii "group"))

def Message.IsUser (m : Message) : Prop :=
  cstr m.role = ascii "user"

instance (m : Message) : Decidable m.IsUser :=
  inferInstanceAs (Decidable (cstr m.role = ascii "user"))

/-! ### The file -/

def messageMembers (m : Message) : List (Text × Json) :=
  (ascii "id", .number (toDouble m.id)) :: (ascii "role", .string (cstr m.role)) ::
    ((match m.sender with
      | some sender => [(ascii "sender", .string (cstr sender))]
      | none => []) ++
      [(ascii "content", .string (cstr m.content)), (ascii "ts_ms", .number (toDouble m.tsMs))])

def sessionMembers (s : Session) : List (Text × Json) :=
  (ascii "id", .number (toDouble s.id)) :: (ascii "name", .string (cstr s.name)) ::
    (ascii "kind", .string (cstr s.kind)) :: (ascii "discussion_rounds", .number (toDouble s.discussionRounds)) ::
    (ascii "members", .array (s.members.map fun member => .string (cstr member))) ::
    ((match s.channel with
      | some channel => [(ascii "channel", .string (cstr channel))]
      | none => []) ++
      [(ascii "created_ms", .number (toDouble s.createdMs)),
        (ascii "messages", .array (s.messages.map fun m => .object (messageMembers m)))])

def storeMembers (st : Store) : List (Text × Json) :=
  [(ascii "next_id", .number (toDouble st.nextId)),
    (ascii "sessions", .array (st.sessions.map fun s => .object (sessionMembers s)))]

/-- The text that `im_persist` writes. -/
def storeText (number : Rat → Text) (st : Store) : Text :=
  Json.print number (.object (storeMembers st))

def textOr (json : Option Json) (default : Text) : Text :=
  match json with
  | some (.string s) => s
  | _ => default

def intOr (json : Option Json) (default : Int) : Int :=
  match json with
  | some (.number value) => castInt value
  | _ => default

def itemsOf (json : Option Json) : List Json :=
  match json with
  | some (.array items) => items
  | _ => []

/-- `xstrdup` of a text that is kept when it is not empty. -/
def kept (s : Option Text) : Option Text :=
  s.filter fun s => cstr s ≠ []

def loadMessage (json : Json) : Option Message :=
  match json with
  | .object members =>
    let m := Json.object members
    some
      { id := intOr (m.get? (ascii "id")) 0
        role := textOr (m.get? (ascii "role")) []
        sender := kept ((m.get? (ascii "sender")).bind Json.string?)
        content := textOr (m.get? (ascii "content")) []
        tsMs := intOr (m.get? (ascii "ts_ms")) 0 }
  | _ => none

def loadRounds (kind : Text) (rounds : Option Json) : Int :=
  if isGroup kind then
    match rounds with
    | some (.number value) =>
      if 1 ≤ value ∧ value ≤ discussionMaxRounds ∧ value.den = 1 then value.num else discussionDefaultRounds
    | _ => discussionDefaultRounds
  else 1

def loadSession (json : Json) : Option Session :=
  match json with
  | .object members =>
    let it := Json.object members
    match it.get? (ascii "id") with
    | some (.number id) =>
      let kind := textOr (it.get? (ascii "kind")) (ascii "direct")
      some
        { id := castInt id
          name := textOr (it.get? (ascii "name")) []
          kind
          members := (itemsOf (it.get? (ascii "members"))).map fun member => textOr (some member) []
          discussionRounds := loadRounds kind (it.get? (ascii "discussion_rounds"))
          channel := (it.get? (ascii "channel")).bind Json.string?
          createdMs := intOr (it.get? (ascii "created_ms")) 0
          messages := (itemsOf (it.get? (ascii "messages"))).filterMap loadMessage }
    | _ => none
  | _ => none

/-- `im_new` with `im_load`. -/
def load (file : Option Text) : Store :=
  match file.bind parse with
  | some (.object members) =>
    { nextId := intOr ((Json.object members).get? (ascii "next_id")) 1
      sessions := (itemsOf ((Json.object members).get? (ascii "sessions"))).filterMap loadSession }
  | _ => {}

/-! ### Operations -/

/-- The arguments of `im_create_session_discussion`. -/
structure Creation where
  name : Option Text
  kind : Option Text
  members : List Text
  rounds : Int
  now : Int

def orDefault (s : Option Text) (default : Text) : Text :=
  match kept s with
  | some s => s
  | none => default

def newSession : Text :=
  "新会话".toUTF8.toList

/-- `im_create_session_discussion`; `none` for -1. -/
def imCreateSessionDiscussion (c : Creation) (st : Store) : Option (Store × Int) :=
  if c.rounds < 0 ∨ discussionMaxRounds < c.rounds then none
  else
    let s : Session :=
      { id := st.nextId
        name := orDefault c.name newSession
        kind := orDefault c.kind (ascii "direct")
        members := c.members
        discussionRounds :=
          if c.kind.any fun kind => isGroup kind then
            if c.rounds = 0 then discussionDefaultRounds else c.rounds
          else 1
        createdMs := c.now }
    some ({ nextId := st.nextId + 1, sessions := st.sessions ++ [s] }, st.nextId)

/-- `sess_add_msg` with the next id, to the session with an id. -/
def addMessage (session : Int) (role : Text) (sender : Option Text) (content : Text) (now : Int) (st : Store) : Store :=
  let m : Message := { id := st.nextId, role, sender := kept sender, content, tsMs := now }
  { nextId := st.nextId + 1
    sessions := updateFirst session (fun s => { s with messages := s.messages ++ [m] }) st.sessions }

/-- `im_send_ex`; `none` for -1. -/
def imSendEx (session : Int) (role : Option Text) (content : Text) (sender : Option Text) (now : Int) (st : Store) :
    Option (Store × Int) :=
  match st.find session with
  | none => none
  | some _ => some (addMessage session (role.getD (ascii "user")) sender content now st, st.nextId)

def latestUser (messages : List Message) : Int :=
  match messages.reverse.find? fun m => decide m.IsUser with
  | some m => m.id
  | none => 0

/-- `im_send_agent_reply`; `none` for -1 and -2. -/
def imSendAgentReply (session trigger : Int) (content : Text) (sender : Option Text) (now : Int) (st : Store) :
    Option (Store × Int) :=
  if (kept sender).isNone ∨ trigger ≤ 0 then none
  else
    match st.find session with
    | none => none
    | some s =>
      if ¬ isGroup s.kind ∨ latestUser s.messages ≠ trigger then none
      else some (addMessage session (ascii "assistant") sender content now st, st.nextId)

/-- `im_session_configure`; `none` where nothing is changed. -/
def imSessionConfigure (session : Int) (members : List Text) (rounds : Int) (st : Store) : Option Store :=
  if members = [] ∨ 64 < members.length ∨ rounds < 0 ∨ discussionMaxRounds < rounds ∨ ∃ m ∈ members, cstr m = [] then
    none
  else
    match st.find session with
    | none => none
    | some s =>
      if ¬ isGroup s.kind then none
      else
        some { st with
          sessions := updateFirst session
            (fun s => { s with
              members := members
              discussionRounds := if rounds = 0 then s.discussionRounds else rounds }) st.sessions }

def imSessionSetChannel (session : Int) (channel : Option Text) (st : Store) : Option Store :=
  match st.find session with
  | none => none
  | some _ =>
    some { st with sessions := updateFirst session (fun s => { s with channel := kept channel }) st.sessions }

def imDeleteSession (session : Int) (st : Store) : Option Store :=
  match st.find session with
  | none => none
  | some _ => some { st with sessions := eraseFirst session st.sessions }

/-! ### Runs -/

/-- A process and its file, and the history: the ids in the order in which they were handed out, the
messages of users as session and id, and the replies of agents as session, trigger and id. -/
structure State where
  store : Store := {}
  file : Option Text := none
  created : List Int := []
  users : List (Int × Int) := []
  replies : List (Int × Int × Int) := []

/-- What happens; `written` tells whether the file is written. -/
inductive Label where
  | create (c : Creation) (written : Bool)
  | send (session : Int) (role : Option Text) (content : Text) (sender : Option Text) (now : Int) (written : Bool)
  /-- An agent has finished the reply to a message. -/
  | reply (session trigger : Int) (content : Text) (sender : Option Text) (now : Int) (written : Bool)
  | configure (session : Int) (members : List Text) (rounds : Int) (written : Bool)
  | setChannel (session : Int) (channel : Option Text) (written : Bool)
  | delete (session : Int) (written : Bool)
  | restart

section Runs

variable (number : Rat → Text)

/-- `im_persist`. -/
def persist (written : Bool) (store : Store) (st : State) : State :=
  { st with store, file := if written then some (storeText number store) else st.file }

def step (st : State) : Label → State
  | .create c written =>
    match imCreateSessionDiscussion c st.store with
    | none => st
    | some (store, id) => { persist number written store st with created := st.created ++ [id] }
  | .send session role content sender now written =>
    match imSendEx session role content sender now st.store with
    | none => st
    | some (store, id) => { persist number written store st with
        created := st.created ++ [id]
        users := if cstr (role.getD (ascii "user")) = ascii "user" then st.users ++ [(session, id)] else st.users }
  | .reply session trigger content sender now written =>
    match imSendAgentReply session trigger content sender now st.store with
    | none => st
    | some (store, id) => { persist number written store st with
        created := st.created ++ [id]
        replies := st.replies ++ [(session, trigger, id)] }
  | .configure session members rounds written =>
    match imSessionConfigure session members rounds st.store with
    | none => st
    | some store => persist number written store st
  | .setChannel session channel written =>
    match imSessionSetChannel session channel st.store with
    | none => st
    | some store => persist number written store st
  | .delete session written =>
    match imDeleteSession session st.store with
    | none => st
    | some store => persist number written store st
  | .restart => { st with store := load st.file }

def chats : Machine State Label :=
  Machine.ofFun (step number)

end Runs

def Store.ids (st : Store) : List Int :=
  st.sessions.flatMap fun s => s.id :: s.messages.map Message.id

/-- Ids are handed out in increasing order, no two sessions or messages have the same, and no reply
comes after a message of a user that is later than its trigger. -/
structure Ordered (st : State) : Prop where
  increasing : st.created.Pairwise (· < ·)
  created : ∀ id ∈ st.store.ids, id ∈ st.created
  distinct : st.store.ids.Nodup
  replies : ∀ reply ∈ st.replies, (reply.1, reply.2.1) ∈ st.users ∧
    ∀ user ∈ st.users, user.1 = reply.1 → reply.2.1 < user.2 → reply.2.2 < user.2

def Durable (st : State) : Label → Prop
  | .create _ written => written = true ∧ st.store.nextId + 1 < 10 ^ 15
  | .send _ _ _ _ _ written => written = true ∧ st.store.nextId + 1 < 10 ^ 15
  | .reply _ _ _ _ _ written => written = true ∧ st.store.nextId + 1 < 10 ^ 15
  | .configure _ _ _ written => written = true
  | .setChannel _ _ written => written = true
  | .delete _ written => written = true
  | .restart => True

/-! ### After a restart -/

open Infra.Json

variable {number : Rat → Text}

/-! ### Numbers -/

variable {height : Nat} {json : Json}

theorem int_rereads (prints : PrintsNumbers number) {id : Int} (positive : 0 ≤ id) (small : id < 10 ^ 15)
    (shown : Rereads number height (.number (toDouble id)) json) : json = .number id := by
  obtain ⟨n, rfl⟩ := Int.eq_ofNat_of_zero_le positive
  have small : n < 10 ^ 15 := by exact_mod_cast small
  have double : toDouble n = n := toDouble_of_small (by omega)
  rw [double] at shown
  cases shown with
  | number reads => exact prints.read_integer small reads

/-! ### Sessions -/

def core (s : Session) : Int × Text × List (Int × Text) :=
  (s.id, cstr s.kind, s.messages.map fun m => (m.id, cstr m.role))

def Small (id : Int) : Prop :=
  0 ≤ id ∧ id < 10 ^ 15

theorem loadMessage_rereads (prints : PrintsNumbers number) {m : Message} (small : Small m.id)
    (shown : Rereads number height (.object (messageMembers m)) json) :
    ∃ m', loadMessage json = some m' ∧ m'.id = m.id ∧ cstr m'.role = cstr m.role := by
  cases shown with
  | object members =>
    obtain ⟨id, isId, shownId⟩ := get?_rereads members
      (show (Json.object (messageMembers m)).get? (ascii "id") = some (.number (toDouble m.id)) from
        get?_cons_self _ _ _)
    obtain ⟨role, isRole, shownRole⟩ := get?_rereads members
      (show (Json.object (messageMembers m)).get? (ascii "role") = some (.string (cstr m.role)) by
        rw [messageMembers, get?_cons_of_ne (by decide), get?_cons_self])
    have sameId := int_rereads prints small.1 small.2 shownId
    subst sameId
    cases shownRole
    refine ⟨_, rfl, ?_, ?_⟩
    · show intOr _ _ = _
      rw [isId]
      exact castInt_intCast _
    · show cstr (textOr _ _) = _
      rw [isRole]
      exact cstr_cstr _

theorem loadMessages_rereads (prints : PrintsNumbers number) {messages : List Message}
    (small : ∀ m ∈ messages, Small m.id) {items : List Json}
    (shown : List.Forall₂ (Rereads number height) (messages.map fun m => .object (messageMembers m)) items) :
    (items.filterMap loadMessage).map (fun m => (m.id, cstr m.role)) = messages.map fun m => (m.id, cstr m.role) := by
  induction messages generalizing items with
  | nil =>
    cases shown
    rfl
  | cons m messages ih =>
    cases shown with
    | cons one rest =>
      obtain ⟨m', loaded, id, role⟩ := loadMessage_rereads prints (small m List.mem_cons_self) one
      have later := ih (fun m member => small m (List.mem_cons_of_mem _ member)) rest
      rw [List.filterMap_cons_some loaded, List.map_cons, List.map_cons, later, id, role]

theorem loadSession_rereads (prints : PrintsNumbers number) {s : Session} (small : Small s.id)
    (each : ∀ m ∈ s.messages, Small m.id) (shown : Rereads number height (.object (sessionMembers s)) json) :
    ∃ s', loadSession json = some s' ∧ core s' = core s := by
  cases shown with
  | @object height' _ members' members =>
    obtain ⟨id, isId, shownId⟩ := get?_rereads members
      (show (Json.object (sessionMembers s)).get? (ascii "id") = some (.number (toDouble s.id)) from
        get?_cons_self _ _ _)
    obtain ⟨kind, isKind, shownKind⟩ := get?_rereads members
      (show (Json.object (sessionMembers s)).get? (ascii "kind") = some (.string (cstr s.kind)) by
        rw [sessionMembers, get?_cons_of_ne (by decide), get?_cons_of_ne (by decide), get?_cons_self])
    obtain ⟨messages, isMessages, shownMessages⟩ := get?_rereads members
      (show (Json.object (sessionMembers s)).get? (ascii "messages") =
          some (.array (s.messages.map fun m => .object (messageMembers m))) by
        rw [sessionMembers, get?_cons_of_ne (by decide), get?_cons_of_ne (by decide), get?_cons_of_ne (by decide),
          get?_cons_of_ne (by decide), get?_cons_of_ne (by decide)]
        cases s.channel with
        | none =>
          show (Json.object [_, _]).get? _ = _
          rw [get?_cons_of_ne (by decide), get?_cons_self]
        | some channel =>
          show (Json.object [_, _, _]).get? _ = _
          rw [get?_cons_of_ne (by decide), get?_cons_of_ne (by decide), get?_cons_self])
    have sameId := int_rereads prints small.1 small.2 shownId
    subst sameId
    cases shownKind
    cases shownMessages with
    | @array _ _ items' items =>
      have read := loadMessages_rereads prints each (forall₂_rereads items)
      refine ⟨_, by rw [loadSession, isId], ?_⟩
      unfold core
      dsimp only
      rw [isKind, isMessages]
      refine Prod.ext ?_ (Prod.ext (cstr_cstr _) read)
      exact castInt_intCast _

theorem loadSessions_rereads (prints : PrintsNumbers number) {sessions : List Session}
    (small : ∀ s ∈ sessions, Small s.id ∧ ∀ m ∈ s.messages, Small m.id) {items : List Json}
    (shown : List.Forall₂ (Rereads number height) (sessions.map fun s => .object (sessionMembers s)) items) :
    (items.filterMap loadSession).map core = sessions.map core := by
  induction sessions generalizing items with
  | nil =>
    cases shown
    rfl
  | cons s sessions ih =>
    cases shown with
    | cons one rest =>
      obtain ⟨here, each⟩ := small s List.mem_cons_self
      obtain ⟨s', loaded, same⟩ := loadSession_rereads prints here each one
      have later := ih (fun s member => small s (List.mem_cons_of_mem _ member)) rest
      rw [List.filterMap_cons_some loaded, List.map_cons, List.map_cons, later, same]

/-! ### The store -/

theorem within_string (s : Text) : Within height (.string (cstr s)) :=
  .string (not_mem_cstr s)

theorem within_message (m : Message) : Within (height + 1) (.object (messageMembers m)) := by
  have rest : WithinMembers height [(ascii "content", Json.string (cstr m.content)),
      (ascii "ts_ms", .number (toDouble m.tsMs))] :=
    .cons (by decide) (within_string _) (.cons (by decide) (.number _) .nil)
  apply Within.object
  apply WithinMembers.cons (by decide) (.number _)
  apply WithinMembers.cons (by decide) (within_string _)
  cases m.sender with
  | none => exact rest
  | some sender => exact .cons (by decide) (within_string _) rest

theorem within_session (s : Session) : Within (height + 3) (.object (sessionMembers s)) := by
  have messages : Within (height + 2) (.array (s.messages.map fun m => .object (messageMembers m))) := by
    apply Within.array
    apply within_items
    intro item member
    obtain ⟨m, _, rfl⟩ := List.mem_map.mp member
    exact within_message m
  have members : Within (height + 2) (.array (s.members.map fun member => .string (cstr member))) := by
    apply Within.array
    apply within_items
    intro item member
    obtain ⟨name, _, rfl⟩ := List.mem_map.mp member
    exact within_string name
  have rest : WithinMembers (height + 2) [(ascii "created_ms", Json.number (toDouble s.createdMs)),
      (ascii "messages", .array (s.messages.map fun m => .object (messageMembers m)))] :=
    .cons (by decide) (.number _) (.cons (by decide) messages .nil)
  apply Within.object
  apply WithinMembers.cons (by decide) (.number _)
  apply WithinMembers.cons (by decide) (within_string _)
  apply WithinMembers.cons (by decide) (within_string _)
  apply WithinMembers.cons (by decide) (.number _)
  apply WithinMembers.cons (by decide) members
  cases s.channel with
  | none => exact rest
  | some channel => exact .cons (by decide) (within_string _) rest

theorem load_storeText (prints : PrintsNumbers number) {st : Store} (counter : Small st.nextId)
    (small : ∀ s ∈ st.sessions, Small s.id ∧ ∀ m ∈ s.messages, Small m.id) :
    (load (some (storeText number st))).nextId = st.nextId ∧
      (load (some (storeText number st))).sessions.map core = st.sessions.map core := by
  have sessions : Within (nestingLimit - 1) (.array (st.sessions.map fun s => .object (sessionMembers s))) := by
    apply Within.array
    apply within_items
    intro item member
    obtain ⟨s, _, rfl⟩ := List.mem_map.mp member
    exact within_session s
  have within : WithinMembers (nestingLimit - 1) (storeMembers st) :=
    .cons (by decide) (.number _) (.cons (by decide) sessions .nil)
  obtain ⟨members', shown, text⟩ := prints.objectText within
  have read : parse (storeText number st) = some (.object members') := by
    rw [storeText, parse, text.whole]
    rfl
  obtain ⟨next, isNext, shownNext⟩ := get?_rereads shown
    (show (Json.object (storeMembers st)).get? (ascii "next_id") = some (.number (toDouble st.nextId)) from
      get?_cons_self _ _ _)
  obtain ⟨array, isArray, shownArray⟩ := get?_rereads shown
    (show (Json.object (storeMembers st)).get? (ascii "sessions") =
        some (.array (st.sessions.map fun s => .object (sessionMembers s))) by
      rw [storeMembers, get?_cons_of_ne (by decide), get?_cons_self])
  have sameNext := int_rereads prints counter.1 counter.2 shownNext
  subst sameNext
  have loaded : load (some (storeText number st)) =
      { nextId := intOr ((Json.object members').get? (ascii "next_id")) 1
        sessions := (itemsOf ((Json.object members').get? (ascii "sessions"))).filterMap loadSession } := by
    rw [load, Option.bind_some, read]
  rw [loaded, isNext, isArray]
  generalize isHeight : nestingLimit - 1 = height at shownArray
  cases shownArray with
  | array items =>
    refine ⟨?_, loadSessions_rereads prints small (forall₂_rereads items)⟩
    exact castInt_intCast _

end CognitiveOs.Im.Chat
