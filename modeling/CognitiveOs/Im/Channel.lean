import CognitiveOs.Foundation.Machine
import CognitiveOs.Infra.Json
import Mathlib.Data.List.Infix
import Mathlib.Data.List.Nodup
import Mathlib.Data.Rat.Defs

/-!
# Polling Telegram

A channel of `im/channel.c`, its polls, re-registrations and restarts, and the bots it polls. A bot
keeps its updates in the order of their ids and repeats those that no offset has confirmed.
-/

namespace CognitiveOs.Im

open Foundation Infra

/-! ### The channel -/

/-- `im_channel`. -/
structure Channel where
  name : Text
  type : Text
  endpoint : Option Text := none
  token : Option Text := none
  target : Option Text := none
  enabled : Bool := true
  lastUpdateId : Int := 0
  deriving DecidableEq

def member (key : Text) : Option Text → List (Text × Json)
  | some value => [(key, .string value)]
  | none => []

/-- The entry that `channels_persist` writes. -/
def channelJson (ch : Channel) : Json :=
  .object ([(ascii "name", .string ch.name), (ascii "type", .string ch.type)] ++
    member (ascii "endpoint") ch.endpoint ++ member (ascii "token") ch.token ++ member (ascii "target") ch.target ++
    [(ascii "enabled", .bool ch.enabled)])

def stringOf (json : Json) (key : Text) : Option Text :=
  (json.get? key).bind Json.string?

/-- The entry as `channels_load` reads it; the rest of the channel is zero. -/
def loadChannel (it : Json) : Option Channel :=
  (stringOf it (ascii "name")).map fun name =>
    { name
      type := (stringOf it (ascii "type")).getD (ascii "generic")
      endpoint := stringOf it (ascii "endpoint")
      token := stringOf it (ascii "token")
      target := stringOf it (ascii "target")
      enabled :=
        match it.get? (ascii "enabled") with
        | some (.bool enabled) => enabled
        | _ => true }

theorem loadChannel_channelJson (ch : Channel) : loadChannel (channelJson ch) = some { ch with lastUpdateId := 0 } := by
  have keys : (ascii "name" ≠ ascii "type" ∧ ascii "name" ≠ ascii "endpoint" ∧ ascii "name" ≠ ascii "token" ∧
      ascii "name" ≠ ascii "target" ∧ ascii "name" ≠ ascii "enabled") ∧
      (ascii "type" ≠ ascii "endpoint" ∧ ascii "type" ≠ ascii "token" ∧ ascii "type" ≠ ascii "target" ∧
        ascii "type" ≠ ascii "enabled") ∧
      (ascii "endpoint" ≠ ascii "token" ∧ ascii "endpoint" ≠ ascii "target" ∧ ascii "endpoint" ≠ ascii "enabled") ∧
      (ascii "token" ≠ ascii "target" ∧ ascii "token" ≠ ascii "enabled") ∧ ascii "target" ≠ ascii "enabled" ∧
      (ascii "enabled" ≠ ascii "endpoint" ∧ ascii "enabled" ≠ ascii "token" ∧ ascii "enabled" ≠ ascii "target") ∧
      ascii "target" ≠ ascii "endpoint" ∧ ascii "target" ≠ ascii "token" ∧ ascii "token" ≠ ascii "endpoint" := by
    decide
  obtain ⟨⟨nt, ne, nk, ng, nb⟩, ⟨te, tk, tg, tb⟩, ⟨ek, eg, eb⟩, ⟨kg, kb⟩, gb, ⟨be, bk, bg⟩, ge, gk, ke⟩ := keys
  obtain ⟨name, type, endpoint, token, target, enabled, last⟩ := ch
  cases endpoint <;> cases token <;> cases target <;>
    simp [loadChannel, channelJson, stringOf, member, Json.get?, Json.string?, *]

/-- The channel can be polled: `im_channel_poll_telegram` goes on to the request. -/
def Channel.pollable (ch : Channel) : Option Text :=
  if ch.type = ascii "telegram" ∧ ch.enabled then ch.token.filter (· ≠ []) else none

/-! ### Updates -/

/-- `this_uid`: the integer part of `update_id`, 0 without one. -/
def updateId (it : Json) : Int :=
  match it.get? (ascii "update_id") with
  | some (.number value) => value.num.tdiv value.den
  | _ => 0

def messageText (it : Json) : Option (Text × Text) :=
  match it.get? (ascii "message") with
  | some (.object fields) =>
    match stringOf (.object fields) (ascii "text") with
    | some (c :: text) =>
      let from' := ((Json.object fields).get? (ascii "from")).getD .null
      let sender := (stringOf from' (ascii "first_name")).or (stringOf from' (ascii "username"))
      some (sender.getD (ascii "phone"), c :: text)
    | _ => none
  | _ => none

/-- What the loop over a response keeps: the watermark, the ids it came to and those it handed on. -/
structure Loop where
  last : Int
  seen : List Int := []
  handed : List Int := []

/-- The body of the loop of `im_channel_poll_telegram`. -/
def handleItem (l : Loop) (it : Json) : Loop :=
  match it with
  | .object _ =>
    if updateId it ≤ l.last then l
    else
      { last := updateId it
        seen := l.seen ++ [updateId it]
        handed := if (messageText it).isSome then l.handed ++ [updateId it] else l.handed }
  | _ => l

/-! ### The bot -/

/-- What the server has for a token: the updates it made, and the highest offset it was sent. -/
structure Bot where
  updates : List Json := []
  confirmed : Int := 0

/-- `getUpdates` confirms all updates below the offset, and answers with the others. -/
def Bot.getUpdates (b : Bot) (offset : Int) : Bot × List Json :=
  ({ b with confirmed := max b.confirmed offset }, b.updates.filter fun it => max b.confirmed offset ≤ updateId it)

def Json.isObject : Json → Bool
  | .object _ => true
  | _ => false

def Bot.Fresh (b : Bot) (it : Json) : Prop :=
  Json.isObject it = true ∧ 0 < updateId it ∧ ∀ it' ∈ b.updates, updateId it' < updateId it

/-! ### The system -/

structure State where
  channel : Channel
  bots : Text → Bot := fun _ => {}
  /-- History: the updates the loop came to, with the token. -/
  seen : List (Text × Int) := []
  /-- History: the updates handed to ingestion. -/
  handed : List (Text × Int) := []

inductive Label where
  /-- The server makes an update. -/
  | arrive (token : Text) (it : Json)
  /-- A poll; of the response the first `n` updates are come to. -/
  | poll (n : Nat)
  /-- `im_channel_register` as the API calls it, with the rest of the channel zero. -/
  | register (ch : Channel)
  | restart

def polled (s : State) (token : Text) (n : Nat) : State :=
  let (bot, response) := (s.bots token).getUpdates (s.channel.lastUpdateId + 1)
  let l := (response.take n).foldl handleItem { last := s.channel.lastUpdateId }
  { channel := { s.channel with lastUpdateId := l.last }
    bots := Function.update s.bots token bot
    seen := s.seen ++ l.seen.map (token, ·)
    handed := s.handed ++ l.handed.map (token, ·) }

def step (s : State) : Label → State
  | .arrive token it =>
    { s with bots := Function.update s.bots token { s.bots token with updates := (s.bots token).updates ++ [it] } }
  | .poll n =>
    match s.channel.pollable with
    | some token => polled s token n
    | none => s
  | .register ch => { s with channel := { ch with name := s.channel.name, lastUpdateId := 0 } }
  | .restart => { s with channel := (loadChannel (channelJson s.channel)).getD s.channel }

def Served (s : State) : Label → Prop
  | .arrive token it => (s.bots token).Fresh it
  | _ => True

def telegram : Machine State Label :=
  (Machine.ofFun step).restrict Served

def Acknowledged (s : State) (token : Option Text) : Prop :=
  ∀ t ∈ token, ∀ id, (t, id) ∈ s.handed → id < (s.bots t).confirmed

def Careful (s : State) : Label → Prop
  | .register ch => Acknowledged s ch.token
  | .restart => Acknowledged s s.channel.token
  | _ => True

/-! ### The loop over a response -/

/-- The updates of a bot are objects, in the order of their positive ids. -/
structure Bot.Ordered (updates : List Json) : Prop where
  objects : ∀ it ∈ updates, Json.isObject it = true
  positive : ∀ it ∈ updates, 0 < updateId it
  ascending : updates.Pairwise fun a b => updateId a < updateId b

theorem loop_spec {r : List Json} (objects : ∀ it ∈ r, Json.isObject it = true)
    (ascending : r.Pairwise fun a b => updateId a < updateId b) (l : Loop) (above : ∀ it ∈ r, l.last < updateId it) :
    (r.foldl handleItem l).seen = l.seen ++ r.map updateId ∧
      (r.foldl handleItem l).handed = l.handed ++ (r.filter fun it => (messageText it).isSome).map updateId ∧
      (∀ it ∈ r, updateId it ≤ (r.foldl handleItem l).last) ∧
      ((r.foldl handleItem l).last = l.last ∨ ∃ it ∈ r, (r.foldl handleItem l).last = updateId it) := by
  induction r generalizing l with
  | nil => simp
  | cons it r ih =>
    obtain ⟨first, later⟩ := List.pairwise_cons.mp ascending
    have handled : handleItem l it =
        { last := updateId it
          seen := l.seen ++ [updateId it]
          handed := if (messageText it).isSome then l.handed ++ [updateId it] else l.handed } := by
      have isObject := objects it List.mem_cons_self
      cases it with
      | object fields => exact if_neg (by have := above _ List.mem_cons_self; omega)
      | _ => cases isObject
    obtain ⟨seen, handed, bound, last⟩ := ih (fun it member => objects it (List.mem_cons_of_mem _ member)) later
      (handleItem l it) (by rw [handled]; exact first)
    rw [List.foldl_cons]
    refine ⟨?_, ?_, ?_, ?_⟩
    · rw [seen, handled]
      simp
    · rw [handed, handled]
      cases text : (messageText it).isSome <;> simp [text]
    · intro it' member
      rcases List.mem_cons.mp member with rfl | member
      · rcases last with same | ⟨it'', member, same⟩
        · exact Int.le_of_eq (by rw [same, handled])
        · rw [same]
          exact Int.le_of_lt (first it'' member)
      · exact bound it' member
    · rcases last with same | ⟨it', member, same⟩
      · exact .inr ⟨it, List.mem_cons_self, by rw [same, handled]⟩
      · exact .inr ⟨it', List.mem_cons_of_mem _ member, same⟩

theorem mem_take_of_le {xs : List Json} (ascending : xs.Pairwise fun a b => updateId a < updateId b) {n : Nat}
    {a b : Json} (taken : b ∈ xs.take n) (member : a ∈ xs) (below : updateId a ≤ updateId b) : a ∈ xs.take n := by
  rw [← List.take_append_drop n xs] at ascending member
  rcases List.mem_append.mp member with here | dropped
  · exact here
  · have := (List.pairwise_append.mp ascending).2.2 b taken a dropped
    omega

/-! ### What a run keeps -/

variable {s : State} {ch : Channel} {b : Bot} {it : Json} {token : Text}

def Bot.Reaches (b : Bot) (x : Int) : Prop :=
  x ≤ 0 ∨ ∃ it ∈ b.updates, x ≤ updateId it

/-- Every update below the confirmed offset, or up to the watermark, has been seen. -/
structure Followed (s : State) : Prop where
  ordered : ∀ t, Bot.Ordered (s.bots t).updates
  offset : ∀ t, (s.bots t).Reaches ((s.bots t).confirmed - 1)
  watermark : ∀ t ∈ s.channel.token, (s.bots t).Reaches s.channel.lastUpdateId
  confirmed : ∀ t, ∀ it ∈ (s.bots t).updates, updateId it < (s.bots t).confirmed → (t, updateId it) ∈ s.seen
  current : ∀ t ∈ s.channel.token, ∀ it ∈ (s.bots t).updates, updateId it ≤ s.channel.lastUpdateId →
    (t, updateId it) ∈ s.seen

/-- What was handed on is behind the watermark or confirmed, each update once. -/
structure Once (s : State) : Prop where
  handed : s.handed.Nodup
  behind : ∀ t ∈ s.channel.token, ∀ id, (t, id) ∈ s.handed →
    id ≤ s.channel.lastUpdateId ∨ id < (s.bots t).confirmed

theorem Followed.reset (followed : Followed s) (zero : ch.lastUpdateId = 0) :
    Followed { s with channel := ch } where
  ordered := followed.ordered
  offset := followed.offset
  watermark t _ := .inl (Int.le_of_eq zero)
  confirmed := followed.confirmed
  current t _ it member low := by
    have := (followed.ordered t).positive it member
    have low : updateId it ≤ ch.lastUpdateId := low
    omega

theorem Once.reset (once : Once s) (acknowledged : Acknowledged s ch.token) :
    Once { s with channel := ch } where
  handed := once.handed
  behind t token id member := .inr (acknowledged t token id member)

theorem Bot.Ordered.snoc (ordered : Bot.Ordered b.updates) (fresh : b.Fresh it) : Bot.Ordered (b.updates ++ [it]) := by
  obtain ⟨isObject, positive, above⟩ := fresh
  constructor
  · simpa [or_imp, forall_and, isObject] using ordered.objects
  · simpa [or_imp, forall_and, positive] using ordered.positive
  · rw [List.pairwise_append]
    exact ⟨ordered.ascending, List.pairwise_singleton _ _, by simpa using above⟩

theorem Bot.Reaches.lt (fresh : b.Fresh it) {x : Int} (reaches : b.Reaches x) : x < updateId it := by
  obtain ⟨-, positive, above⟩ := fresh
  rcases reaches with low | ⟨it', member, low⟩
  · omega
  · have := above it' member
    omega

theorem Bot.Reaches.snoc {x : Int} (reaches : b.Reaches x) (it : Json) :
    Bot.Reaches { b with updates := b.updates ++ [it] } x := by
  rcases reaches with low | ⟨it', member, low⟩
  · exact .inl low
  · exact .inr ⟨it', List.mem_append_left _ member, low⟩

theorem Followed.arrive (followed : Followed s) (fresh : (s.bots token).Fresh it) :
    Followed (step s (.arrive token it)) := by
  have bots (t : Text) : (step s (.arrive token it)).bots t =
      if t = token then { s.bots token with updates := (s.bots token).updates ++ [it] } else s.bots t := by
    simp [step, Function.update_apply]
  constructor
  · intro t
    rw [bots]
    split
    · exact (followed.ordered token).snoc fresh
    · exact followed.ordered t
  · intro t
    rw [bots]
    split
    · exact (followed.offset token).snoc it
    · exact followed.offset t
  · intro t here
    rw [bots]
    split
    · next same =>
      subst same
      exact (followed.watermark t here).snoc it
    · exact followed.watermark t here
  · intro t it' member low
    rw [bots] at member low
    split at member
    · next same =>
      subst same
      rw [if_pos rfl] at low
      rcases List.mem_append.mp member with old | new
      · exact followed.confirmed t it' old low
      · obtain rfl := List.mem_singleton.mp new
        have := (followed.offset t).lt fresh
        have low : updateId it' < (s.bots t).confirmed := low
        omega
    · next other =>
      rw [if_neg other] at low
      exact followed.confirmed t it' member low
  · intro t here it' member low
    rw [bots] at member
    split at member
    · next same =>
      subst same
      rcases List.mem_append.mp member with old | new
      · exact followed.current t here it' old low
      · obtain rfl := List.mem_singleton.mp new
        have := (followed.watermark t here).lt fresh
        have low : updateId it' ≤ s.channel.lastUpdateId := low
        omega
    · exact followed.current t here it' member low

theorem pollable_token (pollable : ch.pollable = some token) : ch.token = some token := by
  unfold Channel.pollable at pollable
  split at pollable
  · exact (Option.filter_eq_some_iff.mp pollable).1
  · cases pollable

def unconfirmed (s : State) (token : Text) : List Json :=
  (s.bots token).updates.filter fun it => max (s.bots token).confirmed (s.channel.lastUpdateId + 1) ≤ updateId it

structure Polled (s : State) (token : Text) (n : Nat) : Prop where
  bots : (polled s token n).bots = Function.update s.bots token
    { s.bots token with confirmed := max (s.bots token).confirmed (s.channel.lastUpdateId + 1) }
  sameToken : (polled s token n).channel.token = s.channel.token
  seen : (polled s token n).seen = s.seen ++ (((unconfirmed s token).take n).map updateId).map (token, ·)
  handed : (polled s token n).handed = s.handed ++
    ((((unconfirmed s token).take n).filter fun it => (messageText it).isSome).map updateId).map (token, ·)
  bound : ∀ it ∈ (unconfirmed s token).take n, updateId it ≤ (polled s token n).channel.lastUpdateId
  last : (polled s token n).channel.lastUpdateId = s.channel.lastUpdateId ∨
    ∃ it ∈ (unconfirmed s token).take n, (polled s token n).channel.lastUpdateId = updateId it

theorem ascending_unconfirmed (followed : Followed s) (token : Text) :
    (unconfirmed s token).Pairwise fun a b => updateId a < updateId b :=
  (followed.ordered token).ascending.sublist List.filter_sublist

theorem le_of_unconfirmed (member : it ∈ unconfirmed s token) :
    it ∈ (s.bots token).updates ∧ max (s.bots token).confirmed (s.channel.lastUpdateId + 1) ≤ updateId it := by
  simpa [unconfirmed] using member

theorem polled_spec (followed : Followed s) (token : Text) (n : Nat) : Polled s token n := by
  have within : ∀ it ∈ (unconfirmed s token).take n, it ∈ unconfirmed s token := fun _ => List.mem_of_mem_take
  obtain ⟨seen, handed, bound, last⟩ := @loop_spec ((unconfirmed s token).take n)
    (fun it member => (followed.ordered token).objects it (le_of_unconfirmed (within it member)).1)
    ((ascending_unconfirmed followed token).sublist (List.take_sublist n _)) { last := s.channel.lastUpdateId }
    (fun it member => by
      have := (le_of_unconfirmed (within it member)).2
      show s.channel.lastUpdateId < updateId it
      omega)
  constructor
  · rfl
  · rfl
  · exact congrArg (s.seen ++ ·.map (token, ·)) (seen.trans (List.nil_append _))
  · exact congrArg (s.handed ++ ·.map (token, ·)) (handed.trans (List.nil_append _))
  · exact bound
  · exact last

theorem bots_polled {n : Nat} (polls : Polled s token n) (t : Text) :
    (polled s token n).bots t = if t = token then
      { s.bots token with confirmed := max (s.bots token).confirmed (s.channel.lastUpdateId + 1) } else s.bots t := by
  rw [polls.bots, Function.update_apply]

theorem Followed.polled (followed : Followed s) (here : s.channel.token = some token) (n : Nat) :
    Followed (polled s token n) := by
  have polls := polled_spec followed token n
  have bots := bots_polled polls
  have old : ∀ p, p ∈ s.seen → p ∈ (Im.polled s token n).seen := by
    intro p member
    rw [polls.seen]
    exact List.mem_append_left _ member
  -- what the new offset confirms was confirmed or below the watermark
  have below : ∀ it ∈ (s.bots token).updates,
      updateId it < max (s.bots token).confirmed (s.channel.lastUpdateId + 1) → (token, updateId it) ∈ s.seen := by
    intro it member low
    by_cases confirmed : updateId it < (s.bots token).confirmed
    · exact followed.confirmed token it member confirmed
    · exact followed.current token here it member (by omega)
  have reaches : (s.bots token).Reaches (Im.polled s token n).channel.lastUpdateId := by
    rcases polls.last with same | ⟨it, member, same⟩
    · rw [same]
      exact followed.watermark token here
    · exact .inr ⟨it, (le_of_unconfirmed (List.mem_of_mem_take member)).1, Int.le_of_eq same⟩
  constructor
  · intro t
    rw [bots]
    split
    · exact followed.ordered token
    · exact followed.ordered t
  · intro t
    rw [bots]
    split
    · have either : max (s.bots token).confirmed (s.channel.lastUpdateId + 1) - 1 = s.channel.lastUpdateId ∨
          max (s.bots token).confirmed (s.channel.lastUpdateId + 1) - 1 = (s.bots token).confirmed - 1 := by omega
      show (s.bots token).Reaches (max (s.bots token).confirmed (s.channel.lastUpdateId + 1) - 1)
      rcases either with same | same
      · rw [same]
        exact followed.watermark token here
      · rw [same]
        exact followed.offset token
    · exact followed.offset t
  · intro t isToken
    rw [polls.sameToken, here] at isToken
    obtain rfl := Option.some.inj isToken
    rw [bots, if_pos rfl]
    exact reaches
  · intro t it member low
    rw [bots] at member low
    split at member
    · next same =>
      subst same
      rw [if_pos rfl] at low
      exact old _ (below it member low)
    · next other =>
      rw [if_neg other] at low
      exact old _ (followed.confirmed t it member low)
  · intro t isToken it member low
    rw [polls.sameToken, here] at isToken
    obtain rfl := Option.some.inj isToken
    rw [bots, if_pos rfl] at member
    by_cases confirmed : updateId it < max (s.bots token).confirmed (s.channel.lastUpdateId + 1)
    · exact old _ (below it member confirmed)
    · have repeated : it ∈ unconfirmed s token :=
        List.mem_filter.mpr ⟨member, decide_eq_true (Int.not_lt.mp confirmed)⟩
      rcases polls.last with same | ⟨it', taken, same⟩
      · omega
      · have now := mem_take_of_le (ascending_unconfirmed followed token) taken repeated (by omega)
        rw [polls.seen]
        exact List.mem_append_right _ (List.mem_map.mpr ⟨_, List.mem_map.mpr ⟨it, now, rfl⟩, rfl⟩)

theorem Once.polled (followed : Followed s) (once : Once s) (here : s.channel.token = some token) (n : Nat) :
    Once (polled s token n) := by
  have polls := polled_spec followed token n
  have bots := bots_polled polls
  have ascending : (((unconfirmed s token).take n).filter fun it => (messageText it).isSome).Pairwise
      fun a b => updateId a < updateId b :=
    (ascending_unconfirmed followed token).sublist (List.filter_sublist.trans (List.take_sublist n _))
  have earlier : ∀ id, (token, id) ∈ s.handed → id < max (s.bots token).confirmed (s.channel.lastUpdateId + 1) := by
    intro id member
    rcases once.behind token here id member with low | low <;> omega
  constructor
  · rw [polls.handed, List.nodup_append]
    refine ⟨once.handed, ?_, ?_⟩
    · rw [List.map_map, List.nodup_iff_pairwise_ne, List.pairwise_map]
      refine ascending.imp ?_
      intro a b less same
      have := (Prod.mk.inj same).2
      omega
    · rintro p old q new rfl
      obtain ⟨id, member, rfl⟩ := List.mem_map.mp new
      obtain ⟨it, taken, rfl⟩ := List.mem_map.mp member
      have high := (le_of_unconfirmed (List.mem_of_mem_take (List.mem_filter.mp taken).1)).2
      have low := earlier _ old
      omega
  · intro t isToken id member
    rw [polls.sameToken, here] at isToken
    obtain rfl := Option.some.inj isToken
    rw [polls.handed] at member
    rw [bots, if_pos rfl]
    rcases List.mem_append.mp member with old | new
    · exact .inr (earlier id old)
    · obtain ⟨_, handed, same⟩ := List.mem_map.mp new
      obtain ⟨it, taken, rfl⟩ := List.mem_map.mp handed
      obtain rfl := (Prod.mk.inj same).2
      exact .inl (polls.bound it (List.mem_filter.mp taken).1)

theorem followed_step (followed : Followed s) {label : Label} (served : Served s label) : Followed (step s label) := by
  cases label with
  | arrive token it => exact followed.arrive served
  | poll n =>
    simp only [step]
    split
    · next token pollable => exact followed.polled (pollable_token pollable) n
    · exact followed
  | register ch => exact followed.reset rfl
  | restart =>
    simp only [step, loadChannel_channelJson, Option.getD_some]
    exact followed.reset rfl

theorem once_step (followed : Followed s) (once : Once s) {label : Label} (careful : Careful s label) :
    Once (step s label) := by
  cases label with
  | arrive token it =>
    refine ⟨once.handed, ?_⟩
    intro t isToken id member
    have confirmed : ((step s (.arrive token it)).bots t).confirmed = (s.bots t).confirmed := by
      simp only [step, Function.update_apply]
      split
      · next same => rw [same]
      · rfl
    rw [confirmed]
    exact once.behind t isToken id member
  | poll n =>
    simp only [step]
    split
    · next token pollable => exact once.polled followed (pollable_token pollable) n
    · exact once
  | register ch => exact once.reset careful
  | restart =>
    simp only [step, loadChannel_channelJson, Option.getD_some]
    exact once.reset careful

def start (ch : Channel) : State :=
  { channel := { ch with lastUpdateId := 0 } }

theorem followed_start (ch : Channel) : Followed (start ch) where
  ordered _ := ⟨by simp [start], by simp [start], .nil⟩
  offset _ := .inl (by simp [start])
  watermark _ _ := .inl (by simp [start])
  confirmed _ it member := absurd member (by simp [start])
  current _ _ it member := absurd member (by simp [start])

/-- In a run in which a re-registration or a restart comes only after every update handed on has been
confirmed, each is handed on at most once; in every run, every update below a confirmed offset has been
seen. -/
theorem handed_once {ch : Channel} {labels : List Label} {s : State}
    (run : (telegram.restrict Careful).Run (start ch) labels s) :
    s.handed.Nodup ∧
      ∀ t, ∀ it ∈ (s.bots t).updates, updateId it < (s.bots t).confirmed → (t, updateId it) ∈ s.seen := by
  have kept : Followed s ∧ Once s := by
    refine @Machine.Run.invariant _ _ _ (fun s => Followed s ∧ Once s) ?_ _ _ _ run
      ⟨followed_start ch, List.nodup_nil, fun _ _ _ member => absurd member List.not_mem_nil⟩
    rintro s label _ ⟨followed, once⟩ ⟨careful, served, rfl⟩
    exact ⟨followed_step followed served, once_step followed once careful⟩
  exact ⟨kept.2.handed, kept.1.confirmed⟩

/-! ### Two runs -/

def phone : Channel where
  name := ascii "phone"
  type := ascii "telegram"
  token := some (ascii "t")

def hello : Json :=
  .object [(ascii "update_id", .number 7), (ascii "message", .object [(ascii "text", .string (ascii "hi"))])]

theorem fresh_hello : (({} : Bot)).Fresh hello :=
  ⟨rfl, by decide, fun _ member => absurd member List.not_mem_nil⟩

theorem acknowledged_none (nothing : s.handed = []) (token : Option Text) : Acknowledged s token := by
  intro t _ id member
  rw [nothing] at member
  exact absurd member List.not_mem_nil

/-- A restart before the first update. -/
theorem handed_once_hello : ∃ s : State,
    (telegram.restrict Careful).Run (start phone) [.restart, .arrive (ascii "t") hello, .poll 1] s ∧ s.handed.Nodup :=
  have run := Machine.Run.cons ⟨acknowledged_none rfl _, trivial, rfl⟩
    (Machine.Run.cons ⟨trivial, fresh_hello, rfl⟩ (Machine.Run.single ⟨trivial, trivial, rfl⟩))
  ⟨_, run, (handed_once run).1⟩

/-- An update that was handed on but not confirmed is handed on again after a restart. -/
theorem handed_twice : ∃ labels, ∃ s : State, telegram.Run (start phone) labels s ∧ ¬ s.handed.Nodup :=
  have run := Machine.Run.cons ⟨fresh_hello, rfl⟩ (Machine.Run.cons ⟨trivial, rfl⟩
    (Machine.Run.cons ⟨trivial, rfl⟩ (Machine.Run.single ⟨trivial, rfl⟩)))
  ⟨[.arrive (ascii "t") hello, .poll 1, .restart, .poll 1], _, run, by decide⟩

end CognitiveOs.Im
