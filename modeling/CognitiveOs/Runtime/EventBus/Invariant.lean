import CognitiveOs.Runtime.EventBus.Model

/-!
# What the protocol keeps

Four invariants: at most one thread holds the flag; what is queued will be seen by somebody; every call
of `event_bus_publish` is accepted, counted as refused or still at work, once; and the handlers called
are those of the events taken out of the ring, in order, up to where the holder of the flag is.
-/

namespace CognitiveOs.Runtime.EventBus

open Foundation

variable {status : Nat → Status} {t : Nat} {s : Status}

theorem forall_status {P : Status → Prop} (mine : P s) (theirs : ∀ u, P (status u)) (u : Nat) :
    P (Function.update status t s u) := by
  rw [Function.update_apply]
  split
  · exact mine
  · exact theirs u

theorem same_status {α : Type} (f : Status → α) (same : f s = f (status t)) (u : Nat) :
    f (Function.update status t s u) = f (status u) := by
  rw [Function.update_apply]
  split
  · rename_i this
    rw [this, same]
  · rfl

@[simp]
theorem within_holds (outer : Option Work) : (Status.within outer).holds = outer.isSome := by
  cases outer <;> rfl

@[simp]
theorem within_sees (outer : Option Work) : (Status.within outer).sees = outer.isSome := by
  cases outer <;> rfl

@[simp]
theorem within_work (outer : Option Work) : (Status.within outer).work = outer := by
  cases outer <;> rfl

@[simp]
theorem within_pending (outer : Option Work) : (Status.within outer).pending = none := by
  cases outer <;> rfl

theorem sees_of_holds (holds : s.holds = true) : s.sees = true := by
  cases s <;> first | rfl | exact holds

/-! ### The flag -/

structure Locked (draining : Bool) (status : Nat → Status) : Prop where
  flag : ∀ t, (status t).holds = true → draining = true
  held : draining = true → ∃ t, (status t).holds = true
  alone : ∀ t u, (status t).holds = true → (status u).holds = true → t = u

namespace Locked

variable {draining : Bool}

theorem stay (locked : Locked draining status) (same : s.holds = (status t).holds) :
    Locked draining (Function.update status t s) := by
  have all := same_status (t := t) Status.holds same
  constructor
  · simpa only [all] using locked.flag
  · simpa only [all] using locked.held
  · simpa only [all] using locked.alone

theorem acquire (locked : Locked false status) (holds : s.holds = true) :
    Locked true (Function.update status t s) := by
  have free : ∀ u, (status u).holds ≠ true := fun u mine => Bool.false_ne_true (locked.flag u mine)
  refine ⟨fun _ _ => rfl, fun _ => ⟨t, ?_⟩, fun a b here there => ?_⟩
  · rw [Function.update_self, holds]
  · rw [Function.update_apply] at here there
    split at here
    · split at there
      · omega
      · exact absurd there (free b)
    · exact absurd here (free a)

theorem release (locked : Locked draining status) (mine : (status t).holds = true) (given : s.holds = false) :
    Locked false (Function.update status t s) := by
  have nobody : ∀ u, (Function.update status t s u).holds ≠ true := by
    intro u holds
    rw [Function.update_apply] at holds
    split at holds
    · rw [given] at holds
      cases holds
    · rename_i other
      exact other (locked.alone u t holds mine)
  refine ⟨fun u holds => absurd holds (nobody u), fun none => ?_, fun a b holds => absurd holds (nobody a)⟩
  cases none

end Locked

/-! ### The queue -/

def Seen (queue : List Event) (status : Nat → Status) : Prop :=
  queue ≠ [] → ∃ t, (status t).sees = true

namespace Seen

variable {queue : List Event}

theorem now (queue : List Event) (status : Nat → Status) (t : Nat) (sees : s.sees = true) :
    Seen queue (Function.update status t s) := by
  intro _
  exact ⟨t, by rw [Function.update_self, sees]⟩

theorem stay (seen : Seen queue status) (same : s.sees = (status t).sees) : Seen queue (Function.update status t s) := by
  intro some
  obtain ⟨u, sees⟩ := seen some
  exact ⟨u, by rw [same_status Status.sees same u, sees]⟩

theorem other {u : Nat} (different : u ≠ t) (sees : (status u).sees = true) :
    Seen queue (Function.update status t s) := by
  intro _
  exact ⟨u, by rw [Function.update_of_ne different, sees]⟩

theorem left {b : Bus} (left : b.Left) (mine : ∀ outer, b.status t ≠ .storing outer) :
    Seen b.queue (Function.update b.status t s) := by
  obtain none | ⟨u, outer, storing⟩ := left
  · exact fun some => absurd none some
  · refine other (u := u) ?_ ?_
    · rintro rfl
      exact mine outer storing
    · rw [storing]
      rfl

end Seen

/-! ### The calls -/

/-- `used` are the numbers of the calls that are accepted or refused. -/
structure Ids (used : List Nat) (issued : Nat) (status : Nat → Status) : Prop where
  small : ∀ id ∈ used, id < issued
  once : used.Nodup
  fresh : ∀ t id, (status t).pending = some id → id < issued ∧ id ∉ used
  workers : Workers (Status.pending ∘ status) fun id => id < issued ∧ id ∉ used

namespace Ids

variable {used used' : List Nat} {issued : Nat}

theorem stay (ids : Ids used issued status) (same : s.pending = (status t).pending) :
    Ids used issued (Function.update status t s) := by
  refine ⟨ids.small, ids.once, ?_, ?_⟩
  · have all := same_status (t := t) Status.pending same
    simpa only [all] using ids.fresh
  · exact ids.workers.stay same

theorem ask (ids : Ids used issued status) (idle : (status t).pending = none) (new : s.pending = some issued) :
    Ids used (issued + 1) (Function.update status t s) := by
  refine ⟨fun id member => Nat.lt_succ_of_lt (ids.small id member), ids.once, ?_, ?_⟩
  · intro u id pending
    rw [Function.update_apply] at pending
    split at pending
    · obtain rfl := Option.some.inj (new.symm.trans pending)
      exact ⟨Nat.lt_succ_self _, fun member => Nat.lt_irrefl _ (ids.small _ member)⟩
    · obtain ⟨small, unused⟩ := ids.fresh u id pending
      exact ⟨Nat.lt_succ_of_lt small, unused⟩
  · refine ids.workers.arrive idle new ?_ ?_
    · intro u pending
      exact Nat.lt_irrefl _ (ids.fresh u _ pending).1
    · rintro id ⟨small, unused⟩
      exact (Nat.lt_succ_iff_lt_or_eq.mp small).imp_left fun before => ⟨before, unused⟩

theorem use (ids : Ids used issued status) {id : Nat} (mine : (status t).pending = some id) (done : s.pending = none)
    (perm : used'.Perm (id :: used)) : Ids used' issued (Function.update status t s) := by
  obtain ⟨small, unused⟩ := ids.fresh t id mine
  refine ⟨?_, perm.nodup_iff.mpr (List.nodup_cons.mpr ⟨unused, ids.once⟩), ?_, ?_⟩
  · intro id' member
    obtain rfl | old := List.mem_cons.mp (perm.mem_iff.mp member)
    · exact small
    · exact ids.small id' old
  · intro u id' pending
    rw [Function.update_apply] at pending
    split at pending
    · rw [done] at pending
      cases pending
    · rename_i other
      obtain ⟨small', unused'⟩ := ids.fresh u id' pending
      refine ⟨small', fun member => ?_⟩
      obtain rfl | old := List.mem_cons.mp (perm.mem_iff.mp member)
      · exact other (ids.workers.apart u t id' pending mine)
      · exact unused' old
  · refine ids.workers.leave mine done ?_
    rintro k ⟨small', unused'⟩
    rw [perm.mem_iff, List.mem_cons, not_or] at unused'
    exact ⟨⟨small', unused'.2⟩, unused'.1⟩

end Ids

/-! ### The handlers called -/

/-- The events taken are those that are finished and the one in hand, and so are the handlers called. -/
structure Accounts (taken : List Event) (finished : List (Event × List Int)) (delivered : List (Nat × Nat))
    (w : Option Work) : Prop where
  events : taken = finished.map Prod.fst ++ (w.map Work.ev).toList
  handlers : delivered =
    (finished.flatMap fun p => deliveries p.1 p.2 p.2.length) ++ (w.map Work.delivered).getD []

structure Log (taken : List Event) (draining : Bool) (finished : List (Event × List Int))
    (delivered : List (Nat × Nat)) (status : Nat → Status) : Prop where
  free : draining = false → Accounts taken finished delivered none
  busy : ∀ t, (status t).holds = true → Accounts taken finished delivered (status t).work

namespace Log

variable {taken taken' : List Event} {draining : Bool} {finished finished' : List (Event × List Int)}
  {delivered delivered' : List (Nat × Nat)}

theorem stay (log : Log taken draining finished delivered status) (holds : s.holds = (status t).holds)
    (work : s.work = (status t).work) : Log taken draining finished delivered (Function.update status t s) := by
  refine ⟨log.free, fun u mine => ?_⟩
  rw [same_status Status.holds holds] at mine
  rw [same_status Status.work work]
  exact log.busy u mine

theorem mine (alone : ∀ u, u ≠ t → (status u).holds = false) (accounts : Accounts taken' finished' delivered' s.work) :
    Log taken' true finished' delivered' (Function.update status t s) := by
  refine ⟨fun none => Bool.noConfusion none, fun u holds => ?_⟩
  rw [Function.update_apply] at holds ⊢
  split
  · exact accounts
  · rename_i other
    rw [if_neg other, alone u other] at holds
    cases holds

theorem release (alone : ∀ u, u ≠ t → (status u).holds = false) (given : s.holds = false)
    (accounts : Accounts taken finished delivered none) :
    Log taken false finished delivered (Function.update status t s) := by
  refine ⟨fun _ => accounts, fun u holds => ?_⟩
  rw [Function.update_apply] at holds
  split at holds
  · rw [given] at holds
    cases holds
  · rename_i other
    rw [alone u other] at holds
    cases holds

end Log

theorem deliveries_succ {ev : Event} {snap : List Int} {i : Nat} {subscription : Int}
    (here : snap[i]? = some subscription) :
    deliveries ev snap (i + 1) = deliveries ev snap i ++ if Takes subscription ev then [(ev.id, i)] else [] := by
  unfold deliveries
  rw [List.range_succ, List.filter_append, List.map_append]
  congr 1
  by_cases takes : Takes subscription ev
  · simp [here, takes]
  · simp [here, takes]

/-! ### The copies of the subscriptions -/

def Copied (subs : List Int) (w : Work) : Prop :=
  match w.copy with
  | none => w.ev.since ≤ subs.length
  | some (snap, _) => w.ev.since ≤ snap.length ∧ snap <+: subs

theorem Copied.mono {subs more : List Int} {w : Work} (copied : Copied subs w) : Copied (subs ++ more) w := by
  unfold Copied at copied ⊢
  split at copied
  · rw [List.length_append]
    exact Nat.le_add_right_of_le copied
  · exact ⟨copied.1, copied.2.trans (List.prefix_append subs more)⟩

structure Current (subs : List Int) (s : Status) : Prop where
  asking : ∀ ev outer, s = .asking ev outer → ev.since ≤ subs.length
  work : ∀ w, s.work = some w → Copied subs w

theorem Current.of_work {subs : List Int} {s s' : Status} (current : Current subs s) (same : s'.work = s.work)
    (asks : ∀ ev outer, s' ≠ .asking ev outer) : Current subs s' :=
  ⟨fun ev outer this => absurd this (asks ev outer), fun w mine => current.work w (same ▸ mine)⟩

theorem Current.of_none {subs : List Int} {s : Status} (none : s.work = none)
    (asks : ∀ ev outer, s ≠ .asking ev outer) : Current subs s := by
  refine ⟨fun ev outer this => absurd this (asks ev outer), fun w mine => ?_⟩
  rw [none] at mine
  cases mine

structure Copies (subs : List Int) (accepted : List Event) (finished : List (Event × List Int))
    (status : Nat → Status) : Prop where
  accepted : ∀ ev ∈ accepted, ev.since ≤ subs.length
  finished : ∀ p ∈ finished, p.1.since ≤ p.2.length ∧ p.2 <+: subs
  current : ∀ t, Current subs (status t)

theorem Copies.turn {subs : List Int} {accepted : List Event} {finished : List (Event × List Int)}
    (copies : Copies subs accepted finished status) (current : Current subs s) :
    Copies subs accepted finished (Function.update status t s) :=
  ⟨copies.accepted, copies.finished, forall_status current copies.current⟩

/-! ### All together -/

structure Bus.Sound (b : Bus) : Prop where
  locked : Locked b.draining b.status
  seen : Seen b.queue b.status
  ids : Ids (b.accepted.map Event.id ++ b.refused) b.issued b.status
  log : Log b.taken b.draining b.finished b.delivered b.status
  copies : Copies b.subs b.accepted b.finished b.status

namespace Bus.Sound

variable {b b' : Bus}

theorem alone (sound : b.Sound) (holds : (b.status t).holds = true) (u : Nat) (other : u ≠ t) :
    (b.status u).holds = false := by
  by_contra theirs
  exact other (sound.locked.alone u t (by simpa using theirs) holds)

theorem accounts (sound : b.Sound) (holds : (b.status t).holds = true) :
    Accounts b.taken b.finished b.delivered (b.status t).work :=
  sound.log.busy t holds

theorem moves (sound : b.Sound) (holds : s.holds = (b.status t).holds) (work : s.work = (b.status t).work)
    (pending : s.pending = (b.status t).pending) (seen : Seen b.queue (Function.update b.status t s))
    (asks : ∀ ev outer, s ≠ .asking ev outer) : (b.turn t s).Sound where
  locked := sound.locked.stay holds
  seen := seen
  ids := sound.ids.stay pending
  log := sound.log.stay holds work
  copies := sound.copies.turn ((sound.copies.current t).of_work work asks)

theorem subscribe (sound : b.Sound) (type : Int) : Sound { b with subs := b.subs ++ [type] } where
  locked := sound.locked
  seen := sound.seen
  ids := sound.ids
  log := sound.log
  copies := by
    have longer : b.subs.length ≤ (b.subs ++ [type]).length := by simp
    refine ⟨?_, ?_, ?_⟩
    · exact fun ev member => (sound.copies.accepted ev member).trans longer
    · intro p member
      obtain ⟨since, copy⟩ := sound.copies.finished p member
      exact ⟨since, copy.trans (List.prefix_append _ _)⟩
    · intro t
      obtain ⟨asking, work⟩ := sound.copies.current t
      exact ⟨fun ev outer this => (asking ev outer this).trans longer, fun w mine => (work w mine).mono⟩

theorem ask (sound : b.Sound) {outer : Option Work} (type : EventType) (here : b.status t = .within outer) :
    Sound
      { b.turn t (.asking { type := type, id := b.issued, since := b.subs.length } outer) with
        issued := b.issued + 1 } := by
  have holds : (Status.asking { type := type, id := b.issued, since := b.subs.length } outer).holds =
      (b.status t).holds := by
    rw [here, within_holds]
    rfl
  have work : (Status.asking { type := type, id := b.issued, since := b.subs.length } outer).work =
      (b.status t).work := by
    rw [here, within_work]
    rfl
  refine ⟨sound.locked.stay holds, ?_, ?_, sound.log.stay holds work, ?_⟩
  · refine sound.seen.stay ?_
    rw [here, within_sees]
    rfl
  · exact sound.ids.ask (by rw [here, within_pending]) rfl
  · refine sound.copies.turn ⟨?_, ?_⟩
    · rintro ev outer' this
      cases this
      exact Nat.le_refl _
    · intro w mine
      exact (sound.copies.current t).work w (work ▸ mine)

theorem accept (sound : b.Sound) {ev : Event} {outer : Option Work} (here : b.status t = .asking ev outer) :
    Sound { b.turn t (.storing outer) with queue := b.queue ++ [ev], accepted := b.accepted ++ [ev] } := by
  have holds : (Status.storing outer).holds = (b.status t).holds := by
    rw [here]
    rfl
  have work : (Status.storing outer).work = (b.status t).work := by
    rw [here]
    rfl
  refine ⟨sound.locked.stay holds, Seen.now _ _ _ rfl, ?_, sound.log.stay holds work, ?_⟩
  · refine sound.ids.use (by rw [here]; rfl) rfl ?_
    show ((b.accepted ++ [ev]).map Event.id ++ b.refused).Perm _
    rw [List.map_append, List.append_assoc]
    exact List.perm_middle
  · have current : Current b.subs (.storing outer) :=
      (sound.copies.current t).of_work work fun _ _ this => by cases this
    refine ⟨?_, sound.copies.finished, forall_status current sound.copies.current⟩
    intro x member
    obtain old | new := List.mem_append.mp member
    · exact sound.copies.accepted x old
    · obtain rfl := List.mem_singleton.mp new
      exact (sound.copies.current t).asking x outer here

theorem refuse (sound : b.Sound) {ev : Event} {outer : Option Work} (here : b.status t = .asking ev outer) :
    Sound { b.turn t (.within outer) with refused := b.refused ++ [ev.id] } := by
  have holds : (Status.within outer).holds = (b.status t).holds := by
    rw [here, within_holds]
    rfl
  have work : (Status.within outer).work = (b.status t).work := by
    rw [here, within_work]
    rfl
  refine ⟨sound.locked.stay holds, ?_, ?_, sound.log.stay holds work, ?_⟩
  · refine sound.seen.stay ?_
    rw [here, within_sees]
    rfl
  · refine sound.ids.use (by rw [here]; rfl) (within_pending outer) ?_
    show (b.accepted.map Event.id ++ (b.refused ++ [ev.id])).Perm _
    rw [← List.append_assoc]
    exact List.perm_append_singleton _ _
  · refine sound.copies.turn ((sound.copies.current t).of_work work ?_)
    intro _ _ this
    cases outer <;> cases this

theorem works (sound : b.Sound) {taken : List Event} {finished : List (Event × List Int)}
    {delivered : List (Nat × Nat)} (holds : (b.status t).holds = true) (keeps : s.holds = true)
    (pending : (b.status t).pending = none) (pending' : s.pending = none)
    (accounts : Accounts taken finished delivered s.work) (current : Current b.subs s)
    (copies : ∀ p ∈ finished, p.1.since ≤ p.2.length ∧ p.2 <+: b.subs) :
    Sound { b.turn t s with taken := taken, finished := finished, delivered := delivered } where
  locked := sound.locked.stay (keeps.trans holds.symm)
  seen := Seen.now _ _ _ (sees_of_holds keeps)
  ids := sound.ids.stay (pending'.trans pending.symm)
  log := by
    have set := sound.locked.flag t holds
    show Log taken b.draining finished delivered _
    rw [set]
    exact Log.mine (sound.alone holds) accounts
  copies := ⟨sound.copies.accepted, copies, forall_status current sound.copies.current⟩

theorem releases (sound : b.Sound) (holds : (b.status t).holds = true) (given : s.holds = false)
    (idle : (b.status t).work = none) (idle' : s.work = none) (pending : (b.status t).pending = none)
    (pending' : s.pending = none) (seen : Seen b.queue (Function.update b.status t s))
    (asks : ∀ ev outer, s ≠ .asking ev outer) : Sound { b.turn t s with draining := false } where
  locked := sound.locked.release holds given
  seen := seen
  ids := sound.ids.stay (pending'.trans pending.symm)
  log := Log.release (sound.alone holds) given (idle ▸ sound.accounts holds)
  copies := sound.copies.turn (Current.of_none idle' asks)

theorem step (sound : b.Sound) (taken : Step b b') : b'.Sound := by
  cases taken with
  | subscribe type => exact sound.subscribe type
  | ask t outer type here => exact sound.ask type here
  | accept t ev outer here => exact sound.accept here
  | refuse t ev outer here => exact sound.refuse here
  | stored t outer here =>
    refine sound.moves ?_ ?_ ?_ (Seen.now _ _ _ rfl) fun _ _ this => by cases this
    all_goals rw [here]; rfl
  | follow t outer here set =>
    refine sound.moves ?_ ?_ ?_ ?_ ?_
    · rw [here, within_holds]
      rfl
    · rw [here, within_work]
      rfl
    · rw [here, within_pending]
      rfl
    · cases outer with
      | some w => exact Seen.now _ _ _ rfl
      | none =>
        -- somebody else holds the flag
        obtain ⟨u, holds⟩ := sound.locked.held set
        refine Seen.other (u := u) ?_ (sees_of_holds holds)
        rintro rfl
        rw [here] at holds
        cases holds
    · intro _ _ this
      cases outer <;> cases this
  | acquire t here free =>
    have nobody : ∀ u, u ≠ t → (b.status u).holds = false := by
      intro u _
      by_contra theirs
      have := sound.locked.flag u (by simpa using theirs)
      rw [free] at this
      cases this
    refine ⟨?_, Seen.now _ _ _ rfl, sound.ids.stay (by rw [here]; rfl), ?_, ?_⟩
    · exact (free ▸ sound.locked).acquire rfl
    · exact Log.mine nobody (sound.log.free free)
    · exact sound.copies.turn (Current.of_none rfl fun _ _ this => by cases this)
  | claim t ev rest here queue =>
    refine ⟨sound.locked, fun _ => ⟨t, by rw [here]; rfl⟩, sound.ids, sound.log, sound.copies⟩
  | take t ev here member =>
    have holds : (b.status t).holds = true := by
      rw [here]
      rfl
    obtain ⟨events, handlers⟩ := sound.accounts holds
    rw [here] at events handlers
    refine sound.works holds rfl (by rw [here]; rfl) rfl ⟨?_, handlers⟩ ⟨?_, ?_⟩ sound.copies.finished
    · rw [events]
      simp [Status.work, Bus.turn]
    · intro _ _ this
      cases this
    · intro w mine
      obtain rfl := Option.some.inj mine
      exact sound.copies.accepted ev member
  | miss t here =>
    refine sound.moves ?_ ?_ ?_ (Seen.now _ _ _ rfl) fun _ _ this => by cases this
    all_goals rw [here]; rfl
  | copy t ev here =>
    have holds : (b.status t).holds = true := by
      rw [here]
      rfl
    obtain ⟨events, handlers⟩ := sound.accounts holds
    have old := (sound.copies.current t).work ⟨ev, none⟩ (by rw [here]; rfl)
    rw [here] at events handlers
    refine sound.works holds rfl (by rw [here]; rfl) rfl ⟨events, handlers⟩ ⟨?_, ?_⟩ sound.copies.finished
    · intro _ _ this
      cases this
    · intro w mine
      obtain rfl := Option.some.inj mine
      exact ⟨old, List.prefix_refl _⟩
  | look t ev snap i subscription here found =>
    have holds : (b.status t).holds = true := by
      rw [here]
      rfl
    obtain ⟨events, handlers⟩ := sound.accounts holds
    have old := (sound.copies.current t).work ⟨ev, some (snap, i)⟩ (by rw [here]; rfl)
    rw [here] at events handlers
    refine sound.works holds rfl (by rw [here]; rfl) rfl ⟨events, ?_⟩ ⟨?_, ?_⟩ sound.copies.finished
    · rw [handlers, List.append_assoc]
      exact congrArg _ (deliveries_succ found).symm
    · intro _ _ this
      cases this
    · intro w mine
      obtain rfl := Option.some.inj mine
      exact old
  | finish t w snap s here whole next =>
    have holds : (b.status t).holds = true := by
      rw [here]
      rfl
    obtain ⟨events, handlers⟩ := sound.accounts holds
    have old := (sound.copies.current t).work w (by rw [here]; rfl)
    rw [here] at events handlers
    have facts : s.holds = true ∧ s.pending = none ∧ s.work = none ∧ ∀ ev outer, s ≠ .asking ev outer := by
      obtain rfl | rfl := next
      · exact ⟨rfl, rfl, rfl, fun _ _ this => by cases this⟩
      · exact ⟨rfl, rfl, rfl, fun _ _ this => by cases this⟩
    have copy : w.delivered = deliveries w.ev snap snap.length ∧ w.ev.since ≤ snap.length ∧ snap <+: b.subs := by
      unfold Copied at old
      unfold Work.delivered
      obtain all | ⟨none, rfl, nobody⟩ := whole
      · rw [all] at old ⊢
        exact ⟨rfl, old⟩
      · rw [none] at old ⊢
        rw [nobody] at old ⊢
        exact ⟨rfl, old, List.nil_prefix⟩
    refine sound.works holds facts.1 (by rw [here]; rfl) facts.2.1 ⟨?_, ?_⟩ (Current.of_none facts.2.2.1 facts.2.2.2) ?_
    · show b.taken = _
      rw [events, facts.2.2.1]
      simp [Status.work]
    · show b.delivered = _
      rw [handlers, facts.2.2.1]
      simp [Status.work, copy.1]
    · intro p member
      obtain old | new := List.mem_append.mp member
      · exact sound.copies.finished p old
      · obtain rfl := List.mem_singleton.mp new
        exact copy.2
  | release t here =>
    refine sound.releases (by rw [here]; rfl) rfl (by rw [here]; rfl) rfl (by rw [here]; rfl) rfl (Seen.now _ _ _ rfl) ?_
    intro _ _ this
    cases this
  | stop t here left =>
    refine sound.releases (by rw [here]; rfl) rfl (by rw [here]; rfl) rfl (by rw [here]; rfl) rfl (Seen.left left ?_) ?_
    · intro outer this
      rw [here] at this
      cases this
    · intro _ _ this
      cases this
  | empty t here left =>
    refine sound.moves (by rw [here]; rfl) (by rw [here]; rfl) (by rw [here]; rfl) (Seen.left left ?_) ?_
    · intro outer this
      rw [here] at this
      cases this
    · intro _ _ this
      cases this
  | again t here =>
    refine sound.moves ?_ ?_ ?_ (Seen.now _ _ _ rfl) fun _ _ this => by cases this
    all_goals rw [here]; rfl
  | leave t here =>
    refine sound.moves (by rw [here]; rfl) (by rw [here]; rfl) (by rw [here]; rfl) (sound.seen.stay (by rw [here]; rfl)) ?_
    intro _ _ this
    cases this

end Bus.Sound

end CognitiveOs.Runtime.EventBus
