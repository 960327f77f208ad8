import CognitiveOs.Runtime.EventBus.Simulation

/-!
# Every event is delivered, once

When all calls have returned, nothing is left in the ring, and each event that found a place in it has
been handed to each of its subscribers once.
-/

namespace CognitiveOs.Runtime.EventBus

open Foundation Infra

variable {st : State} {status : Nat → Status}

theorem mem_deliveries {ev : Event} {snap : List Int} {i : Nat} {p : Nat × Nat} :
    p ∈ deliveries ev snap i ↔ p.1 = ev.id ∧ p.2 < i ∧ ∃ subscription, snap[p.2]? = some subscription ∧
      Takes subscription ev := by
  unfold deliveries
  simp only [List.mem_map, List.mem_filter, List.mem_range, Option.any_eq_true, decide_eq_true_eq]
  constructor
  · rintro ⟨j, ⟨inside, subscription, here, takes⟩, rfl⟩
    exact ⟨rfl, inside, subscription, here, takes⟩
  · rintro ⟨same, inside, subscription, here, takes⟩
    exact ⟨p.2, ⟨inside, subscription, here, takes⟩, Prod.ext same.symm rfl⟩

theorem nodup_deliveries (ev : Event) (snap : List Int) (i : Nat) : (deliveries ev snap i).Nodup := by
  refine List.Nodup.map ?_ (List.nodup_range.filter _)
  intro a b same
  exact (Prod.mk.inj same).2

theorem nodup_log {finished : List (Event × List Int)} (distinct : (finished.map fun p => p.1.id).Nodup) :
    (finished.flatMap fun p => deliveries p.1 p.2 p.2.length).Nodup := by
  refine List.nodup_flatMap.mpr ⟨fun p _ => nodup_deliveries _ _ _, ?_⟩
  refine (List.pairwise_map.mp distinct).imp ?_
  intro p q different x here there
  exact different ((mem_deliveries.mp here).1.symm.trans (mem_deliveries.mp there).1)

theorem Is.quiet {pc : Ringbuf.Pc Event} {s : Status} (is : Is [] pc s) : pc = .idle ∧ s = .idle := by
  cases is
  exact ⟨rfl, rfl⟩

namespace Tracks

variable (tracks : Tracks st status)
include tracks

theorem taken_distinct : ((st.ring.returned.filterMap Prod.snd).map Event.id).Nodup := by
  obtain ⟨s, kept⟩ := tracks.ring
  have distinct : (st.ring.pushes.map Event.id).Nodup := (List.nodup_append.mp tracks.sound.ids.once).1
  have read : (st.ring.returned.filterMap Prod.snd).map Event.id =
      (st.ring.returned.map Prod.fst).filterMap fun k => (st.ring.pushes.map Event.id)[k]? := by
    rw [List.map_filterMap, List.filterMap_map]
    refine List.filterMap_congr fun r member => ?_
    rw [(kept.threads.returned r member).2.2]
    simp
  rw [read]
  refine kept.threads.once.filterMap ?_
  intro a b id here there
  exact (List.getElem?_inj (List.getElem?_eq_some_iff.mp here).1 distinct).mp (Eq.trans here (Eq.symm there))

variable (quiet : Quiet st)
include quiet

theorem quiet_idle (t : Nat) : st.ring.pc t = .idle ∧ status t = .idle := by
  have is := tracks.is t
  rw [quiet t] at is
  exact is.quiet

theorem queue_nil : st.ring.queue = [] := by
  by_contra some
  obtain ⟨u, sees⟩ := tracks.sound.seen some
  have idle := (tracks.quiet_idle quiet u).2
  rw [show (bus st status).status u = status u from rfl, idle] at sees
  cases sees

theorem accounts : Accounts (st.ring.returned.filterMap Prod.snd) st.finished st.delivered none := by
  refine tracks.sound.log.free ?_
  by_contra set
  obtain ⟨u, holds⟩ := tracks.sound.locked.held (by simpa using set)
  have idle := (tracks.quiet_idle quiet u).2
  rw [show (bus st status).status u = status u from rfl, idle] at holds
  cases holds

theorem all_taken {ev : Event} (member : ev ∈ st.ring.pushes) : ev ∈ st.ring.returned.filterMap Prod.snd := by
  obtain ⟨s, kept⟩ := tracks.ring
  obtain ⟨k, here⟩ := List.mem_iff_getElem?.mp member
  have inside := (List.getElem?_eq_some_iff.mp here).1
  have claimed : k < s.emptied := by
    have length := kept.queue_length
    rw [tracks.queue_nil quiet] at length
    have filled := kept.words.filled
    simp only [List.length_nil] at length
    omega
  obtain turn | given := kept.threads.left k claimed
  · obtain ⟨u, emptying⟩ := kept.threads.emptiers.has k ⟨claimed, turn⟩
    have idle := (tracks.quiet_idle quiet u).1
    have : (st.ring.pc u).emptying = some k := emptying
    rw [idle] at this
    cases this
  · obtain ⟨r, returned, rfl⟩ := List.mem_map.mp given
    exact List.mem_filterMap.mpr ⟨r, returned, ((kept.threads.returned r returned).2.2).trans here⟩

end Tracks

/-- In every run in which memory is left, no thread is overtaken in the ring and no `drain` stops at
its bound before the ring is empty: when all calls have returned, the ring is empty, every accepted
event has been handed once to every subscriber that takes it and was there when it was published,
nothing else was handed out, and every other call is counted in `dropped`. -/
theorem delivered_of_run {r : Ringbuf.Ring Event} (made : Ringbuf.ringbufNew ringCapacity = some r)
    {labels : List Label} (run : (machine.restrict Good).Run (start r) labels st) (quiet : Quiet st) :
    st.ring.queue = [] ∧ st.delivered.Nodup ∧
      (∀ ev ∈ st.ring.pushes, ∀ i < ev.since, ∀ subscription, st.subs[i]? = some subscription →
        Takes subscription ev → (ev.id, i) ∈ st.delivered) ∧
      (∀ p ∈ st.delivered, ∃ ev ∈ st.ring.pushes, ev.id = p.1 ∧ ∃ subscription, st.subs[p.2]? = some subscription ∧
        Takes subscription ev) ∧
      (∀ id < st.issued, id ∈ st.ring.pushes.map Event.id ∨ id ∈ st.refused) ∧
      (st.ring.pushes.map Event.id ++ st.refused).Nodup ∧ st.dropped = Ringbuf.word st.refused.length := by
  obtain ⟨status, tracks⟩ := tracks_of_run made run
  obtain ⟨events, handlers⟩ := tracks.accounts quiet
  simp only [Option.map_none, Option.toList_none, List.append_nil, Option.getD_none] at events handlers
  refine ⟨tracks.queue_nil quiet, ?_, ?_, ?_, ?_, tracks.sound.ids.once, tracks.dropped⟩
  · rw [handlers]
    refine nodup_log ?_
    have distinct := tracks.taken_distinct
    rw [events, List.map_map] at distinct
    exact distinct
  · intro ev member i inside subscription here takes
    have taken := tracks.all_taken quiet member
    rw [events] at taken
    obtain ⟨⟨_, snap⟩, finished, rfl⟩ := List.mem_map.mp taken
    obtain ⟨since, copy⟩ := tracks.sound.copies.finished _ finished
    have short : i < snap.length := Nat.lt_of_lt_of_le inside since
    rw [handlers]
    refine List.mem_flatMap.mpr ⟨_, finished, mem_deliveries.mpr ⟨rfl, short, subscription, ?_, takes⟩⟩
    obtain ⟨rest, whole⟩ := copy
    have whole : snap ++ rest = st.subs := whole
    rwa [← whole, List.getElem?_append_left short] at here
  · intro p member
    rw [handlers] at member
    obtain ⟨⟨ev, snap⟩, finished, delivery⟩ := List.mem_flatMap.mp member
    obtain ⟨same, short, subscription, here, takes⟩ := mem_deliveries.mp delivery
    obtain ⟨-, copy⟩ := tracks.sound.copies.finished _ finished
    refine ⟨ev, ?_, same.symm, subscription, ?_, takes⟩
    · have taken : ev ∈ st.ring.returned.filterMap Prod.snd := by
        rw [events]
        exact List.mem_map.mpr ⟨_, finished, rfl⟩
      obtain ⟨s, kept⟩ := tracks.ring
      obtain ⟨r, returned, out⟩ := List.mem_filterMap.mp taken
      exact List.mem_of_getElem? ((kept.threads.returned r returned).2.2.symm.trans out)
    · obtain ⟨rest, whole⟩ := copy
      have whole : snap ++ rest = st.subs := whole
      rwa [← whole, List.getElem?_append_left short]
  · intro id small
    by_contra unused
    rw [← List.mem_append] at unused
    obtain ⟨u, pending⟩ := tracks.sound.ids.workers.has id ⟨small, unused⟩
    have idle := (tracks.quiet_idle quiet u).2
    have : (status u).pending = some id := pending
    rw [idle] at this
    cases this

def ring1024 : Ringbuf.Ring Event where
  data := fun _ => none
  seq := id
  capacity := 1024
  mask := 1023
  enqueuePos := 0
  dequeuePos := 0

/-- One subscriber and one event. -/
theorem delivered_once : ∃ st : State, st.issued = 1 ∧ st.delivered = [(0, 0)] ∧ st.ring.queue = [] ∧
    ∀ id < st.issued, id ∈ st.ring.pushes.map Event.id ∨ id ∈ st.refused := by
  obtain ⟨labels, st, run, issued, delivered, quiet⟩ :
      ∃ (labels : List Label) (st : State), (machine.restrict Good).Run (start ring1024) labels st ∧ st.issued = 1 ∧
        st.delivered = [(0, 0)] ∧ Quiet st := by
    refine ⟨.subscribe (-1) :: .publish 0 .task true :: (List.replicate 5 (.ring 0) ++ List.replicate 2 (.go 0 true) ++
      List.replicate 5 (.ring 0) ++ List.replicate 5 (.go 0 true) ++ List.replicate 2 (.ring 0) ++
      List.replicate 2 (.go 0 true) ++ List.replicate 2 (.ring 0) ++ [.go 0 true]), _,
      Machine.run_restrict_of_checked rfl, rfl, rfl, ?_⟩
    intro t
    cases t with
    | zero => rfl
    | succ t => rfl
  obtain ⟨empty, -, -, -, accounted, -⟩ := delivered_of_run rfl run quiet
  exact ⟨st, issued, delivered, empty, accounted⟩

end CognitiveOs.Runtime.EventBus
