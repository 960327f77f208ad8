import CognitiveOs.Runtime.EventBus.Delivery

/-!
# A burst that leaves an event behind

A handler that publishes an event each time it is called keeps a `drain` busy until its bound, and the
event published last stays in the ring after all calls have returned.
-/

namespace CognitiveOs.Runtime.EventBus

open Foundation Infra

/-- A ring of 1024 slots that holds the positions from `p` to `e`, with no call under way. -/
structure Slots (p e : Nat) (ring : Ringbuf.State Event) : Prop where
  mask : ring.ring.mask = 1023
  enqueuePos : ring.ring.enqueuePos = e
  dequeuePos : ring.ring.dequeuePos = p
  pushes : ring.pushes.length = e
  pops : ring.pops = p
  ready : ∀ j, p ≤ j → j < e → ring.ring.seq (j % 1024) = j + 1
  filled : ∀ j, p ≤ j → j < e → ∃ ev, ring.ring.data (j % 1024) = some ev
  free : ∀ j, e ≤ j → j < p + 1024 → ring.ring.seq (j % 1024) = j

variable {p e t k : Nat} {ring ring' : Ringbuf.State Event} {ev : Event}

theorem Slots.cell (slots : Slots p e ring) (pos : Nat) : ring.cell pos = pos % 1024 := by
  unfold Ringbuf.State.cell
  rw [slots.mask]
  exact Nat.and_two_pow_sub_one_eq_mod pos 10

theorem diff_self (n : Nat) : Ringbuf.diff n n = 0 := by
  simp [Ringbuf.diff]

theorem word_small {n : Nat} (small : n < Ringbuf.wordSize) : Ringbuf.word n = n :=
  Nat.mod_eq_of_lt small

theorem Slots.push (slots : Slots p e ring) (room : e < p + 1024) (below : p ≤ e) (small : e + 1 < Ringbuf.wordSize)
    (calls : ring.pc t = .pushPos ev) :
    ∃ ring', Machine.exec Ringbuf.step ring (List.replicate 5 (.step t)) = some ring' ∧ Slots p (e + 1) ring' ∧
      ring'.pc t = .done (.pushed 1) := by
  have here : ring.ring.seq (ring.cell ring.ring.enqueuePos) = ring.ring.enqueuePos := by
    rw [slots.enqueuePos, slots.cell, slots.free e (Nat.le_refl e) room]
  have same : Ringbuf.diff (ring.ring.seq (ring.cell ring.ring.enqueuePos)) ring.ring.enqueuePos = 0 := by
    rw [here, diff_self]
  obtain ⟨ring', ran, mask, enqueuePos, dequeuePos, pushes, pops, seq, data, pc⟩ :
      ∃ ring', Machine.exec Ringbuf.step ring (List.replicate 5 (.step t)) = some ring' ∧
        ring'.ring.mask = ring.ring.mask ∧ ring'.ring.enqueuePos = Ringbuf.word (ring.ring.enqueuePos + 1) ∧
        ring'.ring.dequeuePos = ring.ring.dequeuePos ∧ ring'.pushes = ring.pushes ++ [ev] ∧ ring'.pops = ring.pops ∧
        ring'.ring.seq =
          Function.update ring.ring.seq (ring.cell ring.ring.enqueuePos) (Ringbuf.word (ring.ring.enqueuePos + 1)) ∧
        ring'.ring.data = Function.update ring.ring.data (ring.cell ring.ring.enqueuePos) (some ev) ∧
        ring'.pc t = .done (.pushed 1) := by
    unfold Ringbuf.State.cell at same ⊢
    simp only [List.replicate, Machine.exec, Ringbuf.step, Ringbuf.advance, Ringbuf.State.goto, Ringbuf.State.cell, calls,
      Function.update_self, Function.update_idem, Option.bind_some, same, if_true, Option.some.injEq, exists_eq_left',
      and_self]
  rw [slots.enqueuePos, word_small small] at enqueuePos seq
  rw [slots.cell] at seq data
  rw [slots.enqueuePos] at data
  refine ⟨ring', ran, ⟨mask.trans slots.mask, enqueuePos, dequeuePos.trans slots.dequeuePos, ?_, pops.trans slots.pops,
    ?_, ?_, ?_⟩, pc⟩
  · rw [pushes, List.length_append, slots.pushes]
    rfl
  · intro j low high
    rw [seq]
    by_cases last : j = e
    · rw [last, Function.update_self]
    · rw [Function.update_of_ne (by omega)]
      exact slots.ready j low (by omega)
  · intro j low high
    rw [data]
    by_cases last : j = e
    · rw [last, Function.update_self]
      exact ⟨ev, rfl⟩
    · rw [Function.update_of_ne (by omega)]
      exact slots.filled j low (by omega)
  · intro j low high
    rw [seq, Function.update_of_ne (by omega)]
    exact slots.free j (by omega) high

theorem Slots.pop (slots : Slots p e ring) (some' : p < e) (few : e ≤ p + 1024) (small : p + 1024 < Ringbuf.wordSize)
    (calls : ring.pc t = .popPos) :
    ∃ ring' ev, Machine.exec Ringbuf.step ring (List.replicate 5 (.step t)) = some ring' ∧ Slots (p + 1) e ring' ∧
      ring'.pc t = .done (.popped 1 (some ev)) := by
  obtain ⟨ev, out⟩ := slots.filled p (Nat.le_refl p) some'
  have same : Ringbuf.diff (ring.ring.seq (ring.cell ring.ring.dequeuePos)) (Ringbuf.word (ring.ring.dequeuePos + 1)) =
      0 := by
    rw [slots.dequeuePos, slots.cell, slots.ready p (Nat.le_refl p) some', word_small (by omega), diff_self]
  obtain ⟨ring', ran, mask, enqueuePos, dequeuePos, pushes, pops, seq, data, pc⟩ :
      ∃ ring', Machine.exec Ringbuf.step ring (List.replicate 5 (.step t)) = some ring' ∧
        ring'.ring.mask = ring.ring.mask ∧ ring'.ring.enqueuePos = ring.ring.enqueuePos ∧
        ring'.ring.dequeuePos = Ringbuf.word (ring.ring.dequeuePos + 1) ∧ ring'.pushes = ring.pushes ∧
        ring'.pops = ring.pops + 1 ∧
        ring'.ring.seq =
          Function.update ring.ring.seq (ring.cell ring.ring.dequeuePos)
            (Ringbuf.word (ring.ring.dequeuePos + ring.ring.mask + 1)) ∧
        ring'.ring.data = ring.ring.data ∧
        ring'.pc t = .done (.popped 1 (ring.ring.data (ring.cell ring.ring.dequeuePos))) := by
    unfold Ringbuf.State.cell at same ⊢
    simp only [List.replicate, Machine.exec, Ringbuf.step, Ringbuf.advance, Ringbuf.State.goto, Ringbuf.State.cell, calls,
      Function.update_self, Function.update_idem, Option.bind_some, same, if_true, Option.some.injEq, exists_eq_left',
      and_self]
  rw [slots.dequeuePos, word_small (by omega)] at dequeuePos
  rw [slots.dequeuePos, slots.mask, word_small (by omega), slots.cell] at seq
  rw [slots.dequeuePos, slots.cell, out] at pc
  refine ⟨ring', ev, ran, ⟨mask.trans slots.mask, enqueuePos.trans slots.enqueuePos, dequeuePos, ?_, ?_, ?_, ?_, ?_⟩, pc⟩
  · rw [pushes, slots.pushes]
  · rw [pops, slots.pops]
  · intro j low high
    rw [seq, Function.update_of_ne (by omega)]
    exact slots.ready j (by omega) high
  · intro j low high
    rw [data]
    exact slots.filled j (by omega) high
  · intro j low high
    rw [seq]
    by_cases last : j = p + 1024
    · rw [last, Nat.add_mod_right, Function.update_self]
    · rw [Function.update_of_ne (by omega)]
      exact slots.free j low (by omega)

theorem run_ring {n : Nat} {st : State} (ran : Machine.exec Ringbuf.step st.ring (List.replicate n (.step t)) = some ring) :
    machine.Run st (List.replicate n (.ring t)) { st with ring := ring } := by
  induction n generalizing st with
  | zero =>
    obtain rfl := Option.some.inj ran
    exact Machine.Run.start st
  | succ n ih =>
    obtain ⟨next, taken, rest⟩ := Option.bind_eq_some_iff.mp ran
    have first : step st (.ring t) = some { st with ring := next } := congrArg (Option.map _) taken
    have later : machine.Run { st with ring := next } _ { st with ring := ring } := ih rest
    exact Machine.Run.cons first later

/-- Only thread `0` is in a call of the bus, and there is one subscription, which takes everything. -/
structure Storm (flag : Bool) (p e : Nat) (frames : List Frame) (pc : Ringbuf.Pc Event) (st : State) : Prop where
  slots : Slots p e st.ring
  subs : st.subs = [-1]
  draining : st.draining = flag
  frames : st.stack = Function.update (fun _ => []) 0 frames
  pc : st.ring.pc 0 = pc

namespace Storm

variable {flag : Bool} {frames : List Frame} {pc : Ringbuf.Pc Event} {st : State}

theorem stack (storm : Storm flag p e frames pc st) : st.stack 0 = frames := by
  rw [storm.frames, Function.update_self]

theorem goto (storm : Storm flag p e frames pc st) (frames' : List Frame) : Storm flag p e frames' pc (st.goto 0 frames') where
  slots := storm.slots
  subs := storm.subs
  draining := storm.draining
  frames := by
    show Function.update st.stack 0 frames' = _
    rw [storm.frames, Function.update_idem]
  pc := storm.pc

theorem enter (storm : Storm flag p e frames pc st) (frames' : List Frame) (pc' : Ringbuf.Pc Event) :
    Storm flag p e frames' pc' (st.enter 0 pc' frames') where
  slots := ⟨storm.slots.mask, storm.slots.enqueuePos, storm.slots.dequeuePos, storm.slots.pushes, storm.slots.pops,
    storm.slots.ready, storm.slots.filled, storm.slots.free⟩
  subs := storm.subs
  draining := storm.draining
  frames := (storm.goto frames').frames
  pc := by
    show Function.update st.ring.pc 0 pc' 0 = pc'
    exact Function.update_self _ _ _

theorem same (storm : Storm flag p e frames pc st) (st' : State) (ring : st'.ring = st.ring) (subs : st'.subs = st.subs)
    (draining : st'.draining = st.draining) (stack : st'.stack = st.stack) : Storm flag p e frames pc st' where
  slots := ring ▸ storm.slots
  subs := subs.trans storm.subs
  draining := draining.trans storm.draining
  frames := stack.trans storm.frames
  pc := ring ▸ storm.pc

variable {rest : List Frame}

theorem publishes (storm : Storm flag p e (.handling k ev [-1] 0 :: rest) .idle st) :
    ∃ st' ev', machine st (.publish 0 .task true) st' ∧
      Storm flag p e (.pushing ev' :: .handling k ev [-1] 0 :: rest) (.pushPos ev') st' := by
  refine ⟨_, { type := .task, id := st.issued, since := st.subs.length },
    (show step st (.publish 0 .task true) = some (EventBus.publish st 0 .task true) by simp only [step, storm.stack]), ?_⟩
  simp only [EventBus.publish, if_true, storm.stack]
  exact (storm.same { st with issued := st.issued + 1 } rfl rfl rfl rfl).enter _ _

theorem pushed (storm : Storm flag p e (.pushing ev :: rest) (.done (.pushed 1)) st) :
    ∃ st', machine st (.go 0 true) st' ∧ Storm flag p e (.acquire 0 :: rest) .idle st' := by
  refine ⟨st.enter 0 .idle (.acquire 0 :: rest), ?_, storm.enter _ _⟩
  show advance st 0 true = _
  simp only [advance, storm.stack, storm.pc, if_true]

theorem leaves (storm : Storm true p e (.acquire k :: rest) .idle st) :
    ∃ st', machine st (.go 0 true) st' ∧ Storm true p e rest .idle st' := by
  refine ⟨st.goto 0 rest, ?_, storm.goto _⟩
  show advance st 0 true = _
  simp only [advance, storm.stack, storm.pc, storm.draining, if_true]

theorem acquires (storm : Storm false p e (.acquire k :: rest) .idle st) :
    ∃ st', machine st (.go 0 true) st' ∧ Storm true p e (.popping k :: rest) .popPos st' := by
  have entered := storm.enter (.popping k :: rest) .popPos
  refine ⟨{ st.enter 0 .popPos (.popping k :: rest) with draining := true }, ?_,
    ⟨entered.slots, entered.subs, rfl, entered.frames, entered.pc⟩⟩
  show advance st 0 true = _
  simp [advance, storm.stack, storm.pc, storm.draining]

theorem releases (storm : Storm flag p e (.release k :: rest) .idle st) (last : maxDispatch ≤ k) :
    ∃ st', machine st (.go 0 true) st' ∧ Storm false p e rest .idle st' := by
  have gone := storm.goto rest
  refine ⟨{ st.goto 0 rest with draining := false }, ?_, ⟨gone.slots, gone.subs, rfl, gone.frames, gone.pc⟩⟩
  show advance st 0 true = _
  simp [advance, storm.stack, storm.pc, last]

theorem popped (storm : Storm flag p e (.popping k :: rest) (.done (.popped 1 (some ev))) st) :
    ∃ st', machine st (.go 0 true) st' ∧ Storm flag p e (.snapshot k ev :: rest) .idle st' := by
  refine ⟨st.enter 0 .idle (.snapshot k ev :: rest), ?_, storm.enter _ _⟩
  show advance st 0 true = _
  simp only [advance, storm.stack, storm.pc, if_true, Option.map_some]

theorem copied (storm : Storm flag p e (.snapshot k ev :: rest) .idle st) :
    ∃ st', machine st (.go 0 true) st' ∧ Storm flag p e (.looking k ev [-1] 0 :: rest) .idle st' := by
  refine ⟨st.goto 0 (.looking k ev [-1] 0 :: rest), ?_, storm.goto _⟩
  show advance st 0 true = _
  simp [advance, storm.stack, storm.pc, storm.subs]

theorem handled (storm : Storm flag p e (.looking k ev [-1] 0 :: rest) .idle st) :
    ∃ st', machine st (.go 0 true) st' ∧ Storm flag p e (.handling k ev [-1] 0 :: rest) .idle st' := by
  refine ⟨{ st.goto 0 (.handling k ev [-1] 0 :: rest) with delivered := st.delivered ++ [(ev.id, 0)] }, ?_,
    (storm.goto _).same _ rfl rfl rfl rfl⟩
  show advance st 0 true = _
  have takes : Takes (-1) ev := Or.inr rfl
  simp [advance, storm.stack, storm.pc, takes]

theorem returns (storm : Storm flag p e (.handling k ev [-1] 0 :: rest) .idle st) :
    ∃ st', machine st (.go 0 true) st' ∧ Storm flag p e (.looking k ev [-1] 1 :: rest) .idle st' := by
  refine ⟨st.goto 0 (.looking k ev [-1] 1 :: rest), ?_, storm.goto _⟩
  show advance st 0 true = _
  simp only [advance, storm.stack, storm.pc]

theorem continues (storm : Storm flag p e (.looking k ev [-1] 1 :: rest) .idle st) (more : k + 1 < maxDispatch) :
    ∃ st', machine st (.go 0 true) st' ∧ Storm flag p e (.popping (k + 1) :: rest) .popPos st' := by
  refine ⟨_, ?_, (storm.same { st with finished := st.finished ++ [(ev, [-1])] } rfl rfl rfl rfl).enter _ _⟩
  show advance st 0 true = _
  have below : ¬maxDispatch ≤ k + 1 := by omega
  simp [advance, storm.stack, storm.pc, State.dispatched, below]

theorem stops (storm : Storm flag p e (.looking k ev [-1] 1 :: rest) .idle st) (last : maxDispatch ≤ k + 1) :
    ∃ st', machine st (.go 0 true) st' ∧ Storm flag p e (.release (k + 1) :: rest) .idle st' := by
  refine ⟨_, ?_, (storm.same { st with finished := st.finished ++ [(ev, [-1])] } rfl rfl rfl rfl).goto _⟩
  show advance st 0 true = _
  simp [advance, storm.stack, storm.pc, State.dispatched, last]

theorem serves (storm : Storm true p (p + 1) (.popping k :: rest) .popPos st) (small : p + 1024 < Ringbuf.wordSize) :
    ∃ labels st' ev, machine.Run st labels st' ∧ Storm true (p + 1) (p + 2) (.looking k ev [-1] 1 :: rest) .idle st' := by
  obtain ⟨ring₁, ev, ran₁, slots₁, pc₁⟩ := storm.slots.pop (Nat.lt_succ_self p) (by omega) small storm.pc
  have storm₁ : Storm true (p + 1) (p + 1) (.popping k :: rest) (.done (.popped 1 (some ev))) { st with ring := ring₁ } :=
    ⟨slots₁, storm.subs, storm.draining, storm.frames, pc₁⟩
  obtain ⟨st₂, go₂, storm₂⟩ := storm₁.popped
  obtain ⟨st₃, go₃, storm₃⟩ := storm₂.copied
  obtain ⟨st₄, go₄, storm₄⟩ := storm₃.handled
  obtain ⟨st₅, ev', go₅, storm₅⟩ := storm₄.publishes
  obtain ⟨ring₆, ran₆, slots₆, pc₆⟩ := storm₅.slots.push (by omega) (Nat.le_refl _) (by omega) storm₅.pc
  have storm₆ : Storm true (p + 1) (p + 2) (.pushing ev' :: .handling k ev [-1] 0 :: rest) (.done (.pushed 1))
      { st₅ with ring := ring₆ } :=
    ⟨slots₆, storm₅.subs, storm₅.draining, storm₅.frames, pc₆⟩
  obtain ⟨st₇, go₇, storm₇⟩ := storm₆.pushed
  obtain ⟨st₈, go₈, storm₈⟩ := storm₇.leaves
  obtain ⟨st₉, go₉, storm₉⟩ := storm₈.returns
  have first := (((run_ring ran₁).step go₂).step go₃).step go₄
  have second := (((first.step go₅).trans (run_ring ran₆)).step go₇).step go₈
  exact ⟨_, st₉, ev, second.step go₉, storm₉⟩

end Storm

theorem slots_start : Slots 0 0 (Ringbuf.initial ring1024) where
  mask := rfl
  enqueuePos := rfl
  dequeuePos := rfl
  pushes := rfl
  pops := rfl
  ready j _ high := absurd high (Nat.not_lt_zero j)
  filled j _ high := absurd high (Nat.not_lt_zero j)
  free j _ high := Nat.mod_eq_of_lt (by omega)

theorem storm_starts :
    ∃ labels st, machine.Run (start ring1024) labels st ∧ Storm true 0 1 [.popping 0] .popPos st := by
  have quiet : Storm false 0 0 [] .idle { start ring1024 with subs := [-1], issued := 1 } :=
    ⟨slots_start, rfl, rfl, (Function.update_eq_self 0 _).symm, rfl⟩
  have storm₁ := quiet.enter [.pushing ⟨.task, 0, 1⟩] (.pushPos ⟨.task, 0, 1⟩)
  have called : machine { start ring1024 with subs := [-1] } (.publish 0 .task true) _ :=
    show step _ _ = some (State.enter { start ring1024 with subs := [-1], issued := 1 } 0 (.pushPos ⟨.task, 0, 1⟩)
      [.pushing ⟨.task, 0, 1⟩]) from rfl
  have subscribed : machine (start ring1024) (.subscribe (-1)) _ :=
    show step _ _ = some { start ring1024 with subs := [-1] } from rfl
  obtain ⟨ring, ran, slots, pc⟩ := storm₁.slots.push (by omega) (Nat.le_refl 0) (by decide) storm₁.pc
  have storm₂ : Storm false 0 1 [.pushing ⟨.task, 0, 1⟩] (.done (.pushed 1)) { (State.enter
      { start ring1024 with subs := [-1], issued := 1 } 0 (.pushPos ⟨.task, 0, 1⟩) [.pushing ⟨.task, 0, 1⟩]) with
        ring := ring } :=
    ⟨slots, rfl, rfl, storm₁.frames, pc⟩
  obtain ⟨st₃, go₃, storm₃⟩ := storm₂.pushed
  obtain ⟨st₄, go₄, storm₄⟩ := storm₃.acquires
  have first := ((Machine.Run.start (start ring1024)).step subscribed).step called
  exact ⟨_, st₄, ((first.trans (run_ring ran)).step go₃).step go₄, storm₄⟩

theorem storm_lasts (n : Nat) (few : n < maxDispatch) :
    ∃ labels st, machine.Run (start ring1024) labels st ∧ Storm true n (n + 1) [.popping n] .popPos st := by
  induction n with
  | zero => exact storm_starts
  | succ n ih =>
    obtain ⟨labels, st, run, storm⟩ := ih (Nat.lt_of_succ_lt few)
    have small : n + 1024 < Ringbuf.wordSize := by
      simp only [maxDispatch] at few
      simp only [Ringbuf.wordSize]
      omega
    obtain ⟨more, st₁, ev, served, storm₁⟩ := storm.serves small
    obtain ⟨st₂, go₂, storm₂⟩ := storm₁.continues few
    exact ⟨_, st₂, (run.trans served).step go₂, storm₂⟩

/-- The last of the events that a handler publishes stays in the ring; and a call for which no memory
is left is neither accepted nor counted. -/
theorem stranded :
    (∃ labels st, machine.Run (start ring1024) labels st ∧ Quiet st ∧ st.draining = false ∧ st.ring.queue ≠ []) ∧
      ∃ labels st, machine.Run (start ring1024) labels st ∧ Quiet st ∧ st.issued = 1 ∧ st.ring.pushes = [] ∧
        st.refused = [] ∧ st.dropped = 0 := by
  constructor
  · obtain ⟨labels, st, run, storm⟩ := storm_lasts 4095 (by decide)
    obtain ⟨more, st₁, ev, served, storm₁⟩ := storm.serves (by decide)
    obtain ⟨st₂, go₂, storm₂⟩ := storm₁.stops (by decide)
    obtain ⟨st₃, go₃, storm₃⟩ := storm₂.releases (by decide)
    refine ⟨_, st₃, ((run.trans served).step go₂).step go₃, fun t => ?_, storm₃.draining, ?_⟩
    · rw [storm₃.frames, Function.update_apply]
      split <;> rfl
    · have length : st₃.ring.queue.length = 4095 + 2 - (4095 + 1) := by
        rw [Ringbuf.State.queue, List.length_drop, storm₃.slots.pushes, storm₃.slots.pops]
      intro none
      rw [none] at length
      cases length
  · exact ⟨[.publish 0 .task false], _, Machine.Run.single (show step _ _ = some _ from rfl), fun _ => rfl, rfl, rfl, rfl,
      rfl⟩

end CognitiveOs.Runtime.EventBus
