import CognitiveOs.Infra.Ringbuf.Kept

/-!
# The ring is a queue

A push takes effect when its compare-and-swap claims a position, a pop likewise; between them lies a
bounded queue of items. What a pop returns later is what it took off then. A call that fails found the
slot of its position in use, which may be the doing of another call that is not finished.
-/

namespace CognitiveOs.Infra.Ringbuf

open Foundation

variable {Item : Type} {st st' : State Item} {s s' : Turns} {capacity : Nat}

/-- What a step does to the queue: nothing, or the push of a thread adds its item, or a pop of a
thread takes the first one; both remember the position they claimed. -/
def OnQueue (capacity : Nat) (st st' : State Item) : Prop :=
  st'.pushes = st.pushes ∧ st'.pops = st.pops ∨
  (∃ t item, (st'.pc t).filling = some st.pushes.length ∧ st'.pushes = st.pushes ++ [item] ∧ st'.pops = st.pops ∧
    st'.queue = st.queue ++ [item] ∧ st.queue.length < capacity) ∨
  (∃ t item, (st'.pc t).emptying = some st.pops ∧ st'.pushes = st.pushes ∧ st'.pops = st.pops + 1 ∧
    st.queue = item :: st'.queue)

/-- A state of the ring that stands for a queue, and what the next step of a thread makes of it. -/
structure Linearizable (capacity : Nat) (st : State Item) : Prop where
  /-- a pop returns the item of the push that claimed its position -/
  origin : ∀ r ∈ st.returned, r.1 < st.pops ∧ ∃ item, r.2 = some item ∧ st.pushes[r.1]? = some item
  /-- no position is returned twice -/
  once : (st.returned.map Prod.fst).Nodup
  ordered : st.pops ≤ st.pushes.length
  bounded : st.queue.length ≤ capacity
  acts : ∀ label st', Prompt st label → step st label = some st' → OnQueue capacity st st'
  /-- a push that fails found the queue full, or the pop one round earlier has not released the slot -/
  full : ∀ t st', Prompt st (.step t) → step st (.step t) = some st' → st'.pc t = .done (.pushed 0) →
    st.queue.length = capacity ∨ ∃ u k, (st.pc u).emptying = some k ∧ k + capacity = st.pushes.length
  /-- a pop that fails found the queue empty, or the push of its position has not published the item -/
  empty : ∀ t st', Prompt st (.step t) → step st (.step t) = some st' → st'.pc t = .done (.popped 0 none) →
    st.queue = [] ∨ ∃ u, (st.pc u).filling = some st.pops

theorem goto_pc (st : State Item) (t : Nat) (pc : Pc Item) : (st.goto t pc).pc t = pc := by
  simp [State.goto]

theorem fails {t : Nat} {result : Result Item} (taken : advance st t = some st') (failed : st'.pc t = .done result)
    (failing : result = .pushed 0 ∨ result = .popped 0 none) :
    (result = .pushed 0 ∧ ∃ item pos k, st.pc t = .pushSeq item pos k ∧ diff (st.ring.seq (st.cell pos)) pos < 0) ∨
      result = .popped 0 none ∧
        ∃ pos k, st.pc t = .popSeq pos k ∧ diff (st.ring.seq (st.cell pos)) (word (pos + 1)) < 0 := by
  unfold advance at taken
  cases here : st.pc t with
  | pushSeq item pos k =>
    simp only [here, Option.some.injEq] at taken
    subst taken
    rw [goto_pc] at failed
    split at failed
    · cases failed
    · split at failed
      · rename_i behind
        cases failed
        exact .inl ⟨rfl, item, pos, k, rfl, behind⟩
      · cases failed
  | popSeq pos k =>
    simp only [here, Option.some.injEq] at taken
    subst taken
    rw [goto_pc] at failed
    split at failed
    · cases failed
    · split at failed
      · rename_i behind
        cases failed
        exact .inr ⟨rfl, pos, k, rfl, behind⟩
      · cases failed
  | idle => simp [here] at taken
  | done result => simp [here] at taken
  | pushCas item pos k =>
    simp only [here] at taken
    split at taken <;> obtain rfl := Option.some.inj taken <;> rcases failing with rfl | rfl <;>
      simp [State.goto] at failed
  | popCas pos k =>
    simp only [here] at taken
    split at taken <;> obtain rfl := Option.some.inj taken <;> rcases failing with rfl | rfl <;>
      simp [State.goto] at failed
  | _ =>
    simp only [here, Option.some.injEq] at taken
    subst taken
    rcases failing with rfl | rfl <;> simp [State.goto] at failed

theorem push_fails {t : Nat} (taken : advance st t = some st') (failed : st'.pc t = .done (.pushed 0)) :
    ∃ item pos k, st.pc t = .pushSeq item pos k ∧ diff (st.ring.seq (st.cell pos)) pos < 0 := by
  rcases fails taken failed (.inl rfl) with ⟨-, found⟩ | ⟨other, -⟩
  · exact found
  · cases other

theorem pop_fails {t : Nat} (taken : advance st t = some st') (failed : st'.pc t = .done (.popped 0 none)) :
    ∃ pos k, st.pc t = .popSeq pos k ∧ diff (st.ring.seq (st.cell pos)) (word (pos + 1)) < 0 := by
  rcases fails taken failed (.inr rfl) with ⟨other, -⟩ | ⟨-, found⟩
  · cases other
  · exact found

namespace Kept

variable (kept : Kept st s)
include kept

theorem queue_length : st.queue.length + s.emptied = s.filled := by
  have ordered := kept.sound.ordered
  have filled := kept.words.filled
  have emptied := kept.words.emptied
  rw [State.queue, List.length_drop]
  omega

theorem onQueue (act : Acts st s st' s') : OnQueue st.ring.capacity st st' := by
  have ordered := kept.sound.ordered
  have bounded := kept.sound.bounded
  have filled := kept.words.filled
  have emptied := kept.words.emptied
  have length := kept.queue_length
  cases act with
  | moves t pc fits filling emptying => exact Or.inl ⟨rfl, rfl⟩
  | stores t k item here => exact Or.inl ⟨rfl, rfl⟩
  | fills t k item here => exact Or.inl ⟨rfl, rfl⟩
  | empties t k out here => exact Or.inl ⟨rfl, rfl⟩
  | claimsFill t item filling emptying due =>
    refine Or.inr (Or.inl ⟨t, item, ?_, rfl, rfl, ?_, ?_⟩)
    · rw [← filled]
      exact congrArg Pc.filling (Function.update_self t _ st.pc)
    · exact List.drop_append_of_le_length (show st.pops ≤ st.pushes.length by omega)
    · have room := (kept.sound.claimFill due).bounded
      have : s.filled + 1 ≤ s.emptied + st.ring.capacity := room
      omega
  | claimsEmpty t filling emptying due =>
    have some : s.emptied < s.filled := (kept.sound.claimEmpty due).ordered
    have inside : st.pops < st.pushes.length := by omega
    refine Or.inr (Or.inr ⟨t, st.pushes[st.pops], ?_, rfl, congrArg (· + 1) emptied, ?_⟩)
    · rw [← emptied]
      exact congrArg Pc.emptying (Function.update_self t _ st.pc)
    · show st.pushes.drop st.pops = _ :: st.pushes.drop (s.emptied + 1)
      rw [emptied]
      exact List.drop_eq_getElem_cons inside

theorem full {t : Nat} (prompt : Prompt st (.step t)) (taken : advance st t = some st')
    (failed : st'.pc t = .done (.pushed 0)) :
    st.queue.length = st.ring.capacity ∨
      ∃ u k, (st.pc u).emptying = some k ∧ k + st.ring.capacity = st.pushes.length := by
  obtain ⟨item, pos, k, here, behind⟩ := push_fails taken failed
  have fits := kept.threads.fits t
  have filled := kept.words.filled
  have length := kept.queue_length
  simp only [Prompt, Pc.Prompt, here] at prompt fits
  obtain ⟨rfl, claimed⟩ := fits
  rw [kept.diff_push claimed (by omega)] at behind
  obtain ⟨-, all | ⟨p, round, left, turn⟩⟩ := kept.sound.filler_held claimed (by omega)
  · exact Or.inl (by omega)
  · obtain ⟨u, theirs⟩ := kept.threads.emptiers.has p ⟨left, turn⟩
    exact Or.inr ⟨u, p, theirs, by omega⟩

theorem none_ready {k : Nat} (claimed : k ≤ s.emptied) (prompt : s.emptied + st.ring.capacity < k + 9223372036854775808)
    (behind : diff (st.ring.seq (st.cell (word k))) (word (word k + 1)) < 0) :
    k = s.emptied ∧ (st.queue = [] ∨ ∃ u, (st.pc u).filling = some st.pops) := by
  have emptied := kept.words.emptied
  have length := kept.queue_length
  rw [kept.diff_pop claimed prompt] at behind
  obtain ⟨same, none | ⟨some, turn⟩⟩ := kept.sound.emptier_held claimed (by omega)
  · exact ⟨same, Or.inl (List.eq_nil_of_length_eq_zero (by omega))⟩
  · obtain ⟨u, theirs⟩ := kept.threads.fillers.has s.emptied ⟨some, turn⟩
    exact ⟨same, Or.inr ⟨u, emptied ▸ theirs⟩⟩

theorem empty {t : Nat} (prompt : Prompt st (.step t)) (taken : advance st t = some st')
    (failed : st'.pc t = .done (.popped 0 none)) : st.queue = [] ∨ ∃ u, (st.pc u).filling = some st.pops := by
  obtain ⟨pos, k, here, behind⟩ := pop_fails taken failed
  have fits := kept.threads.fits t
  have emptied := kept.words.emptied
  simp only [Prompt, Pc.Prompt, here] at prompt fits
  obtain ⟨rfl, claimed⟩ := fits
  exact (kept.none_ready claimed (by omega) behind).2

theorem linearizable : Linearizable st.ring.capacity st where
  origin r member := by
    obtain ⟨left, -, read⟩ := kept.threads.returned r member
    have ordered := kept.sound.ordered
    have filled := kept.words.filled
    have emptied := kept.words.emptied
    have inside : r.1 < st.pushes.length := by omega
    rw [List.getElem?_eq_getElem inside] at read ⊢
    exact ⟨by omega, _, read, rfl⟩
  once := kept.threads.once
  ordered := by
    have ordered := kept.sound.ordered
    have filled := kept.words.filled
    have emptied := kept.words.emptied
    omega
  bounded := by
    have bounded := kept.sound.bounded
    have length := kept.queue_length
    omega
  acts label st' prompt taken := by
    obtain ⟨s', act⟩ := kept.step_acts prompt taken
    exact kept.onQueue act
  full _ _ prompt taken failed := kept.full prompt taken failed
  empty _ _ prompt taken failed := kept.empty prompt taken failed

end Kept

/-- In every run in which no thread is overtaken by half a word of positions, the ring is a queue. -/
theorem linearizable_of_run {r : Ring Item} (made : ringbufNew capacity = some r) {labels : List (Label Item)}
    (run : (machine.restrict Prompt).Run (initial r) labels st) : Linearizable capacity st := by
  obtain ⟨s, kept, rfl⟩ := kept_of_run made run
  exact kept.linearizable

def twoSlots : Ring Nat where
  data := fun _ => none
  seq := id
  capacity := 2
  mask := 1
  enqueuePos := 0
  dequeuePos := 0

theorem linearizable_of_push : ∃ st, (machine.restrict Prompt).Run (initial twoSlots)
    [.push 0 (some 5), .step 0, .step 0, .step 0, .step 0, .step 0] st ∧ st.queue = [5] ∧ Linearizable 2 st := by
  have ran : (Machine.exec (fun st label => if Prompt st label then step st label else none) (initial twoSlots)
      [.push 0 (some 5), .step 0, .step 0, .step 0, .step 0, .step 0]).map State.queue = some [5] := by
    decide
  obtain ⟨st, done, holds⟩ := Option.map_eq_some_iff.mp ran
  have run : (machine.restrict Prompt).Run (initial twoSlots)
      [.push 0 (some 5), .step 0, .step 0, .step 0, .step 0, .step 0] st := Machine.run_restrict_of_checked done
  exact ⟨st, run, holds, linearizable_of_run rfl run⟩

/-! ### Calls that fail beside an unfinished one, and a thread overtaken by a whole word -/

theorem exists_run {Q : State Item → Prop} (labels : List (Label Item))
    (ran : ∃ st', Machine.exec step st labels = some st' ∧ Q st') :
    ∃ labels st', machine.Run st labels st' ∧ Q st' := by
  obtain ⟨st', done, holds⟩ := ran
  exact ⟨labels, st', Machine.run_ofPartial_of_exec done, holds⟩

theorem lone_push {t : Nat} (item : Item) (idle : st.pc t = .idle)
    (free : st.ring.seq (st.cell st.ring.enqueuePos) = st.ring.enqueuePos) :
    ∃ labels st', machine.Run st labels st' ∧ st'.pc = st.pc ∧ st'.ring.capacity = st.ring.capacity ∧
      st'.ring.mask = st.ring.mask ∧ st'.ring.dequeuePos = st.ring.dequeuePos ∧ st'.pops = st.pops ∧
      st'.ring.enqueuePos = word (st.ring.enqueuePos + 1) ∧ st'.pushes = st.pushes ++ [item] ∧
      st'.ring.seq =
        Function.update st.ring.seq (st.cell st.ring.enqueuePos) (word (st.ring.enqueuePos + 1)) := by
  have same : diff (st.ring.seq (st.cell st.ring.enqueuePos)) st.ring.enqueuePos = 0 := by
    rw [free]
    simp [diff]
  refine exists_run [.push t (some item), .step t, .step t, .step t, .step t, .step t, .back t] ?_
  unfold State.cell at same ⊢
  simp only [Machine.exec, step, advance, State.goto, State.cell, idle, Function.update_self, Function.update_idem,
    Option.bind_some, same, if_true, Option.some.injEq, exists_eq_left', and_self]
  simp [← idle]

theorem lone_pop {t : Nat} (idle : st.pc t = .idle)
    (ready : st.ring.seq (st.cell st.ring.dequeuePos) = word (st.ring.dequeuePos + 1)) :
    ∃ labels st', machine.Run st labels st' ∧ st'.pc = st.pc ∧ st'.ring.capacity = st.ring.capacity ∧
      st'.ring.mask = st.ring.mask ∧ st'.ring.enqueuePos = st.ring.enqueuePos ∧ st'.pushes = st.pushes ∧
      st'.ring.dequeuePos = word (st.ring.dequeuePos + 1) ∧ st'.pops = st.pops + 1 ∧
      st'.ring.seq =
        Function.update st.ring.seq (st.cell st.ring.dequeuePos)
          (word (st.ring.dequeuePos + st.ring.mask + 1)) := by
  have same : diff (st.ring.seq (st.cell st.ring.dequeuePos)) (word (st.ring.dequeuePos + 1)) = 0 := by
    rw [ready]
    simp [diff]
  refine exists_run [.pop t, .step t, .step t, .step t, .step t, .step t, .back t] ?_
  unfold State.cell at same ⊢
  simp only [Machine.exec, step, advance, State.goto, State.cell, idle, Function.update_self, Function.update_idem,
    Option.bind_some, same, if_true, Option.some.injEq, exists_eq_left', and_self]
  simp [← idle]

/-- A ring of two slots after `k` pushes and `j` pops, with one thread asleep before its
compare-and-swap on position `0` and another thread idle. -/
structure Asleep (k j : Nat) (st : State Nat) : Prop where
  capacity : st.ring.capacity = 2
  mask : st.ring.mask = 1
  enqueuePos : st.ring.enqueuePos = word k
  dequeuePos : st.ring.dequeuePos = word j
  pushes : st.pushes.length = k
  pops : st.pops = j
  asleep : st.pc 0 = .pushCas 7 0 0
  idle : st.pc 1 = .idle

theorem Asleep.cell {k j : Nat} {st : State Nat} (asleep : Asleep k j st) (n : Nat) : st.cell (word n) = n % 2 := by
  unfold State.cell word
  rw [asleep.mask, Nat.and_one_is_mod]
  exact Nat.mod_mod_of_dvd n (by decide)

theorem Asleep.push {k j : Nat} {st : State Nat} (asleep : Asleep k j st) (free : st.ring.seq (k % 2) = word k) :
    ∃ labels st', machine.Run st labels st' ∧ Asleep (k + 1) j st' ∧
      st'.ring.seq = Function.update st.ring.seq (k % 2) (word (k + 1)) := by
  have here : st.ring.seq (st.cell st.ring.enqueuePos) = st.ring.enqueuePos := by
    rw [asleep.enqueuePos, asleep.cell, free]
  obtain ⟨labels, st', run, pc, capacity, mask, dequeuePos, pops, enqueuePos, pushes, seq⟩ := lone_push 1 asleep.idle here
  rw [asleep.enqueuePos, word_succ] at enqueuePos
  rw [asleep.enqueuePos, word_succ, asleep.cell] at seq
  refine ⟨labels, st', run, ⟨capacity.trans asleep.capacity, mask.trans asleep.mask, enqueuePos, dequeuePos.trans asleep.dequeuePos, ?_,
    pops.trans asleep.pops, ?_, ?_⟩, seq⟩
  · simp [pushes, asleep.pushes]
  · rw [pc, asleep.asleep]
  · rw [pc, asleep.idle]

theorem Asleep.pop {k j : Nat} {st : State Nat} (asleep : Asleep k j st) (ready : st.ring.seq (j % 2) = word (j + 1)) :
    ∃ labels st', machine.Run st labels st' ∧ Asleep k (j + 1) st' ∧
      st'.ring.seq = Function.update st.ring.seq (j % 2) (word (j + 2)) := by
  have here : st.ring.seq (st.cell st.ring.dequeuePos) = word (st.ring.dequeuePos + 1) := by
    rw [asleep.dequeuePos, asleep.cell, ready, word_succ]
  obtain ⟨labels, st', run, pc, capacity, mask, enqueuePos, pushes, dequeuePos, pops, seq⟩ := lone_pop asleep.idle here
  have last : word (word j + 1 + 1) = word (j + 2) := by
    unfold word
    simp only [wordSize]
    omega
  rw [asleep.dequeuePos, word_succ] at dequeuePos
  rw [asleep.dequeuePos, asleep.mask, last, asleep.cell] at seq
  refine ⟨labels, st', run, ⟨capacity.trans asleep.capacity, mask.trans asleep.mask, enqueuePos.trans asleep.enqueuePos, dequeuePos, ?_, ?_, ?_, ?_⟩, seq⟩
  · rw [pushes, asleep.pushes]
  · rw [pops, asleep.pops]
  · rw [pc, asleep.asleep]
  · rw [pc, asleep.idle]

theorem Asleep.pass (n : Nat) : ∃ labels st, machine.Run (initial twoSlots) labels st ∧ Asleep n n st ∧
    st.ring.seq (n % 2) = word n ∧ st.ring.seq ((n + 1) % 2) = word (n + 1) := by
  induction n with
  | zero =>
    have ran : (Machine.exec step (initial twoSlots) [.push 0 (some 7), .step 0, .step 0]).map
        (fun st => ([st.ring.capacity, st.ring.mask, st.ring.enqueuePos, st.ring.dequeuePos, st.pops, st.ring.seq 0, st.ring.seq 1],
          st.pushes, st.pc 0, st.pc 1)) = some ([2, 1, 0, 0, 0, 0, 1], [], .pushCas 7 0 0, .idle) := by
      decide
    obtain ⟨st, done, shown⟩ := Option.map_eq_some_iff.mp ran
    simp only [Prod.mk.injEq, List.cons.injEq, and_true] at shown
    obtain ⟨⟨capacity, mask, enqueuePos, dequeuePos, pops, here, next⟩, pushes, asleep, idle⟩ := shown
    refine ⟨_, st, Machine.run_ofPartial_of_exec done, ⟨capacity, mask, enqueuePos, dequeuePos, ?_, pops, asleep, idle⟩, here, next⟩
    rw [pushes]
    rfl
  | succ n ih =>
    obtain ⟨labels, st, run, asleep, here, next⟩ := ih
    obtain ⟨pushing, st₁, pushed, asleep₁, seq₁⟩ := asleep.push here
    have ready : st₁.ring.seq (n % 2) = word (n + 1) := by
      rw [seq₁, Function.update_self]
    obtain ⟨popping, st₂, popped, asleep₂, seq₂⟩ := asleep₁.pop ready
    have apart : (n + 1) % 2 ≠ n % 2 := by omega
    refine ⟨_, st₂, (run.trans pushed).trans popped, asleep₂, ?_, ?_⟩
    · rw [seq₂, Function.update_of_ne apart, seq₁, Function.update_of_ne apart, next]
    · rw [seq₂, show (n + 1 + 1) % 2 = n % 2 by omega, Function.update_self]

/-- The ring as it stands: a pop finds nothing though an item whose push has returned is there all the
while, a push finds no room though nothing is there, and a push overtaken by `2 ^ 64` others claims a
third position of two slots. -/
theorem not_linearizable :
    (∃ before after st st', machine.Run (initial twoSlots) before st ∧ st.pc 1 = .done (.pushed 1) ∧
      st.pc 2 = .idle ∧ st.queue = [10, 11] ∧ machine.Run st after st' ∧ after.length = 3 ∧
      st'.pc 2 = .done (.popped 0 none) ∧ st'.queue = [10, 11]) ∧
    (∃ before after st st', machine.Run (initial twoSlots) before st ∧ st.pc 3 = .idle ∧ st.queue = [] ∧
      machine.Run st after st' ∧ after.length = 3 ∧ st'.pc 3 = .done (.pushed 0) ∧ st'.queue = []) ∧
    ∃ labels st, machine.Run (initial twoSlots) labels st ∧ st.ring.capacity = 2 ∧ st.queue.length = 3 := by
  refine ⟨?_, ?_, ?_⟩
  · have ran : ((Machine.exec step (initial twoSlots)
        [.push 0 (some 10), .step 0, .step 0, .step 0,
          .push 1 (some 11), .step 1, .step 1, .step 1, .step 1, .step 1]).bind fun st =>
        (Machine.exec step st [.pop 2, .step 2, .step 2]).map fun st' =>
          (st.pc 1, st.pc 2, st.queue, st'.pc 2, st'.queue)) =
        some (.done (.pushed 1), .idle, [10, 11], .done (.popped 0 none), [10, 11]) := by
      decide
    obtain ⟨st, before, rest⟩ := Option.bind_eq_some_iff.mp ran
    obtain ⟨st', after, shown⟩ := Option.map_eq_some_iff.mp rest
    simp only [Prod.mk.injEq] at shown
    obtain ⟨pushed, idle, held, failed, still⟩ := shown
    exact ⟨_, _, st, st', Machine.run_ofPartial_of_exec before, pushed, idle, held,
      Machine.run_ofPartial_of_exec after, rfl, failed, still⟩
  · have ran : ((Machine.exec step (initial twoSlots)
        [.push 0 (some 10), .step 0, .step 0, .step 0, .step 0, .step 0, .back 0,
          .push 0 (some 11), .step 0, .step 0, .step 0, .step 0, .step 0, .back 0,
          .pop 1, .step 1, .step 1, .step 1,
          .pop 2, .step 2, .step 2, .step 2, .step 2, .step 2, .back 2]).bind fun st =>
        (Machine.exec step st [.push 3 (some 12), .step 3, .step 3]).map fun st' =>
          (st.pc 3, st.queue, st'.pc 3, st'.queue)) = some (.idle, [], .done (.pushed 0), []) := by
      decide
    obtain ⟨st, before, rest⟩ := Option.bind_eq_some_iff.mp ran
    obtain ⟨st', after, shown⟩ := Option.map_eq_some_iff.mp rest
    simp only [Prod.mk.injEq] at shown
    obtain ⟨idle, none, failed, still⟩ := shown
    exact ⟨_, _, st, st', Machine.run_ofPartial_of_exec before, idle, none,
      Machine.run_ofPartial_of_exec after, rfl, failed, still⟩
  · obtain ⟨passing, st, passed, asleep, here, next⟩ := Asleep.pass (wordSize - 2)
    obtain ⟨pushing, st₁, pushed, asleep₁, seq₁⟩ := asleep.push here
    have free : st₁.ring.seq ((wordSize - 2 + 1) % 2) = word (wordSize - 2 + 1) := by
      rw [seq₁, Function.update_of_ne (by decide), next]
    obtain ⟨pushing', st₂, pushed', asleep₂, -⟩ := asleep₁.push free
    have round : st₂.ring.enqueuePos = 0 := asleep₂.enqueuePos
    obtain ⟨st₃, taken, capacity, pushes, pops⟩ : ∃ st₃, step st₂ (.step 0) = some st₃ ∧
        st₃.ring.capacity = st₂.ring.capacity ∧ st₃.pushes = st₂.pushes ++ [7] ∧ st₃.pops = st₂.pops := by
      show ∃ st₃, advance st₂ 0 = some st₃ ∧ _
      unfold advance
      rw [asleep₂.asleep]
      simp only [round, if_true]
      exact ⟨_, rfl, rfl, rfl, rfl⟩
    refine ⟨_, st₃, ((passed.trans pushed).trans pushed').step taken, capacity.trans asleep₂.capacity, ?_⟩
    rw [State.queue, pushes, pops, List.length_drop, List.length_append, asleep₂.pushes, asleep₂.pops]
    rfl

end CognitiveOs.Infra.Ringbuf
