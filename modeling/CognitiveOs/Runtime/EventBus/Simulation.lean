import CognitiveOs.Infra.Ringbuf.Linearization
import CognitiveOs.Runtime.EventBus.Invariant

/-!
# The bus follows the protocol

What a thread is about is read off its stack of calls and its place in the ring. Every good step of
the code is a step of the protocol, or none.
-/

namespace CognitiveOs.Runtime.EventBus

open Foundation Infra

def Asking (ev : Event) : Ringbuf.Pc Event → Prop
  | .pushPos x => x = ev
  | .pushSeq x _ _ => x = ev
  | .pushCas x _ _ => x = ev
  | .done (.pushed code) => code = 0
  | _ => False

def Storing (ev : Event) : Ringbuf.Pc Event → Prop
  | .pushData x _ _ => x = ev
  | .pushTurn x _ _ => x = ev
  | .done (.pushed code) => code = 1
  | _ => False

def Taking : Ringbuf.Pc Event → Prop
  | .popPos => True
  | .popSeq _ _ => True
  | .popCas _ _ => True
  | .popData _ _ => True
  | .popTurn _ _ _ => True
  | .done (.popped code _) => code = 0
  | _ => False

def Checking : Ringbuf.Pc Event → Prop
  | .emptyPos => True
  | .emptySeq _ _ => True
  | .done (.empty answer) => answer = false
  | _ => False

inductive Outer : List Frame → Option Work → Prop where
  | nothing : Outer [] none
  | handler {dispatched : Nat} {ev : Event} {snap : List Int} {i : Nat} :
      dispatched < maxDispatch → i < snap.length → Outer [.handling dispatched ev snap i] (some ⟨ev, some (snap, i + 1)⟩)

/-- What a thread with these calls, at this place in the ring, is about. -/
inductive Is : List Frame → Ringbuf.Pc Event → Status → Prop where
  | idle : Is [] .idle .idle
  | asking {ev : Event} {rest : List Frame} {outer : Option Work} {pc : Ringbuf.Pc Event} :
      Outer rest outer → Asking ev pc → Is (.pushing ev :: rest) pc (.asking ev outer)
  | storing {ev : Event} {rest : List Frame} {outer : Option Work} {pc : Ringbuf.Pc Event} :
      Outer rest outer → Storing ev pc → Is (.pushing ev :: rest) pc (.storing outer)
  | acquiring {dispatched : Nat} {rest : List Frame} {outer : Option Work} :
      dispatched < maxDispatch → Outer rest outer → Is (.acquire dispatched :: rest) .idle (.acquiring outer)
  | taking {dispatched : Nat} {pc : Ringbuf.Pc Event} :
      dispatched < maxDispatch → Taking pc → Is [.popping dispatched] pc .taking
  | took {dispatched : Nat} {ev : Event} :
      dispatched < maxDispatch → Is [.popping dispatched] (.done (.popped 1 (some ev))) (.working ⟨ev, none⟩)
  | snapshot {dispatched : Nat} {ev : Event} :
      dispatched < maxDispatch → Is [.snapshot dispatched ev] .idle (.working ⟨ev, none⟩)
  | looking {dispatched : Nat} {ev : Event} {snap : List Int} {i : Nat} :
      dispatched < maxDispatch → i ≤ snap.length →
      Is [.looking dispatched ev snap i] .idle (.working ⟨ev, some (snap, i)⟩)
  | handling {dispatched : Nat} {ev : Event} {snap : List Int} {i : Nat} :
      dispatched < maxDispatch → i < snap.length →
      Is [.handling dispatched ev snap i] .idle (.working ⟨ev, some (snap, i + 1)⟩)
  | releasing {dispatched : Nat} :
      Is [.release dispatched] .idle (.releasing (decide (maxDispatch ≤ dispatched)))
  | checking {dispatched : Nat} {pc : Ringbuf.Pc Event} :
      dispatched < maxDispatch → Checking pc → Is [.emptying dispatched] pc .checking
  | leaving {dispatched : Nat} : Is [.emptying dispatched] (.done (.empty true)) .leaving

theorem Outer.is {rest : List Frame} {outer : Option Work} (below : Outer rest outer) :
    Is rest .idle (.within outer) := by
  cases below with
  | nothing => exact Is.idle
  | handler bound inside => exact Is.handling bound inside

theorem storing_of_filling {stack : List Frame} {pc : Ringbuf.Pc Event} {s : Status} {k : Nat} (is : Is stack pc s)
    (filling : pc.filling = some k) : ∃ outer, s = .storing outer := by
  cases is with
  | storing below storing => exact ⟨_, rfl⟩
  | asking below asking => cases pc <;> first | exact asking.elim | cases filling
  | taking bound taking => cases pc <;> first | exact taking.elim | cases filling
  | checking bound checking => cases pc <;> first | exact checking.elim | cases filling
  | _ => cases filling

def bus (st : State) (status : Nat → Status) : Bus where
  queue := st.ring.queue
  accepted := st.ring.pushes
  taken := st.ring.returned.filterMap Prod.snd
  draining := st.draining
  subs := st.subs
  finished := st.finished
  delivered := st.delivered
  refused := st.refused
  issued := st.issued
  status := status

structure Tracks (st : State) (status : Nat → Status) : Prop where
  is : ∀ t, Is (st.stack t) (st.ring.pc t) (status t)
  ring : ∃ s, Ringbuf.Kept st.ring s
  sound : (bus st status).Sound
  dropped : st.dropped = Ringbuf.word st.refused.length

variable {st st' : State} {status status' : Nat → Status} {t : Nat} {s : Status}

theorem Tracks.follow (tracks : Tracks st status) (status' : Nat → Status)
    (is : ∀ t, Is (st'.stack t) (st'.ring.pc t) (status' t)) (ring : ∃ s, Ringbuf.Kept st'.ring s)
    (moved : (bus st status).Step (bus st' status')) (dropped : st'.dropped = Ringbuf.word st'.refused.length) :
    ∃ status', Tracks st' status' :=
  ⟨status', is, ring, tracks.sound.step moved, dropped⟩

theorem Tracks.stutter (tracks : Tracks st status) (is : ∀ t, Is (st'.stack t) (st'.ring.pc t) (status t))
    (ring : ∃ s, Ringbuf.Kept st'.ring s) (same : bus st' status = bus st status)
    (dropped : st'.dropped = Ringbuf.word st'.refused.length) : ∃ status', Tracks st' status' :=
  ⟨status, is, ring, same ▸ tracks.sound, dropped⟩

section Threads

variable {stack : Nat → List Frame} {pc : Nat → Ringbuf.Pc Event} {calls : List Frame} {place : Ringbuf.Pc Event}

theorem is_enter (all : ∀ u, Is (stack u) (pc u) (status u)) (mine : Is calls place s) (u : Nat) :
    Is (Function.update stack t calls u) (Function.update pc t place u) (Function.update status t s u) := by
  rw [Function.update_apply, Function.update_apply, Function.update_apply]
  split
  · exact mine
  · exact all u

theorem is_ring (all : ∀ u, Is (stack u) (pc u) (status u)) (mine : Is (stack t) place s) (u : Nat) :
    Is (stack u) (Function.update pc t place u) (Function.update status t s u) := by
  rw [Function.update_apply, Function.update_apply]
  split
  · rename_i this
    exact this ▸ mine
  · exact all u

theorem is_goto (all : ∀ u, Is (stack u) (pc u) (status u)) (mine : Is calls (pc t) s) (u : Nat) :
    Is (Function.update stack t calls u) (pc u) (Function.update status t s u) := by
  rw [Function.update_apply, Function.update_apply]
  split
  · rename_i this
    exact this ▸ mine
  · exact all u

end Threads

theorem kept_goto {ring : Ringbuf.State Event} {place : Ringbuf.Pc Event} (kept : ∃ s, Ringbuf.Kept ring s)
    (filling : (ring.pc t).filling = none) (emptying : (ring.pc t).emptying = none)
    (away : place = .idle ∨ (∃ ev, place = .pushPos ev) ∨ place = .popPos ∨ place = .emptyPos) :
    ∃ s, Ringbuf.Kept (ring.goto t place) s := by
  obtain ⟨s, kept⟩ := kept
  refine ⟨s, kept.acts (Ringbuf.Acts.moves t place ?_ ?_ ?_)⟩
  · obtain rfl | ⟨ev, rfl⟩ | rfl | rfl := away <;> trivial
  · rw [filling]
    obtain rfl | ⟨ev, rfl⟩ | rfl | rfl := away <;> rfl
  · rw [emptying]
    obtain rfl | ⟨ev, rfl⟩ | rfl | rfl := away <;> rfl

/-! ### The steps in the ring -/

namespace Tracks

variable (tracks : Tracks st status)
include tracks

variable {ring : Ringbuf.State Event}

theorem ring_stutter {place : Ringbuf.Pc Event} (kept : ∃ s, Ringbuf.Kept ring s) (same : st.ring.goto t place = ring)
    (is : Is (st.stack t) place (status t)) : ∃ status', Tracks { st with ring := ring } status' := by
  subst same
  refine tracks.stutter ?_ kept rfl tracks.dropped
  have all := is_ring (s := status t) tracks.is is
  rw [Function.update_eq_self] at all
  exact all

theorem ring_push {ev : Event} {rest : List Frame} {outer : Option Work} {place : Ringbuf.Pc Event}
    (stack : st.stack t = .pushing ev :: rest) (here : status t = .asking ev outer) (below : Outer rest outer)
    (kept : ∃ s, Ringbuf.Kept ring s) (pc : ring.pc = Function.update st.ring.pc t place) (storing : Storing ev place)
    (pushes : ring.pushes = st.ring.pushes ++ [ev]) (pops : ring.pops = st.ring.pops)
    (returned : ring.returned = st.ring.returned) (ordered : st.ring.pops ≤ st.ring.pushes.length) :
    ∃ status', Tracks { st with ring := ring } status' := by
  refine tracks.follow (Function.update status t (.storing outer)) ?_ kept ?_ tracks.dropped
  · show ∀ u, Is (st.stack u) (ring.pc u) _
    rw [pc]
    exact is_ring tracks.is (stack ▸ Is.storing below storing)
  · have queue : ring.queue = st.ring.queue ++ [ev] := by
      rw [Ringbuf.State.queue, pushes, pops]
      exact List.drop_append_of_le_length ordered
    have step := Bus.Step.accept (b := bus st status) t ev outer here
    unfold bus at step ⊢
    rw [queue, pushes, returned]
    exact step

theorem ring_done {place : Ringbuf.Pc Event} (kept : ∃ s, Ringbuf.Kept ring s)
    (pc : ring.pc = Function.update st.ring.pc t place) (is : Is (st.stack t) place (status t))
    (pushes : ring.pushes = st.ring.pushes) (pops : ring.pops = st.ring.pops)
    (returned : ring.returned = st.ring.returned) : ∃ status', Tracks { st with ring := ring } status' := by
  refine tracks.stutter ?_ kept ?_ tracks.dropped
  · show ∀ u, Is (st.stack u) (ring.pc u) _
    rw [pc]
    have all := is_ring (s := status t) tracks.is is
    rw [Function.update_eq_self] at all
    exact all
  · unfold bus
    rw [Ringbuf.State.queue, Ringbuf.State.queue, pushes, pops, returned]

variable {dispatched : Nat}

theorem ring_claim {place : Ringbuf.Pc Event} (bound : dispatched < maxDispatch)
    (stack : st.stack t = [.popping dispatched]) (here : status t = .taking) (kept : ∃ s, Ringbuf.Kept ring s)
    (pc : ring.pc = Function.update st.ring.pc t place) (taking : Taking place)
    (pushes : ring.pushes = st.ring.pushes) (pops : ring.pops = st.ring.pops + 1)
    (returned : ring.returned = st.ring.returned) (some : st.ring.pops < st.ring.pushes.length) :
    ∃ status', Tracks { st with ring := ring } status' := by
  refine tracks.follow status ?_ kept ?_ tracks.dropped
  · show ∀ u, Is (st.stack u) (ring.pc u) _
    rw [pc]
    have all := is_ring (t := t) (s := .taking) tracks.is (stack ▸ Is.taking bound taking)
    rw [← here, Function.update_eq_self] at all
    exact all
  · have queue : st.ring.queue = st.ring.pushes[st.ring.pops] :: ring.queue := by
      rw [Ringbuf.State.queue, Ringbuf.State.queue, pushes, pops]
      exact List.drop_eq_getElem_cons some
    have step := Bus.Step.claim (b := bus st status) t _ ring.queue here queue
    unfold bus at step ⊢
    rw [pushes, returned]
    exact step

theorem ring_take {k : Nat} {ev : Event} (bound : dispatched < maxDispatch)
    (stack : st.stack t = [.popping dispatched]) (here : status t = .taking) (kept : ∃ s, Ringbuf.Kept ring s)
    (pc : ring.pc = Function.update st.ring.pc t (.done (.popped 1 (some ev))))
    (pushes : ring.pushes = st.ring.pushes) (pops : ring.pops = st.ring.pops)
    (returned : ring.returned = st.ring.returned ++ [(k, some ev)]) (member : ev ∈ st.ring.pushes) :
    ∃ status', Tracks { st with ring := ring } status' := by
  refine tracks.follow (Function.update status t (.working ⟨ev, none⟩)) ?_ kept ?_ tracks.dropped
  · show ∀ u, Is (st.stack u) (ring.pc u) _
    rw [pc]
    exact is_ring tracks.is (stack ▸ Is.took bound)
  · have step := Bus.Step.take (b := bus st status) t ev here member
    have queue : ring.queue = st.ring.queue := by
      rw [Ringbuf.State.queue, Ringbuf.State.queue, pushes, pops]
    have log : ring.returned.filterMap Prod.snd = st.ring.returned.filterMap Prod.snd ++ [ev] := by
      rw [returned, List.filterMap_append]
      rfl
    unfold bus at step ⊢
    rw [queue, pushes, log]
    exact step

theorem ring_move {place : Ringbuf.Pc Event} (kept : ∃ s, Ringbuf.Kept ring s) (same : st.ring.goto t place = ring)
    (is : Is (st.stack t) place s) (moved : (bus st status).Step ((bus st status).turn t s)) :
    ∃ status', Tracks { st with ring := ring } status' := by
  subst same
  exact tracks.follow (Function.update status t s) (is_ring tracks.is is) kept moved tracks.dropped

theorem left (free : st.ring.queue = [] ∨ ∃ u, (st.ring.pc u).filling = some st.ring.pops) : (bus st status).Left := by
  obtain none | ⟨u, filling⟩ := free
  · exact Or.inl none
  · obtain ⟨outer, storing⟩ := storing_of_filling (tracks.is u) filling
    exact Or.inr ⟨u, outer, storing⟩

theorem ring_step (prompt : Ringbuf.Prompt st.ring (.step t)) (taken : Ringbuf.advance st.ring t = some ring) :
    ∃ status', Tracks { st with ring := ring } status' := by
  obtain ⟨s, kept⟩ := tracks.ring
  obtain ⟨s', act⟩ := kept.advance_acts prompt taken
  have kept' : ∃ s, Ringbuf.Kept ring s := ⟨s', kept.acts act⟩
  have ordered := kept.linearizable.ordered
  have is := tracks.is t
  have fits := kept.threads.fits t
  unfold Ringbuf.advance at taken
  generalize hstack : st.stack t = stack at is
  generalize hs : status t = about at is
  generalize hpc : st.ring.pc t = pc at is taken fits
  have go : ∀ {place}, st.ring.goto t place = ring → Is stack place about →
      ∃ status', Tracks { st with ring := ring } status' := fun {place} same is =>
    tracks.ring_stutter kept' same (hstack.symm ▸ hs.symm ▸ is)
  have done : ∀ {place}, ring.pc = Function.update st.ring.pc t place → Is stack place about →
      ring.pushes = st.ring.pushes → ring.pops = st.ring.pops → ring.returned = st.ring.returned →
      ∃ status', Tracks { st with ring := ring } status' := fun {place} pc is =>
    tracks.ring_done kept' pc (hstack.symm ▸ hs.symm ▸ is)
  cases is with
  | asking below asking =>
    cases pc with
    | pushPos item =>
      simp only [Option.some.injEq] at taken
      exact go taken (Is.asking below asking)
    | pushSeq item pos k =>
      simp only [Option.some.injEq] at taken
      refine go taken (Is.asking below ?_)
      split
      · exact asking
      · split
        · rfl
        · exact asking
    | pushCas item pos k =>
      obtain rfl := asking
      simp only at taken
      split at taken
      · obtain rfl := Option.some.inj taken
        exact tracks.ring_push hstack hs below kept' rfl rfl rfl rfl rfl ordered
      · exact go (Option.some.inj taken) (Is.asking below rfl)
    | done result => cases taken
    | _ => exact asking.elim
  | storing below storing =>
    cases pc with
    | pushData item pos k =>
      simp only [Option.some.injEq] at taken
      subst taken
      exact done rfl (Is.storing below storing) rfl rfl rfl
    | pushTurn item pos k =>
      simp only [Option.some.injEq] at taken
      subst taken
      exact done rfl (Is.storing below rfl) rfl rfl rfl
    | done result => cases taken
    | _ => exact storing.elim
  | taking bound taking =>
    cases pc with
    | popPos =>
      simp only [Option.some.injEq] at taken
      exact go taken (Is.taking bound trivial)
    | popSeq pos k =>
      simp only [Option.some.injEq] at taken
      refine go taken (Is.taking bound ?_)
      split
      · trivial
      · split
        · rfl
        · trivial
    | popCas pos k =>
      simp only at taken
      split at taken
      · rename_i same
        obtain ⟨rfl, claimed, due⟩ := fits
        simp only [Ringbuf.Prompt, Ringbuf.Pc.Prompt, hpc] at prompt
        have filled := kept.words.filled
        have emptied := kept.words.emptied
        obtain rfl := kept.dequeuePos_eq claimed (by omega) same
        have held : s.emptied + 1 ≤ s.filled := (kept.sound.claimEmpty (kept.sound.turn_emptied due)).ordered
        obtain rfl := Option.some.inj taken
        exact tracks.ring_claim bound hstack hs kept' rfl trivial rfl rfl rfl (by omega)
      · exact go (Option.some.inj taken) (Is.taking bound trivial)
    | popData pos k =>
      simp only [Option.some.injEq] at taken
      exact go taken (Is.taking bound trivial)
    | popTurn pos k out =>
      simp only [Option.some.injEq] at taken
      subst taken
      obtain ⟨-, claimed, -, read⟩ := fits
      have inside : k < st.ring.pushes.length := by
        have := kept.sound.ordered
        have := kept.words.filled
        omega
      rw [List.getElem?_eq_getElem inside] at read
      subst read
      exact tracks.ring_take bound hstack hs kept' rfl rfl rfl rfl (List.getElem_mem inside)
    | done result => cases taken
    | _ => exact taking.elim
  | checking bound checking =>
    cases pc with
    | emptyPos =>
      simp only [Option.some.injEq] at taken
      exact go taken (Is.checking bound trivial)
    | emptySeq pos k =>
      simp only [Option.some.injEq] at taken
      by_cases behind : Ringbuf.diff (st.ring.ring.seq (st.ring.cell pos)) (Ringbuf.word (pos + 1)) < 0
      · rw [decide_eq_true behind] at taken
        obtain ⟨rfl, claimed⟩ := fits
        simp only [Ringbuf.Prompt, Ringbuf.Pc.Prompt, hpc] at prompt
        have free := (kept.none_ready claimed (by have := kept.words.emptied; omega) behind).2
        exact tracks.ring_move kept' taken (hstack.symm ▸ Is.leaving)
          (Bus.Step.empty (b := bus st status) t hs (tracks.left free))
      · rw [decide_eq_false behind] at taken
        exact go taken (Is.checking bound rfl)
    | done result => cases taken
    | _ => exact checking.elim
  | _ => cases taken

theorem ring_spurious (taken : Ringbuf.step st.ring (.spurious t) = some ring) :
    ∃ status', Tracks { st with ring := ring } status' := by
  obtain ⟨s, kept⟩ := tracks.ring
  obtain ⟨s', act⟩ := kept.step_acts (show Ringbuf.Prompt st.ring (.spurious t) from trivial) taken
  have kept' : ∃ s, Ringbuf.Kept ring s := ⟨s', kept.acts act⟩
  have is := tracks.is t
  simp only [Ringbuf.step] at taken
  split at taken
  · rename_i item pos k here
    rw [here] at is
    refine tracks.ring_stutter kept' (Option.some.inj taken) ?_
    generalize st.stack t = stack at is ⊢
    generalize status t = about at is ⊢
    cases is with
    | asking below asking => exact Is.asking below asking
    | storing below storing => exact storing.elim
    | taking bound taking => exact taking.elim
    | checking bound checking => exact checking.elim
  · rename_i pos k here
    rw [here] at is
    refine tracks.ring_stutter kept' (Option.some.inj taken) ?_
    generalize st.stack t = stack at is ⊢
    generalize status t = about at is ⊢
    cases is with
    | asking below asking => exact asking.elim
    | storing below storing => exact storing.elim
    | taking bound taking => exact Is.taking bound trivial
    | checking bound checking => exact checking.elim
  · cases taken

/-! ### The steps outside the ring -/

theorem publishes (type : EventType) {outer : Option Work} (below : Outer (st.stack t) outer)
    (here : status t = .within outer) (place : st.ring.pc t = .idle) :
    ∃ status', Tracks (publish st t type true) status' := by
  refine tracks.follow (Function.update status t _) ?_ ?_
    (Bus.Step.ask (b := bus st status) t outer type here) tracks.dropped
  · exact is_enter tracks.is (Is.asking below rfl)
  · exact kept_goto tracks.ring (by rw [place]; rfl) (by rw [place]; rfl) (Or.inr (Or.inl ⟨_, rfl⟩))

theorem finishes {w : Work} {snap : List Int} (here : status t = .working w) (place : st.ring.pc t = .idle)
    (whole : w.copy = some (snap, snap.length) ∨ w.copy = none ∧ snap = st.subs ∧ snap = []) :
    ∃ status', Tracks (st.dispatched t dispatched w.ev snap []) status' := by
  unfold State.dispatched
  dsimp only
  split
  · rename_i stops
    refine tracks.follow (Function.update status t (.releasing true)) ?_ tracks.ring
      (Bus.Step.finish (b := bus st status) t w snap (.releasing true) here whole (Or.inr rfl)) tracks.dropped
    refine is_goto tracks.is ?_
    show Is _ (st.ring.pc t) _
    rw [place]
    have := @Is.releasing (dispatched + 1)
    rwa [decide_eq_true stops] at this
  · refine tracks.follow (Function.update status t .taking) ?_ ?_
      (Bus.Step.finish (b := bus st status) t w snap .taking here whole (Or.inl rfl)) tracks.dropped
    · exact is_enter tracks.is (Is.taking (by omega) trivial)
    · exact kept_goto tracks.ring (by rw [place]; rfl) (by rw [place]; rfl) (Or.inr (Or.inr (Or.inl rfl)))

theorem go_step {allocated : Bool} (good : Good st (.go t allocated)) (taken : advance st t allocated = some st') :
    ∃ status', Tracks st' status' := by
  have is := tracks.is t
  obtain ⟨memory, left⟩ := good
  unfold advance at taken
  generalize hstack : st.stack t = stack at is taken left
  generalize hs : status t = about at is
  generalize hpc : st.ring.pc t = pc at is taken
  have away : ∀ {place}, pc.filling = none → pc.emptying = none →
      (place = .idle ∨ (∃ ev, place = .pushPos ev) ∨ place = .popPos ∨ place = .emptyPos) →
      ∃ s, Ringbuf.Kept (st.ring.goto t place) s := fun {place} filling emptying =>
    kept_goto tracks.ring (hpc.symm ▸ filling) (hpc.symm ▸ emptying)
  cases is with
  | idle => cases taken
  | asking below asking =>
    cases pc with
    | done result =>
      cases result with
      | pushed code =>
        obtain rfl : code = 0 := asking
        obtain rfl := Option.some.inj taken
        refine tracks.follow (Function.update status t _) (is_enter tracks.is below.is)
          (away rfl rfl (Or.inl rfl)) (Bus.Step.refuse (b := bus st status) t _ _ hs) ?_
        show Ringbuf.word (st.dropped + 1) = Ringbuf.word (st.refused ++ [_]).length
        rw [tracks.dropped, Ringbuf.word_succ, List.length_append]
        rfl
      | _ => exact asking.elim
    | _ => cases taken
  | storing below storing =>
    cases pc with
    | done result =>
      cases result with
      | pushed code =>
        obtain rfl : code = 1 := storing
        obtain rfl := Option.some.inj taken
        exact tracks.follow (Function.update status t _)
          (is_enter tracks.is (Is.acquiring (by decide) below)) (away rfl rfl (Or.inl rfl))
          (Bus.Step.stored (b := bus st status) t _ hs) tracks.dropped
      | _ => exact storing.elim
    | _ => cases taken
  | acquiring bound below =>
    simp only at taken
    split at taken
    · rename_i set
      obtain rfl := Option.some.inj taken
      exact tracks.follow (Function.update status t _) (is_goto tracks.is (hpc.symm ▸ below.is))
        tracks.ring (Bus.Step.follow (b := bus st status) t _ hs set) tracks.dropped
    · rename_i free
      obtain rfl := Option.some.inj taken
      cases below with
      | handler bound' inside =>
        -- the thread itself holds the flag
        exact absurd (tracks.sound.locked.flag t (by show (status t).holds = true; rw [hs]; rfl)) free
      | nothing =>
        exact tracks.follow (Function.update status t _)
          (is_enter tracks.is (Is.taking bound trivial)) (away rfl rfl (Or.inr (Or.inr (Or.inl rfl))))
          (Bus.Step.acquire (b := bus st status) t hs ((Bool.not_eq_true _).mp free)) tracks.dropped
  | taking bound taking =>
    cases pc with
    | done result =>
      cases result with
      | popped code out =>
        obtain rfl : code = 0 := taking
        obtain rfl := Option.some.inj taken
        refine tracks.follow (Function.update status t (.releasing false)) (is_enter tracks.is ?_)
          (away rfl rfl (Or.inl rfl)) (Bus.Step.miss (b := bus st status) t hs) tracks.dropped
        rename_i dispatched
        have := @Is.releasing dispatched
        rwa [decide_eq_false (by omega)] at this
      | _ => exact taking.elim
    | _ => cases taken
  | @took dispatched ev bound =>
    obtain rfl := Option.some.inj taken
    refine tracks.stutter ?_ (away rfl rfl (Or.inl rfl)) rfl tracks.dropped
    have all := is_enter (t := t) tracks.is (@Is.snapshot dispatched ev bound)
    rw [← hs, Function.update_eq_self] at all
    exact all
  | snapshot bound =>
    simp only at taken
    split at taken
    · rename_i none
      obtain rfl := Option.some.inj taken
      have nobody : st.subs = [] := none.resolve_right (by rw [memory]; decide)
      exact tracks.finishes hs hpc (Or.inr ⟨rfl, nobody.symm, rfl⟩)
    · obtain rfl := Option.some.inj taken
      exact tracks.follow (Function.update status t _)
        (is_goto tracks.is (hpc.symm ▸ Is.looking bound (Nat.zero_le _))) tracks.ring
        (Bus.Step.copy (b := bus st status) t _ hs) tracks.dropped
  | looking bound inside =>
    simp only at taken
    split at taken
    · rename_i ended
      obtain rfl := Option.some.inj taken
      have whole := Nat.le_antisymm inside (List.getElem?_eq_none_iff.mp ended)
      exact tracks.finishes hs hpc (Or.inl (by rw [whole]))
    · rename_i subscription found
      have more := (List.getElem?_eq_some_iff.mp found).1
      have looked := Bus.Step.look (b := bus st status) t _ _ _ subscription hs found
      split at taken
      · rename_i takes
        obtain rfl := Option.some.inj taken
        rw [if_pos takes] at looked
        exact tracks.follow (Function.update status t _)
          (is_goto tracks.is (hpc.symm ▸ Is.handling bound more)) tracks.ring looked tracks.dropped
      · rename_i other
        obtain rfl := Option.some.inj taken
        rw [if_neg other, List.append_nil] at looked
        exact tracks.follow (Function.update status t _)
          (is_goto tracks.is (hpc.symm ▸ Is.looking bound more)) tracks.ring looked tracks.dropped
  | @handling dispatched ev snap i bound inside =>
    obtain rfl := Option.some.inj taken
    refine tracks.stutter ?_ tracks.ring rfl tracks.dropped
    have all := is_goto (t := t) tracks.is (hpc.symm ▸ @Is.looking dispatched ev snap (i + 1) bound inside)
    rw [← hs, Function.update_eq_self] at all
    exact all
  | @releasing dispatched =>
    simp only at taken
    split at taken
    · rename_i stops
      obtain rfl := Option.some.inj taken
      rw [decide_eq_true stops] at hs
      obtain ⟨s, kept⟩ := tracks.ring
      have small := kept.words.shaped.small
      have nothing := left stops
      unfold emptyNow at nothing
      rw [kept.words.dequeuePos] at nothing
      have free := (kept.none_ready (Nat.le_refl _) (by simp only [Ringbuf.wordSize] at small; omega)
        (by simpa using nothing)).2
      exact tracks.follow (Function.update status t .idle) (is_goto tracks.is (hpc.symm ▸ Is.idle))
        tracks.ring (Bus.Step.stop (b := bus st status) t hs (tracks.left free)) tracks.dropped
    · rename_i more
      obtain rfl := Option.some.inj taken
      rw [decide_eq_false more] at hs
      exact tracks.follow (Function.update status t .checking)
        (is_enter tracks.is (Is.checking (by omega) trivial)) (away rfl rfl (Or.inr (Or.inr (Or.inr rfl))))
        (Bus.Step.release (b := bus st status) t hs) tracks.dropped
  | checking bound checking =>
    cases pc with
    | done result =>
      cases result with
      | empty answer =>
        obtain rfl : answer = false := checking
        obtain rfl := Option.some.inj taken
        exact tracks.follow (Function.update status t _)
          (is_enter tracks.is (Is.acquiring bound Outer.nothing)) (away rfl rfl (Or.inl rfl))
          (Bus.Step.again (b := bus st status) t hs) tracks.dropped
      | _ => exact checking.elim
    | _ => cases taken
  | leaving =>
    obtain rfl := Option.some.inj taken
    exact tracks.follow (Function.update status t _) (is_enter tracks.is Is.idle)
      (away rfl rfl (Or.inl rfl)) (Bus.Step.leave (b := bus st status) t hs) tracks.dropped

theorem step {label : Label} (good : Good st label) (taken : EventBus.step st label = some st') :
    ∃ status', Tracks st' status' := by
  cases label with
  | subscribe type =>
    obtain rfl := Option.some.inj taken
    exact tracks.follow status tracks.is tracks.ring (Bus.Step.subscribe (b := bus st status) type)
      tracks.dropped
  | publish t type allocated =>
    obtain rfl : allocated = true := good
    simp only [EventBus.step] at taken
    have is := tracks.is t
    split at taken
    · rename_i empty
      obtain rfl := Option.some.inj taken
      rw [empty] at is
      generalize hs : status t = about at is
      generalize hpc : st.ring.pc t = pc at is
      cases is with
      | idle =>
        have below : Outer (st.stack t) none := empty ▸ Outer.nothing
        exact tracks.publishes type below hs hpc
    · rename_i dispatched ev snap i rest running
      obtain rfl := Option.some.inj taken
      rw [running] at is
      generalize hs : status t = about at is
      generalize hpc : st.ring.pc t = pc at is
      cases is with
      | handling bound inside =>
        have below : Outer (st.stack t) (some ⟨ev, some (snap, i + 1)⟩) := running ▸ Outer.handler bound inside
        exact tracks.publishes type below hs hpc
    · cases taken
  | ring t =>
    obtain ⟨ring, stepped, rfl⟩ := Option.map_eq_some_iff.mp taken
    exact tracks.ring_step good stepped
  | spurious t =>
    obtain ⟨ring, stepped, rfl⟩ := Option.map_eq_some_iff.mp taken
    exact tracks.ring_spurious stepped
  | go t allocated => exact tracks.go_step good taken

end Tracks

theorem sound_start {r : Ringbuf.Ring Event} (made : Ringbuf.ringbufNew ringCapacity = some r) :
    Tracks (start r) fun _ => .idle where
  is _ := Is.idle
  ring := by
    obtain ⟨s, kept, -⟩ := Ringbuf.kept_of_run made (Machine.Run.start (Ringbuf.initial r))
    exact ⟨s, kept⟩
  sound := by
    refine ⟨⟨?_, ?_, ?_⟩, ?_, ⟨?_, List.nodup_nil, ?_, ⟨?_, ?_⟩⟩, ⟨fun _ => ⟨rfl, rfl⟩, ?_⟩, ⟨?_, ?_, ?_⟩⟩
    · rintro u ⟨⟩
    · rintro ⟨⟩
    · rintro u v ⟨⟩
    · exact fun some => absurd rfl some
    · rintro id ⟨⟩
    · rintro u id ⟨⟩
    · rintro u v id ⟨⟩
    · rintro id ⟨⟨⟩, -⟩
    · rintro u ⟨⟩
    · rintro ev ⟨⟩
    · rintro p ⟨⟩
    · intro u
      refine Current.of_none rfl ?_
      rintro ev outer ⟨⟩
  dropped := rfl

theorem tracks_of_run {r : Ringbuf.Ring Event} (made : Ringbuf.ringbufNew ringCapacity = some r) {labels : List Label}
    (run : (machine.restrict Good).Run (start r) labels st) : ∃ status, Tracks st status := by
  refine @Machine.Run.invariant _ _ _ (fun st => ∃ status, Tracks st status) ?_ _ _ _ run ⟨_, sound_start made⟩
  rintro st label next ⟨status, tracks⟩ ⟨good, taken⟩
  exact tracks.step good taken

end CognitiveOs.Runtime.EventBus
