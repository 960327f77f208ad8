import CognitiveOs.Infra.Ringbuf.Kept

/-!
# The event bus

`runtime/event_bus.c`: any number of threads publish events into the ring buffer, and whoever wins the
`draining` flag hands them to the subscribers. A handler may publish in its turn, so a thread has a
stack of calls. The calls of the ring are taken one atomic step at a time.
-/

namespace CognitiveOs.Runtime.EventBus

open Foundation Infra

inductive EventType where
  | system
  | task
  | memory
  | tool
  | model
  deriving DecidableEq

def EventType.code : EventType → Int
  | .system => 0
  | .task => 1
  | .memory => 2
  | .tool => 3
  | .model => 4

/-- An event. `id` and `since` are not fields of the code: they say which call of
`event_bus_publish` the event comes from, and how many subscribers there were then. -/
structure Event where
  type : EventType
  id : Nat
  since : Nat
  deriving DecidableEq

def ringCapacity : Nat := 1024

/-- The bound of one call of `drain`. -/
def maxDispatch : Nat := 4096

/-- Whether a subscription takes an event; `-1` takes all. -/
def Takes (subscription : Int) (ev : Event) : Prop :=
  subscription = ev.type.code ∨ subscription = -1

instance (subscription : Int) (ev : Event) : Decidable (Takes subscription ev) := by
  unfold Takes
  infer_instance

/-- What a thread does next, outside the steps of the ring. `dispatched` is the counter of `drain`. -/
inductive Frame where
  /-- `event_bus_publish` is in `ringbuf_push` -/
  | pushing (ev : Event)
  /-- `drain` tries to set the flag -/
  | acquire (dispatched : Nat)
  /-- `drain` is in `ringbuf_pop` -/
  | popping (dispatched : Nat)
  /-- `dispatch_one` copies the subscriptions -/
  | snapshot (dispatched : Nat) (ev : Event)
  /-- `dispatch_one` looks at a subscription of its copy -/
  | looking (dispatched : Nat) (ev : Event) (snap : List Int) (i : Nat)
  /-- the handler of that subscription runs -/
  | handling (dispatched : Nat) (ev : Event) (snap : List Int) (i : Nat)
  /-- `drain` clears the flag -/
  | release (dispatched : Nat)
  /-- `drain` is in `ringbuf_empty` -/
  | emptying (dispatched : Nat)
  deriving DecidableEq

/-- The bus and its threads. `issued` counts the calls of `event_bus_publish`; the last three fields
are history: the dispatched events with the copy of the subscriptions used, the handlers called, as
numbers of an event and a subscription, and the numbers of the calls counted in `dropped`. -/
structure State where
  ring : Ringbuf.State Event
  subs : List Int
  dropped : Nat
  draining : Bool
  stack : Nat → List Frame
  issued : Nat
  finished : List (Event × List Int)
  delivered : List (Nat × Nat)
  refused : List Nat

inductive Label where
  | subscribe (type : Int)
  /-- a thread that is idle or runs a handler calls `event_bus_publish` -/
  | publish (thread : Nat) (type : EventType) (allocated : Bool)
  /-- the next atomic step of a thread in the ring -/
  | ring (thread : Nat)
  | spurious (thread : Nat)
  /-- the next step of a thread outside the ring; `allocated` says whether memory is left, if it
  needs some -/
  | go (thread : Nat) (allocated : Bool)

namespace State

def goto (st : State) (t : Nat) (stack : List Frame) : State :=
  { st with stack := Function.update st.stack t stack }

def enter (st : State) (t : Nat) (pc : Ringbuf.Pc Event) (stack : List Frame) : State :=
  { st.goto t stack with ring := st.ring.goto t pc }

/-- `drain` after `dispatch_one`: the event is freed and the bound looked at. -/
def dispatched (st : State) (t dispatched : Nat) (ev : Event) (snap : List Int) (rest : List Frame) : State :=
  let st := { st with finished := st.finished ++ [(ev, snap)] }
  if maxDispatch ≤ dispatched + 1 then st.goto t (.release (dispatched + 1) :: rest)
  else st.enter t .popPos (.popping (dispatched + 1) :: rest)

end State

/-- `event_bus_publish` up to `ringbuf_push`. -/
def publish (st : State) (t : Nat) (type : EventType) (allocated : Bool) : State :=
  let ev : Event := { type := type, id := st.issued, since := st.subs.length }
  let st := { st with issued := st.issued + 1 }
  if allocated then st.enter t (.pushPos ev) (.pushing ev :: st.stack t) else st

def advance (st : State) (t : Nat) (allocated : Bool) : Option State :=
  match st.stack t, st.ring.pc t with
  | .pushing ev :: rest, .done (.pushed code) =>
    if code = 1 then some (st.enter t .idle (.acquire 0 :: rest))
    else
      some
        { st.enter t .idle rest with
          dropped := Ringbuf.word (st.dropped + 1)
          refused := st.refused ++ [ev.id] }
  | .acquire dispatched :: rest, .idle =>
    if st.draining then some (st.goto t rest)
    else some { st.enter t .popPos (.popping dispatched :: rest) with draining := true }
  | .popping dispatched :: rest, .done (.popped code out) =>
    if code = 1 then out.map fun ev => st.enter t .idle (.snapshot dispatched ev :: rest)
    else some (st.enter t .idle (.release dispatched :: rest))
  | .snapshot dispatched ev :: rest, .idle =>
    if st.subs = [] ∨ allocated = false then some (st.dispatched t dispatched ev [] rest)
    else some (st.goto t (.looking dispatched ev st.subs 0 :: rest))
  | .looking dispatched ev snap i :: rest, .idle =>
    match snap[i]? with
    | none => some (st.dispatched t dispatched ev snap rest)
    | some subscription =>
      if Takes subscription ev then
        some
          { st.goto t (.handling dispatched ev snap i :: rest) with
            delivered := st.delivered ++ [(ev.id, i)] }
      else some (st.goto t (.looking dispatched ev snap (i + 1) :: rest))
  | .handling dispatched ev snap i :: rest, .idle =>
    some (st.goto t (.looking dispatched ev snap (i + 1) :: rest))
  | .release dispatched :: rest, .idle =>
    if maxDispatch ≤ dispatched then some { st.goto t rest with draining := false }
    else some { st.enter t .emptyPos (.emptying dispatched :: rest) with draining := false }
  | .emptying dispatched :: rest, .done (.empty answer) =>
    if answer then some (st.enter t .idle rest)
    else some (st.enter t .idle (.acquire dispatched :: rest))
  | _, _ => none

def step (st : State) : Label → Option State
  | .subscribe type => some { st with subs := st.subs ++ [type] }
  | .publish t type allocated =>
    match st.stack t with
    | [] => some (publish st t type allocated)
    | .handling _ _ _ _ :: _ => some (publish st t type allocated)
    | _ => none
  | .ring t => (Ringbuf.step st.ring (.step t)).map fun ring => { st with ring := ring }
  | .spurious t => (Ringbuf.step st.ring (.spurious t)).map fun ring => { st with ring := ring }
  | .go t allocated => advance st t allocated

def machine : Machine State Label :=
  .ofPartial step

/-- `event_bus_new`, around the ring that `ringbuf_new` made. -/
def start (r : Ringbuf.Ring Event) : State where
  ring := Ringbuf.initial r
  subs := []
  dropped := 0
  draining := false
  stack := fun _ => []
  issued := 0
  finished := []
  delivered := []
  refused := []

/-- What `ringbuf_empty` would answer if it were asked at once. -/
def emptyNow (st : Ringbuf.State Event) : Bool :=
  Ringbuf.diff (st.ring.seq (st.cell st.ring.dequeuePos)) (Ringbuf.word (st.ring.dequeuePos + 1)) < 0

/-- A `drain` about to stop at its bound leaves nothing in the ring that could be taken out. -/
def Clean (ring : Ringbuf.State Event) : List Frame → Prop
  | .release dispatched :: _ => maxDispatch ≤ dispatched → emptyNow ring = true
  | _ => True

instance (ring : Ringbuf.State Event) (frames : List Frame) : Decidable (Clean ring frames) := by
  unfold Clean
  split <;> infer_instance

/-- The steps on which the bus relies: memory is left, a thread in the ring is not overtaken, and no
`drain` stops at its bound too early. -/
def Good (st : State) : Label → Prop
  | .subscribe _ => True
  | .publish _ _ allocated => allocated = true
  | .ring t => Ringbuf.Prompt st.ring (.step t)
  | .spurious _ => True
  | .go t allocated => allocated = true ∧ Clean st.ring (st.stack t)

instance (st : State) (label : Label) : Decidable (Good st label) := by
  cases label <;> dsimp only [Good] <;> infer_instance

def Quiet (st : State) : Prop :=
  ∀ t, st.stack t = []

end CognitiveOs.Runtime.EventBus

/-!
# The drain protocol

What the bus is for, without the steps of the ring and the stacks of calls: a queue of events, a flag
that one thread holds at a time, and threads that publish, drain and look whether something was left.
-/

namespace CognitiveOs.Runtime.EventBus

open Foundation

/-- The handlers called for an event, of the first `i` subscriptions of a copy. -/
def deliveries (ev : Event) (snap : List Int) (i : Nat) : List (Nat × Nat) :=
  ((List.range i).filter fun j => (snap[j]?).any fun subscription => Takes subscription ev).map fun j => (ev.id, j)

/-- An event in the hands of a thread, and the copy of the subscriptions with how many of them have
been looked at. -/
structure Work where
  ev : Event
  copy : Option (List Int × Nat)

def Work.delivered (w : Work) : List (Nat × Nat) :=
  match w.copy with
  | none => []
  | some (snap, i) => deliveries w.ev snap i

/-- What a thread is about; `outer` is the event whose handler it runs. -/
inductive Status where
  | idle
  /-- it publishes an event that has no place yet -/
  | asking (ev : Event) (outer : Option Work)
  /-- its event has a place -/
  | storing (outer : Option Work)
  | acquiring (outer : Option Work)
  | taking
  | working (w : Work)
  /-- it gives the flag back, at the bound or because nothing was left -/
  | releasing (bound : Bool)
  | checking
  | leaving

namespace Status

def within : Option Work → Status
  | none => .idle
  | some w => .working w

def work : Status → Option Work
  | .asking _ outer => outer
  | .storing outer => outer
  | .acquiring outer => outer
  | .working w => some w
  | _ => none

def holds : Status → Bool
  | .taking => true
  | .releasing _ => true
  | s => s.work.isSome

def sees : Status → Bool
  | .storing _ => true
  | .acquiring _ => true
  | .checking => true
  | s => s.holds

def pending : Status → Option Nat
  | .asking ev _ => some ev.id
  | _ => none

end Status

structure Bus where
  queue : List Event
  accepted : List Event
  taken : List Event
  draining : Bool
  subs : List Int
  finished : List (Event × List Int)
  delivered : List (Nat × Nat)
  refused : List Nat
  issued : Nat
  status : Nat → Status

namespace Bus

def turn (b : Bus) (t : Nat) (s : Status) : Bus :=
  { b with status := Function.update b.status t s }

def Left (b : Bus) : Prop :=
  b.queue = [] ∨ ∃ u outer, b.status u = .storing outer

inductive Step (b : Bus) : Bus → Prop where
  | subscribe (type : Int) : Step b { b with subs := b.subs ++ [type] }
  | ask (t : Nat) (outer : Option Work) (type : EventType) :
      b.status t = .within outer →
      Step b
        { b.turn t (.asking { type := type, id := b.issued, since := b.subs.length } outer) with
          issued := b.issued + 1 }
  | accept (t : Nat) (ev : Event) (outer : Option Work) :
      b.status t = .asking ev outer →
      Step b { b.turn t (.storing outer) with queue := b.queue ++ [ev], accepted := b.accepted ++ [ev] }
  | refuse (t : Nat) (ev : Event) (outer : Option Work) :
      b.status t = .asking ev outer →
      Step b { b.turn t (.within outer) with refused := b.refused ++ [ev.id] }
  | stored (t : Nat) (outer : Option Work) : b.status t = .storing outer → Step b (b.turn t (.acquiring outer))
  | follow (t : Nat) (outer : Option Work) :
      b.status t = .acquiring outer → b.draining = true → Step b (b.turn t (.within outer))
  | acquire (t : Nat) :
      b.status t = .acquiring none → b.draining = false → Step b { b.turn t .taking with draining := true }
  | claim (t : Nat) (ev : Event) (rest : List Event) :
      b.status t = .taking → b.queue = ev :: rest → Step b { b with queue := rest }
  | take (t : Nat) (ev : Event) :
      b.status t = .taking → ev ∈ b.accepted →
      Step b { b.turn t (.working ⟨ev, none⟩) with taken := b.taken ++ [ev] }
  | miss (t : Nat) : b.status t = .taking → Step b (b.turn t (.releasing false))
  | copy (t : Nat) (ev : Event) :
      b.status t = .working ⟨ev, none⟩ → Step b (b.turn t (.working ⟨ev, some (b.subs, 0)⟩))
  | look (t : Nat) (ev : Event) (snap : List Int) (i : Nat) (subscription : Int) :
      b.status t = .working ⟨ev, some (snap, i)⟩ → snap[i]? = some subscription →
      Step b
        { b.turn t (.working ⟨ev, some (snap, i + 1)⟩) with
          delivered := b.delivered ++ if Takes subscription ev then [(ev.id, i)] else [] }
  | finish (t : Nat) (w : Work) (snap : List Int) (s : Status) :
      b.status t = .working w → w.copy = some (snap, snap.length) ∨ w.copy = none ∧ snap = b.subs ∧ snap = [] →
      s = .taking ∨ s = .releasing true →
      Step b { b.turn t s with finished := b.finished ++ [(w.ev, snap)] }
  | release (t : Nat) :
      b.status t = .releasing false → Step b { b.turn t .checking with draining := false }
  | stop (t : Nat) :
      b.status t = .releasing true → b.Left → Step b { b.turn t .idle with draining := false }
  | empty (t : Nat) : b.status t = .checking → b.Left → Step b (b.turn t .leaving)
  | again (t : Nat) : b.status t = .checking → Step b (b.turn t (.acquiring none))
  | leave (t : Nat) : b.status t = .leaving → Step b (b.turn t .idle)

end Bus

end CognitiveOs.Runtime.EventBus
