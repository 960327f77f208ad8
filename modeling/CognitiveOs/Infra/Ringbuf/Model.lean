import CognitiveOs.Foundation.Machine
import CognitiveOs.Foundation.Turns
import Mathlib.Data.Nat.Bitwise

/-!
# The ring buffer

`infra/ringbuf.c`: a ring of a power of two slots, each with a payload and a sequence number, and two
position counters. A push or a pop is a sequence of atomic loads, stores and compare-and-swaps, and
the threads take them in any order. The counters and the sequence numbers are machine words.
-/

namespace CognitiveOs.Infra.Ringbuf

/-- How many values a `size_t` has. -/
abbrev wordSize : Nat := 18446744073709551616

/-- The `size_t` of a number. -/
def word (n : Nat) : Nat :=
  n % wordSize

/-- `(intptr_t)seq - (intptr_t)pos`, in two's complement. -/
def diff (seq pos : Nat) : Int :=
  Int.bmod ((seq : Int) - pos) wordSize

structure Ring (Item : Type) where
  data : Nat → Option Item
  seq : Nat → Nat
  capacity : Nat
  mask : Nat
  enqueuePos : Nat
  dequeuePos : Nat

/-- `ringbuf_new`, where memory is left. The arrays are of `capacity` words, which `calloc` refuses
when their bytes do not fit in a word. -/
def ringbufNew {Item : Type} (capacity : Nat) : Option (Ring Item) :=
  if capacity < 2 ∨ capacity &&& (capacity - 1) ≠ 0 then none
  else if wordSize ≤ capacity * 8 then none
  else some
    { data := fun _ => none
      seq := id
      capacity := capacity
      mask := capacity - 1
      enqueuePos := 0
      dequeuePos := 0 }

/-- What a call gives back: the return value, and what `ringbuf_pop` wrote to `out`. -/
inductive Result (Item : Type) where
  | pushed (code : Int)
  | popped (code : Int) (out : Option Item)
  | empty (answer : Bool)
  deriving DecidableEq

/-- Where a thread is: the atomic step it takes next, with the local variables it needs. `ticket`
is not a variable of the code: it counts all positions that had been claimed when `pos` was read,
or when the compare-and-swap claimed `pos`. -/
inductive Pc (Item : Type) where
  | idle
  /-- `ringbuf_push` loads `enqueue_pos` -/
  | pushPos (item : Item)
  /-- … loads the sequence number of the slot -/
  | pushSeq (item : Item) (pos ticket : Nat)
  /-- … tries to move `enqueue_pos` on -/
  | pushCas (item : Item) (pos ticket : Nat)
  /-- … stores the payload -/
  | pushData (item : Item) (pos ticket : Nat)
  /-- … stores the sequence number -/
  | pushTurn (item : Item) (pos ticket : Nat)
  /-- `ringbuf_pop` loads `dequeue_pos` -/
  | popPos
  | popSeq (pos ticket : Nat)
  | popCas (pos ticket : Nat)
  | popData (pos ticket : Nat)
  | popTurn (pos ticket : Nat) (out : Option Item)
  /-- `ringbuf_empty` loads `dequeue_pos` -/
  | emptyPos
  | emptySeq (pos ticket : Nat)
  | done (result : Result Item)
  deriving DecidableEq

/-- The ring and its threads. The last three fields are history: the items in the order of the
positions their pushes claimed, how many positions pops have claimed, and the items that pops
returned, each with the position claimed for it. -/
structure State (Item : Type) where
  ring : Ring Item
  pc : Nat → Pc Item
  pushes : List Item
  pops : Nat
  returned : List (Nat × Option Item)

inductive Label (Item : Type) where
  /-- a thread calls `ringbuf_push`; no item stands for `NULL` -/
  | push (thread : Nat) (item : Option Item)
  | pop (thread : Nat)
  | empty (thread : Nat)
  /-- the next atomic step of a thread -/
  | step (thread : Nat)
  /-- the weak compare-and-swap of a thread fails though it could succeed -/
  | spurious (thread : Nat)
  /-- the call of a thread returns -/
  | back (thread : Nat)

variable {Item : Type}

namespace State

def goto (st : State Item) (t : Nat) (pc : Pc Item) : State Item :=
  { st with pc := Function.update st.pc t pc }

def cell (st : State Item) (pos : Nat) : Nat :=
  pos &&& st.ring.mask

end State

def initial (r : Ring Item) : State Item where
  ring := r
  pc := fun _ => .idle
  pushes := []
  pops := 0
  returned := []

def advance (st : State Item) (t : Nat) : Option (State Item) :=
  match st.pc t with
  | .idle => none
  | .pushPos item => some (st.goto t (.pushSeq item st.ring.enqueuePos st.pushes.length))
  | .pushSeq item pos ticket =>
    let diff := diff (st.ring.seq (st.cell pos)) pos
    some (st.goto t
      (if diff = 0 then .pushCas item pos ticket
      else if diff < 0 then .done (.pushed 0)
      else .pushPos item))
  | .pushCas item pos _ =>
    if st.ring.enqueuePos = pos then
      some
        { st.goto t (.pushData item pos st.pushes.length) with
          ring := { st.ring with enqueuePos := word (pos + 1) }
          pushes := st.pushes ++ [item] }
    else some (st.goto t (.pushSeq item st.ring.enqueuePos st.pushes.length))
  | .pushData item pos ticket =>
    some
      { st.goto t (.pushTurn item pos ticket) with
        ring := { st.ring with data := Function.update st.ring.data (st.cell pos) (some item) } }
  | .pushTurn _ pos _ =>
    some
      { st.goto t (.done (.pushed 1)) with
        ring := { st.ring with seq := Function.update st.ring.seq (st.cell pos) (word (pos + 1)) } }
  | .popPos => some (st.goto t (.popSeq st.ring.dequeuePos st.pops))
  | .popSeq pos ticket =>
    let diff := diff (st.ring.seq (st.cell pos)) (word (pos + 1))
    some (st.goto t
      (if diff = 0 then .popCas pos ticket
      else if diff < 0 then .done (.popped 0 none)
      else .popPos))
  | .popCas pos _ =>
    if st.ring.dequeuePos = pos then
      some
        { st.goto t (.popData pos st.pops) with
          ring := { st.ring with dequeuePos := word (pos + 1) }
          pops := st.pops + 1 }
    else some (st.goto t (.popSeq st.ring.dequeuePos st.pops))
  | .popData pos ticket => some (st.goto t (.popTurn pos ticket (st.ring.data (st.cell pos))))
  | .popTurn pos ticket out =>
    some
      { st.goto t (.done (.popped 1 out)) with
        ring := { st.ring with seq := Function.update st.ring.seq (st.cell pos) (word (pos + st.ring.mask + 1)) }
        returned := st.returned ++ [(ticket, out)] }
  | .emptyPos => some (st.goto t (.emptySeq st.ring.dequeuePos st.pops))
  | .emptySeq pos _ =>
    some (st.goto t (.done (.empty (diff (st.ring.seq (st.cell pos)) (word (pos + 1)) < 0))))
  | .done _ => none

def step (st : State Item) : Label Item → Option (State Item)
  | .push t item =>
    match st.pc t with
    | .idle =>
      match item with
      | none => some (st.goto t (.done (.pushed (-1))))
      | some item => some (st.goto t (.pushPos item))
    | _ => none
  | .pop t =>
    match st.pc t with
    | .idle => some (st.goto t .popPos)
    | _ => none
  | .empty t =>
    match st.pc t with
    | .idle => some (st.goto t .emptyPos)
    | _ => none
  | .step t => advance st t
  | .spurious t =>
    match st.pc t with
    | .pushCas item _ _ => some (st.goto t (.pushSeq item st.ring.enqueuePos st.pushes.length))
    | .popCas _ _ => some (st.goto t (.popSeq st.ring.dequeuePos st.pops))
    | _ => none
  | .back t =>
    match st.pc t with
    | .done _ => some (st.goto t .idle)
    | _ => none

def machine : Foundation.Machine (State Item) (Label Item) :=
  .ofPartial step

/-- Not overtaken: a thread that reads the slot of a position it read before finds fewer than
`2 ^ 63` less a capacity positions claimed since, and one that compares and swaps fewer than
`2 ^ 64`. -/
def Pc.Prompt (pushes pops capacity : Nat) : Pc Item → Prop
  | .pushSeq _ _ ticket => pushes + capacity < ticket + 9223372036854775808
  | .pushCas _ _ ticket => pushes < ticket + wordSize
  | .popSeq _ ticket => pops + capacity < ticket + 9223372036854775808
  | .popCas _ ticket => pops < ticket + wordSize
  | .emptySeq _ ticket => pops + capacity < ticket + 9223372036854775808
  | _ => True

instance (pushes pops capacity : Nat) (pc : Pc Item) : Decidable (pc.Prompt pushes pops capacity) := by
  cases pc <;> dsimp only [Pc.Prompt] <;> infer_instance

def Prompt (st : State Item) : Label Item → Prop
  | .step t => (st.pc t).Prompt st.pushes.length st.pops st.ring.capacity
  | _ => True

instance (st : State Item) (label : Label Item) : Decidable (Prompt st label) := by
  cases label <;> dsimp only [Prompt] <;> infer_instance

/-- What the ring holds, as a queue: the items of the positions pushes have claimed and pops have
not. -/
def State.queue (st : State Item) : List Item :=
  st.pushes.drop st.pops

end CognitiveOs.Infra.Ringbuf

/-!
# What the steps of the ring keep

The words of the ring show a row of slots with turns whose positions never wrap, as long as no thread
is overtaken. The invariant says which turns the words show and, of every thread, what it knows about
the position it has read or claimed.
-/

namespace CognitiveOs.Infra.Ringbuf

open Foundation

variable {Item : Type}

theorem diff_word {a b : Nat} (low : b < a + 9223372036854775808) (high : a < b + 9223372036854775808) :
    diff (word a) (word b) = (a : Int) - b := by
  unfold diff word Int.bmod
  have left := Nat.div_add_mod a wordSize
  have right := Nat.div_add_mod b wordSize
  simp only [wordSize] at left right ⊢
  split <;> omega

theorem word_succ (n : Nat) : word (word n + 1) = word (n + 1) := by
  simp [word]

theorem eq_of_word_eq {a b : Nat} (same : word a = word b) (low : b ≤ a) (near : a < b + wordSize) : a = b := by
  unfold word at same
  have left := Nat.div_add_mod a wordSize
  have right := Nat.div_add_mod b wordSize
  simp only [wordSize] at *
  omega

/-- A ring that `ringbuf_new` made has a power of two slots. -/
structure Shaped (r : Ring Item) : Prop where
  several : 2 ≤ r.capacity
  small : r.capacity * 8 < wordSize
  power : ∃ n, r.capacity = 2 ^ n
  mask : r.mask = r.capacity - 1

theorem shaped_of_new {capacity : Nat} {r : Ring Item} (made : ringbufNew capacity = some r) :
    Shaped r ∧ r.capacity = capacity ∧ r.enqueuePos = 0 ∧ r.dequeuePos = 0 ∧ r.seq = id := by
  unfold ringbufNew at made
  split at made
  · cases made
  · rename_i several
    rw [not_or, not_not] at several
    split at made
    · cases made
    · rename_i small
      obtain rfl := Option.some.inj made
      refine ⟨⟨Nat.le_of_not_lt several.1, Nat.lt_of_not_le small, ?_, rfl⟩, rfl, rfl, rfl, rfl⟩
      have nonzero : capacity ≠ 0 := by
        rintro rfl
        exact several.1 (by decide)
      exact (Nat.and_sub_one_eq_zero_iff_isPowerOfTwo nonzero).mp several.2

namespace Shaped

variable {r : Ring Item}

theorem cell (shaped : Shaped r) (k : Nat) : word k &&& r.mask = k % r.capacity := by
  obtain ⟨n, power⟩ := shaped.power
  have small := shaped.small
  rw [shaped.mask, power, Nat.and_two_pow_sub_one_eq_mod]
  refine Nat.mod_mod_of_dvd k ?_
  have under : 2 ^ n < 2 ^ 64 := by
    rw [← power]
    simp only [wordSize] at small
    omega
  have : n < 64 := (Nat.pow_lt_pow_iff_right (by decide)).mp under
  exact (Nat.pow_dvd_pow 2 this.le)

end Shaped

def Pc.filling : Pc Item → Option Nat
  | .pushData _ _ ticket => some ticket
  | .pushTurn _ _ ticket => some ticket
  | _ => none

def Pc.emptying : Pc Item → Option Nat
  | .popData _ ticket => some ticket
  | .popTurn _ ticket _ => some ticket
  | _ => none

def Fits (s : Turns) (slots : Nat) (pushes : List Item) (data : Nat → Option Item) : Pc Item → Prop
  | .pushSeq _ pos k => pos = word k ∧ k ≤ s.filled
  | .pushCas _ pos k => pos = word k ∧ k ≤ s.filled ∧ k ≤ s.turn (k % slots)
  | .pushData item pos k => pos = word k ∧ k < s.filled ∧ s.turn (k % slots) = k ∧ pushes[k]? = some item
  | .pushTurn item pos k =>
    pos = word k ∧ k < s.filled ∧ s.turn (k % slots) = k ∧ pushes[k]? = some item ∧ data (k % slots) = some item
  | .popSeq pos k => pos = word k ∧ k ≤ s.emptied
  | .popCas pos k => pos = word k ∧ k ≤ s.emptied ∧ k + 1 ≤ s.turn (k % slots)
  | .popData pos k => pos = word k ∧ k < s.emptied ∧ s.turn (k % slots) = k + 1
  | .popTurn pos k out => pos = word k ∧ k < s.emptied ∧ s.turn (k % slots) = k + 1 ∧ out = pushes[k]?
  | .emptySeq pos k => pos = word k ∧ k ≤ s.emptied
  | _ => True

structure Threads (st : State Item) (s : Turns) (slots : Nat) : Prop where
  fits : ∀ t, Fits s slots st.pushes st.ring.data (st.pc t)
  /-- a claimed position whose turn it is has its thread -/
  fillers : Workers (Pc.filling ∘ st.pc) fun k => k < s.filled ∧ s.turn (k % slots) = k
  emptiers : Workers (Pc.emptying ∘ st.pc) fun k => k < s.emptied ∧ s.turn (k % slots) = k + 1
  /-- a published position has the item of its push -/
  stored : ∀ k < s.filled, s.turn (k % slots) = k + 1 → st.ring.data (k % slots) = st.pushes[k]?
  /-- a returned position is released -/
  returned : ∀ r ∈ st.returned, r.1 < s.emptied ∧ r.1 + 2 ≤ s.turn (r.1 % slots) ∧ r.2 = st.pushes[r.1]?
  once : (st.returned.map Prod.fst).Nodup
  /-- a position that a pop has claimed is being emptied or returned -/
  left : ∀ k < s.emptied, s.turn (k % slots) = k + 1 ∨ k ∈ st.returned.map Prod.fst

structure Shows (st : State Item) (s : Turns) : Prop where
  shaped : Shaped st.ring
  filled : s.filled = st.pushes.length
  emptied : s.emptied = st.pops
  enqueuePos : st.ring.enqueuePos = word s.filled
  dequeuePos : st.ring.dequeuePos = word s.emptied
  seq : ∀ i < st.ring.capacity, st.ring.seq i = word (s.turn i)

/-- What a step does, seen from the turns: a thread only moves, or it claims a position, stores or
reads a payload, or passes its slot on. -/
inductive Acts (st : State Item) (s : Turns) : State Item → Turns → Prop where
  | moves (t : Nat) (pc : Pc Item) :
      Fits s st.ring.capacity st.pushes st.ring.data pc → pc.filling = (st.pc t).filling →
      pc.emptying = (st.pc t).emptying → Acts st s (st.goto t pc) s
  | claimsFill (t : Nat) (item : Item) :
      (st.pc t).filling = none → (st.pc t).emptying = none →
      s.turn (s.filled % st.ring.capacity) = s.filled →
      Acts st s
        { st.goto t (.pushData item (word s.filled) s.filled) with
          ring := { st.ring with enqueuePos := word (s.filled + 1) }
          pushes := st.pushes ++ [item] }
        s.claimFill
  | claimsEmpty (t : Nat) :
      (st.pc t).filling = none → (st.pc t).emptying = none →
      s.turn (s.emptied % st.ring.capacity) = s.emptied + 1 →
      Acts st s
        { st.goto t (.popData (word s.emptied) s.emptied) with
          ring := { st.ring with dequeuePos := word (s.emptied + 1) }
          pops := s.emptied + 1 }
        s.claimEmpty
  | stores (t k : Nat) (item : Item) :
      st.pc t = .pushData item (word k) k →
      Acts st s
        { st.goto t (.pushTurn item (word k) k) with
          ring := { st.ring with data := Function.update st.ring.data (k % st.ring.capacity) (some item) } }
        s
  | fills (t k : Nat) (item : Item) :
      st.pc t = .pushTurn item (word k) k →
      Acts st s
        { st.goto t (.done (.pushed 1)) with
          ring := { st.ring with seq := Function.update st.ring.seq (k % st.ring.capacity) (word (k + 1)) } }
        (s.pass (k % st.ring.capacity) (k + 1))
  | empties (t k : Nat) (out : Option Item) :
      st.pc t = .popTurn (word k) k out →
      Acts st s
        { st.goto t (.done (.popped 1 out)) with
          ring :=
            { st.ring with
              seq := Function.update st.ring.seq (k % st.ring.capacity) (word (k + st.ring.capacity)) }
          returned := st.returned ++ [(k, out)] }
        (s.pass (k % st.ring.capacity) (k + st.ring.capacity))

structure Kept (st : State Item) (s : Turns) : Prop where
  words : Shows st s
  sound : s.Sound st.ring.capacity
  threads : Threads st s st.ring.capacity

end CognitiveOs.Infra.Ringbuf
