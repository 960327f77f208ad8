import CognitiveOs.Foundation.Machine
import CognitiveOs.Foundation.Upsert
import CognitiveOs.Infra.Scan
import Mathlib.Data.List.Perm.Basic

/-!
# The working memory and its vectors

`memory_working_push` of `memory/memory.c` over `memory/vector.c`, with any number of
calls in progress. Each of its sections under a lock is one step: the ring takes the
text, the vector is added, and the vector of the evicted item is removed.
-/

namespace CognitiveOs.Memory.Working

open Foundation Foundation.Upsert Infra

def workingCap : Nat := 64

/-- `vec_entry`, without the embedding. -/
structure VecEntry where
  id : Text
  text : Text
  tag : Text
  deriving DecidableEq

/-- `struct vectorstore`: no two entries under one id. -/
structure VectorStore where
  items : List VecEntry := []
  distinct : (items.map VecEntry.id).Nodup := by simp

/-- `vectorstore_add`. -/
def VectorStore.add (v : VectorStore) (id text tag : Text) : VectorStore where
  items := upsert VecEntry.id ⟨id, text, tag⟩ v.items
  distinct := upsert_distinct _ _ v.distinct

/-- `vectorstore_remove`. -/
def VectorStore.remove (v : VectorStore) (id : Text) : VectorStore where
  items := eraseKey VecEntry.id id v.items
  distinct := eraseKey_distinct id v.distinct

structure Item where
  id : Text
  text : Text
  deriving DecidableEq

/-- `m->working`, the newest item first: `items` and `ids` side by side. -/
structure Ring where
  items : List Item := []
  fits : items.length ≤ workingCap := by decide

/-- `"w:%zu"`. -/
def workingId (seq : Nat) : Text :=
  ascii "w:" ++ decimal seq

/-- Where a call of `memory_working_push` stands. -/
inductive Phase where
  /-- Before the section of `vectorstore_add`. -/
  | adding
  /-- Before the section of `vectorstore_remove`. -/
  | removing
  | returned
  deriving DecidableEq

structure Call where
  id : Text
  text : Text
  evictId : Option Text
  phase : Phase
  deriving DecidableEq

/-- `struct memory`, with its calls in the order in which they took the lock. -/
structure State where
  seq : Nat := 0
  working : Ring := {}
  vectors : VectorStore := {}
  calls : List Call := []

def Ring.evicted (r : Ring) : Option Text :=
  if r.items.length = workingCap then r.items.getLast?.map Item.id else none

def Ring.push (r : Ring) (item : Item) : Ring where
  items := item :: r.items.take (workingCap - 1)
  fits := by
    rw [List.length_cons, List.length_take]
    have positive : 1 ≤ workingCap := by decide
    omega

/-- The sections under `m->mtx` and `v->mtx`. -/
inductive Section where
  | push (text : Text)
  | add (call : Nat)
  | remove (call : Nat)

def State.push (m : State) (text : Text) : State :=
  { m with
    seq := m.seq + 1
    working := m.working.push ⟨workingId m.seq, text⟩
    calls := m.calls ++ [⟨workingId m.seq, text, m.working.evicted, .adding⟩] }

def Call.added (c : Call) : Call :=
  { c with phase := if c.evictId.isSome then .removing else .returned }

def State.step (m : State) : Section → Option State
  | .push text => some (m.push text)
  | .add call =>
    match m.calls[call]? with
    | some c =>
      if c.phase = .adding then
        some { m with
          vectors := m.vectors.add c.id c.text (ascii "working")
          calls := m.calls.set call c.added }
      else none
    | none => none
  | .remove call =>
    match m.calls[call]? with
    | some c =>
      if c.phase = .removing then
        some { m with
          vectors := c.evictId.elim m.vectors m.vectors.remove
          calls := m.calls.set call { c with phase := .returned } }
      else none
    | none => none

def State.quiet (m : State) : Prop := ∀ c ∈ m.calls, c.phase = .returned

def State.workingVectors (m : State) : List VecEntry :=
  m.vectors.items.filter fun e => e.tag = ascii "working"

def Item.entry (item : Item) : VecEntry := ⟨item.id, item.text, ascii "working"⟩

def State.InStep (m : State) : Prop :=
  m.workingVectors.Perm (m.working.items.map Item.entry) ∧ m.workingVectors.length ≤ workingCap

def Orderly (m : State) : Section → Prop
  | .remove call => ∀ c ∈ m.calls[call]?, ∀ owner ∈ m.calls, some owner.id = c.evictId → owner.phase ≠ .adding
  | _ => True

instance (m : State) (step : Section) : Decidable (Orderly m step) := by
  cases step with
  | remove call => exact inferInstanceAs (Decidable (∀ c ∈ m.calls[call]?, _))
  | push | add => exact isTrue trivial

/-- A memory in which no text has been pushed yet: its vectors are of other kinds. -/
structure Fresh (m : State) : Prop where
  empty : m.working.items = []
  idle : m.calls = []
  foreign : ∀ e ∈ m.vectors.items, e.tag ≠ ascii "working" ∧ ∀ seq, e.id ≠ workingId seq

theorem workingId_inj {m n : Nat} (same : workingId m = workingId n) : m = n := by
  have digits := List.append_cancel_left same
  rw [← digitsValue_decimal m, digits, digitsValue_decimal]

namespace Call

def item (c : Call) : Item := ⟨c.id, c.text⟩

end Call

namespace State

variable {m t : State}

def phaseAt (m : State) (k : Nat) : Option Phase := m.calls[k]?.map Call.phase

/-- The vector of the `k`-th call has been added, and the call that evicts its item has
not taken it away. -/
def Live (m : State) (k : Nat) : Prop :=
  (∃ p, m.phaseAt k = some p ∧ p ≠ .adding) ∧ m.phaseAt (k + workingCap) ≠ some .returned

end State

def VecEntry.Foreign (e : VecEntry) : Prop :=
  e.tag ≠ ascii "working" ∧ ∀ seq, e.id ≠ workingId seq

/-- What an orderly run keeps: the calls are numbered on from `first`, the ring holds the
newest items, and the vectors of the working memory are the live ones. -/
structure Follows (first : Nat) (m : State) : Prop where
  seq : m.seq = first + m.calls.length
  ids : ∀ k c, m.calls[k]? = some c → c.id = workingId (first + k)
  ring : m.working.items = (m.calls.map Call.item).reverse.take workingCap
  evict : ∀ k c, m.calls[k]? = some c →
    c.evictId = if workingCap ≤ k then some (workingId (first + (k - workingCap))) else none
  known : ∀ e ∈ m.vectors.items, e.Foreign ∨ ∃ k c, m.calls[k]? = some c ∧ m.Live k ∧ e = c.item.entry
  present : ∀ k c, m.calls[k]? = some c → m.Live k → c.item.entry ∈ m.vectors.items
  order : ∀ k, m.phaseAt k = some .adding → m.phaseAt (k + workingCap) ≠ some .returned

theorem follows_fresh {m : State} (fresh : Fresh m) : Follows m.seq m where
  seq := by simp [fresh.idle]
  ids := by simp [fresh.idle]
  ring := by simp [fresh.idle, fresh.empty]
  evict := by simp [fresh.idle]
  known := fun e member => .inl (fresh.foreign e member)
  present := by simp [fresh.idle]
  order := by simp [State.phaseAt, fresh.idle]

variable {first : Nat} {m t : State}

theorem Follows.evicted (follows : Follows first m) : m.working.evicted =
    if workingCap ≤ m.calls.length then some (workingId (first + (m.calls.length - workingCap))) else none := by
  have positive : 0 < workingCap := by decide
  unfold Ring.evicted
  rw [follows.ring, List.length_take, List.length_reverse, List.length_map]
  by_cases full : workingCap ≤ m.calls.length
  · rw [if_pos (by omega), if_pos full]
    have place : m.calls.length - 1 - (workingCap - 1) = m.calls.length - workingCap := by omega
    obtain ⟨c, found⟩ : ∃ c, m.calls[m.calls.length - workingCap]? = some c :=
      ⟨_, List.getElem?_eq_getElem (by omega)⟩
    have last : ((m.calls.map Call.item).reverse.take workingCap).getLast? = some c.item := by
      rw [List.getLast?_eq_getElem?, List.length_take, List.length_reverse, List.length_map,
        Nat.min_eq_left full, List.getElem?_take_of_lt (by omega), List.getElem?_reverse (by simp; omega),
        List.length_map, place, List.getElem?_map, found]
      rfl
    rw [last, Option.map_some]
    exact congrArg some (follows.ids _ c found)
  · rw [if_neg (by omega), if_neg full]

theorem phaseAt_push (text : Text) (k : Nat) : (m.push text).phaseAt k =
    if k = m.calls.length then some .adding else m.phaseAt k := by
  unfold State.phaseAt State.push
  simp only
  rcases Nat.lt_trichotomy k m.calls.length with old | rfl | beyond
  · rw [List.getElem?_append_left old, if_neg (by omega)]
  · simp
  · rw [List.getElem?_eq_none (by simp; omega), if_neg (by omega), List.getElem?_eq_none (by omega)]

theorem live_push {text : Text} {k : Nat} : (m.push text).Live k ↔ m.Live k := by
  have positive : 0 < workingCap := by decide
  have beyond : ∀ k : Nat, m.calls.length ≤ k → m.phaseAt k = none := by
    intro k bound
    rw [State.phaseAt, List.getElem?_eq_none bound]
    rfl
  unfold State.Live
  rw [phaseAt_push, phaseAt_push]
  by_cases new : k = m.calls.length
  · subst new
    simp [beyond]
  · rw [if_neg new]
    by_cases later : k + workingCap = m.calls.length
    · rw [if_pos later, later, beyond _ (Nat.le_refl _)]
      simp
    · rw [if_neg later]

theorem Follows.push (follows : Follows first m) (text : Text) : Follows first (m.push text) := by
  have cases : ∀ (k : Nat) (c : Call), (m.push text).calls[k]? = some c → m.calls[k]? = some c ∨
      k = m.calls.length ∧ c = ⟨workingId m.seq, text, m.working.evicted, .adding⟩ := by
    intro k c found
    unfold State.push at found
    simp only at found
    rcases Nat.lt_trichotomy k m.calls.length with old | rfl | beyond
    · rw [List.getElem?_append_left old] at found
      exact .inl found
    · simp at found
      exact .inr ⟨rfl, found.symm⟩
    · rw [List.getElem?_eq_none (by simp; omega)] at found
      cases found
  have kept : ∀ (k : Nat) (c : Call), m.calls[k]? = some c → (m.push text).calls[k]? = some c := by
    intro k c found
    have old := (List.getElem?_eq_some_iff.mp found).1
    unfold State.push
    simp only
    rw [List.getElem?_append_left old]
    exact found
  refine ⟨?_, ?_, ?_, ?_, ?_, ?_, ?_⟩
  · simp [State.push, follows.seq, Nat.add_assoc]
  · intro k c found
    rcases cases k c found with old | ⟨rfl, rfl⟩
    · exact follows.ids k c old
    · exact congrArg workingId follows.seq
  · simp only [State.push, Ring.push, List.map_append, List.map_singleton, List.reverse_append, List.reverse_singleton,
      List.singleton_append]
    rw [follows.ring, List.take_take]
    rfl
  · intro k c found
    rcases cases k c found with old | ⟨rfl, rfl⟩
    · exact follows.evict k c old
    · exact follows.evicted
  · intro e member
    rcases follows.known e member with foreign | ⟨k, c, found, live, same⟩
    · exact .inl foreign
    · exact .inr ⟨k, c, kept k c found, live_push.mpr live, same⟩
  · intro k c found live
    rw [live_push] at live
    rcases cases k c found with old | ⟨rfl, rfl⟩
    · exact follows.present k c old live
    · obtain ⟨⟨p, at_, _⟩, _⟩ := live
      simp [State.phaseAt] at at_
  · intro k adding
    rw [phaseAt_push] at adding ⊢
    by_cases later : k + workingCap = m.calls.length
    · rw [if_pos later]
      simp
    · rw [if_neg later]
      by_cases new : k = m.calls.length
      · subst new
        rw [State.phaseAt, List.getElem?_eq_none (by omega)]
        simp
      · rw [if_neg new] at adding
        exact follows.order k adding

structure Moves (m t : State) (n : Nat) (old new : Call) : Prop where
  found : m.calls[n]? = some old
  calls : t.calls = m.calls.set n new
  item : new.item = old.item
  evict : new.evictId = old.evictId
  seq : t.seq = m.seq
  working : t.working = m.working

namespace Moves

variable {n : Nat} {old new : Call}

theorem phaseAt (moves : Moves m t n old new) (k : Nat) :
    t.phaseAt k = if k = n then some new.phase else m.phaseAt k := by
  have inside := (List.getElem?_eq_some_iff.mp moves.found).1
  unfold State.phaseAt
  rw [moves.calls]
  by_cases here : k = n
  · subst here
    rw [if_pos rfl, List.getElem?_set_self inside]
    rfl
  · rw [if_neg here, List.getElem?_set_ne (Ne.symm here)]

theorem call (moves : Moves m t n old new) {k : Nat} {c : Call} (found : t.calls[k]? = some c) :
    ∃ before, m.calls[k]? = some before ∧ c.item = before.item ∧ c.evictId = before.evictId := by
  have inside := (List.getElem?_eq_some_iff.mp moves.found).1
  rw [moves.calls] at found
  by_cases here : k = n
  · subst here
    rw [List.getElem?_set_self inside] at found
    obtain rfl := Option.some.inj found
    exact ⟨old, moves.found, moves.item, moves.evict⟩
  · rw [List.getElem?_set_ne (Ne.symm here)] at found
    exact ⟨c, found, rfl, rfl⟩

theorem call' (moves : Moves m t n old new) {k : Nat} {c : Call} (found : m.calls[k]? = some c) :
    ∃ after, t.calls[k]? = some after ∧ after.item = c.item := by
  have inside := (List.getElem?_eq_some_iff.mp moves.found).1
  rw [moves.calls]
  by_cases here : k = n
  · subst here
    obtain rfl := Option.some.inj (moves.found.symm.trans found)
    exact ⟨new, List.getElem?_set_self inside, moves.item⟩
  · exact ⟨c, by rw [List.getElem?_set_ne (Ne.symm here)]; exact found, rfl⟩

theorem items (moves : Moves m t n old new) : t.calls.map Call.item = m.calls.map Call.item := by
  rw [moves.calls]
  exact keys_set moves.found moves.item

theorem pending (moves : Moves m t n old new) (done : new.phase ≠ .adding) {k : Nat}
    (adding : t.phaseAt k = some .adding) : k ≠ n ∧ m.phaseAt k = some .adding := by
  rw [moves.phaseAt] at adding
  have own : k ≠ n := by
    rintro rfl
    rw [if_pos rfl] at adding
    exact done (Option.some.inj adding)
  rw [if_neg own] at adding
  exact ⟨own, adding⟩

theorem live_added (moves : Moves m t n old new) (here : m.phaseAt n = some .adding) (done : new.phase ≠ .adding)
    (evicting : workingCap ≤ n → new.phase ≠ .returned) (order : m.phaseAt (n + workingCap) ≠ some .returned)
    (k : Nat) : t.Live k ↔ k = n ∨ m.Live k := by
  have later : n + workingCap ≠ n := by
    have positive : 0 < workingCap := by decide
    omega
  unfold State.Live
  rw [moves.phaseAt, moves.phaseAt]
  by_cases own : k = n
  · subst own
    rw [if_pos rfl, if_neg later]
    simp [done, order]
  · rw [if_neg own]
    by_cases evictor : k + workingCap = n
    · rw [if_pos evictor, evictor, here]
      simp [own, evicting (by omega)]
    · rw [if_neg evictor]
      simp [own]

theorem live_returned (moves : Moves m t n old new) (here : m.phaseAt n = some .removing)
    (returned : new.phase = .returned) (k : Nat) : t.Live k ↔ m.Live k ∧ k + workingCap ≠ n := by
  have positive : 0 < workingCap := by decide
  unfold State.Live
  rw [moves.phaseAt, moves.phaseAt, returned]
  by_cases evictor : k + workingCap = n
  · rw [if_pos evictor]
    simp [evictor]
  · rw [if_neg evictor]
    by_cases own : k = n
    · subst own
      rw [if_pos rfl, here]
      simp [Nat.ne_of_gt positive]
    · rw [if_neg own]
      simp [evictor]

theorem follows (moves : Moves m t n old new) (follows : Follows first m)
    (known : ∀ e ∈ t.vectors.items, e.Foreign ∨ ∃ k c, m.calls[k]? = some c ∧ t.Live k ∧ e = c.item.entry)
    (present : ∀ k c, m.calls[k]? = some c → t.Live k → c.item.entry ∈ t.vectors.items)
    (order : ∀ k, t.phaseAt k = some .adding → t.phaseAt (k + workingCap) ≠ some .returned) : Follows first t where
  seq := by rw [moves.seq, moves.calls, List.length_set, follows.seq]
  ids := by
    intro k c found
    obtain ⟨before, was, same, _⟩ := moves.call found
    have id : c.id = before.id := congrArg Item.id same
    rw [id]
    exact follows.ids k before was
  ring := by rw [moves.working, moves.items, follows.ring]
  evict := by
    intro k c found
    obtain ⟨before, was, _, same⟩ := moves.call found
    rw [same]
    exact follows.evict k before was
  known := by
    intro e member
    rcases known e member with foreign | ⟨k, c, found, live, same⟩
    · exact .inl foreign
    · obtain ⟨after, now, item⟩ := moves.call' found
      exact .inr ⟨k, after, now, live, by rw [item]; exact same⟩
  present := by
    intro k c found live
    obtain ⟨before, was, same, _⟩ := moves.call found
    rw [same]
    exact present k before was live
  order := order

end Moves

theorem phaseAt_of_call {n : Nat} {c : Call} (found : m.calls[n]? = some c) : m.phaseAt n = some c.phase := by
  rw [State.phaseAt, found]
  rfl

theorem Follows.evictId_iff (follows : Follows first m) {n k : Nat} {c c' : Call} (found : m.calls[n]? = some c)
    (found' : m.calls[k]? = some c') : some c'.id = c.evictId ↔ k + workingCap = n := by
  rw [follows.ids k c' found', follows.evict n c found]
  split
  next late =>
    constructor
    · intro same
      have := workingId_inj (Option.some.inj same)
      omega
    · intro same
      rw [show first + (n - workingCap) = first + k by omega]
  next early =>
    constructor
    · intro same
      cases same
    · intro same
      omega

theorem Follows.add (follows : Follows first m) {n : Nat} {c : Call} (found : m.calls[n]? = some c)
    (adding : c.phase = .adding) :
    Follows first { m with
      vectors := m.vectors.add c.id c.text (ascii "working")
      calls := m.calls.set n c.added } := by
  generalize after : ({ m with
      vectors := m.vectors.add c.id c.text (ascii "working")
      calls := m.calls.set n c.added } : State) = t
  have moves : Moves m t n c c.added := by
    subst after
    exact ⟨found, rfl, rfl, rfl, rfl, rfl⟩
  have vectors : t.vectors.items = upsert VecEntry.id c.item.entry m.vectors.items := by
    subst after
    rfl
  have here : m.phaseAt n = some .adding := by rw [phaseAt_of_call found, adding]
  have notAdding : c.added.phase ≠ .adding := by
    unfold Call.added
    simp only
    split <;> simp
  have evicting : workingCap ≤ n → c.added.phase ≠ .returned := by
    intro late
    have id := follows.evict n c found
    rw [if_pos late] at id
    simp [Call.added, id]
  have live := moves.live_added here notAdding evicting (follows.order n here)
  refine moves.follows follows ?_ ?_ ?_
  · intro e member
    rw [vectors, mem_upsert m.vectors.distinct] at member
    rcases member with rfl | ⟨old, _⟩
    · exact .inr ⟨n, c, found, (live n).mpr (.inl rfl), rfl⟩
    · rcases follows.known e old with foreign | ⟨k, c', found', alive, same⟩
      · exact .inl foreign
      · exact .inr ⟨k, c', found', (live k).mpr (.inr alive), same⟩
  · intro k c' found' alive
    rw [vectors, mem_upsert m.vectors.distinct]
    by_cases own : k = n
    · subst own
      obtain rfl := Option.some.inj (found.symm.trans found')
      exact .inl rfl
    · rcases (live k).mp alive with same | before
      · exact absurd same own
      · refine .inr ⟨follows.present k c' found' before, ?_⟩
        intro same
        have ids : c'.id = c.id := same
        rw [follows.ids k c' found', follows.ids n c found] at ids
        have := workingId_inj ids
        omega
  · intro k adding'
    obtain ⟨-, before⟩ := moves.pending notAdding adding'
    rw [moves.phaseAt]
    split
    next evictor =>
      intro returned
      exact evicting (by omega) (Option.some.inj returned)
    next => exact follows.order k before

theorem Follows.remove (follows : Follows first m) {n : Nat} {c : Call} (found : m.calls[n]? = some c)
    (removing : c.phase = .removing) (orderly : Orderly m (.remove n)) :
    Follows first { m with
      vectors := c.evictId.elim m.vectors m.vectors.remove
      calls := m.calls.set n { c with phase := .returned } } := by
  generalize after : ({ m with
      vectors := c.evictId.elim m.vectors m.vectors.remove
      calls := m.calls.set n { c with phase := .returned } } : State) = t
  have moves : Moves m t n c { c with phase := .returned } := by
    subst after
    exact ⟨found, rfl, rfl, rfl, rfl, rfl⟩
  have members : ∀ e, e ∈ t.vectors.items ↔ e ∈ m.vectors.items ∧ some e.id ≠ c.evictId := by
    intro e
    subst after
    cases evicted : c.evictId with
    | none => simp
    | some id => simp [VectorStore.remove, mem_eraseKey m.vectors.distinct]
  have here : m.phaseAt n = some .removing := by rw [phaseAt_of_call found, removing]
  have live := moves.live_returned here rfl
  refine moves.follows follows ?_ ?_ ?_
  · intro e member
    obtain ⟨old, other⟩ := (members e).mp member
    rcases follows.known e old with foreign | ⟨k, c', found', alive, same⟩
    · exact .inl foreign
    · subst same
      exact .inr ⟨k, c', found', (live k).mpr ⟨alive, fun evictor =>
        other ((follows.evictId_iff found found').mpr evictor)⟩, rfl⟩
  · intro k c' found' alive
    obtain ⟨before, evictor⟩ := (live k).mp alive
    exact (members _).mpr ⟨follows.present k c' found' before, fun same =>
      evictor ((follows.evictId_iff found found').mp same)⟩
  · intro k adding
    obtain ⟨-, before⟩ := moves.pending (show Phase.returned ≠ .adding by decide) adding
    rw [moves.phaseAt]
    by_cases evictor : k + workingCap = n
    · obtain ⟨owner, owned, phase⟩ := Option.map_eq_some_iff.mp before
      exact absurd phase
        (orderly c found owner (List.mem_of_getElem? owned) ((follows.evictId_iff found owned).mpr evictor))
    · rw [if_neg evictor]
      exact follows.order k before

theorem Follows.step (follows : Follows first m) {label : Section} (orderly : Orderly m label)
    (done : m.step label = some t) : Follows first t := by
  cases label with
  | push text =>
    obtain rfl := Option.some.inj done
    exact follows.push text
  | add n =>
    simp only [State.step] at done
    split at done
    · split at done
      · cases done
        exact follows.add ‹_› ‹_›
      · cases done
    · cases done
  | remove n =>
    simp only [State.step] at done
    split at done
    · split at done
      · cases done
        exact follows.remove ‹_› ‹_› orderly
      · cases done
    · cases done

theorem Follows.inStep (follows : Follows first m) (quiet : m.quiet) : m.InStep := by
  have live : ∀ (k : Nat) (c : Call), m.calls[k]? = some c → (m.Live k ↔ m.calls.length ≤ k + workingCap) := by
    intro k c found
    have returned := quiet c (List.mem_of_getElem? found)
    unfold State.Live
    rw [phaseAt_of_call found, returned]
    constructor
    · rintro ⟨-, young⟩
      by_contra old
      have there : m.calls[k + workingCap]? = some m.calls[k + workingCap] := List.getElem?_eq_getElem (by omega)
      rw [phaseAt_of_call there, quiet _ (List.mem_of_getElem? there)] at young
      exact young rfl
    · intro young
      rw [State.phaseAt, List.getElem?_eq_none young]
      exact ⟨⟨.returned, rfl, by simp⟩, by simp⟩
  have same : m.workingVectors.Perm (m.working.items.map Item.entry) := by
    have left : m.workingVectors.Nodup := (List.Nodup.of_map _ m.vectors.distinct).filter _
    have ids : (m.calls.map Call.id).Nodup := by
      rw [List.Nodup, List.pairwise_map, List.pairwise_iff_getElem]
      intro i j inside inside' before equal
      have one := follows.ids i _ (List.getElem?_eq_getElem inside)
      have two := follows.ids j _ (List.getElem?_eq_getElem inside')
      have := workingId_inj (one.symm.trans (equal.trans two))
      omega
    have right : (m.working.items.map Item.entry).Nodup := by
      rw [follows.ring]
      refine List.Nodup.of_map VecEntry.id ?_
      rw [List.map_map]
      have named : (m.calls.map Call.item).map (VecEntry.id ∘ Item.entry) = m.calls.map Call.id := by
        rw [List.map_map]
        rfl
      have all : ((m.calls.map Call.item).reverse.map (VecEntry.id ∘ Item.entry)).Nodup := by
        rw [List.map_reverse, List.nodup_reverse, named]
        exact ids
      exact all.sublist ((List.take_sublist _ _).map _)
    refine (List.perm_ext_iff_of_nodup left right).mpr ?_
    intro e
    rw [State.workingVectors, List.mem_filter, decide_eq_true_eq, List.mem_map]
    constructor
    · rintro ⟨member, tag⟩
      rcases follows.known e member with foreign | ⟨k, c, found, alive, rfl⟩
      · exact absurd tag foreign.1
      · refine ⟨c.item, ?_, rfl⟩
        have young := (live k c found).mp alive
        have inside := (List.getElem?_eq_some_iff.mp found).1
        rw [follows.ring]
        refine List.mem_of_getElem? (i := m.calls.length - 1 - k) ?_
        rw [List.getElem?_take_of_lt (by omega), List.getElem?_reverse (by simp; omega), List.length_map,
          show m.calls.length - 1 - (m.calls.length - 1 - k) = k by omega, List.getElem?_map, found]
        rfl
    · rintro ⟨item, member, rfl⟩
      rw [follows.ring] at member
      obtain ⟨index, at_⟩ := List.mem_iff_getElem?.mp member
      have bound := (List.getElem?_eq_some_iff.mp at_).1
      rw [List.length_take, List.length_reverse, List.length_map] at bound
      rw [List.getElem?_take_of_lt (by omega), List.getElem?_reverse (by simp; omega), List.length_map,
        List.getElem?_map] at at_
      obtain ⟨c, found, rfl⟩ := Option.map_eq_some_iff.mp at_
      exact ⟨follows.present _ c found ((live _ c found).mpr (by omega)), rfl⟩
  refine ⟨same, ?_⟩
  rw [same.length_eq, List.length_map]
  exact m.working.fits

/-- In every run in which no vector is removed before the call that owns it has added it,
whenever all calls have returned the working vectors are those of the ring. -/
theorem working_vectors_in_step {m₀ m : State} {sections : List Section} (fresh : Fresh m₀)
    (run : ((Machine.ofPartial State.step).restrict Orderly).Run m₀ sections m) (quiet : m.quiet) : m.InStep := by
  have follows : Follows m₀.seq m := by
    refine run.invariant ?_ (follows_fresh fresh)
    rintro s label t kept ⟨orderly, done⟩
    exact kept.step orderly done
  exact follows.inStep quiet

/-- Sixty-five calls: the first claims its slot, the others run to their end, and the first
adds its vector after the last has removed it. -/
def lappedRun : List Section :=
  .push (ascii "0") :: (List.range 63).flatMap (fun k => [.push (ascii "n"), .add (k + 1)]) ++
    [.push (ascii "n"), .add 64, .remove 64, .add 0]

theorem working_vectors_lapped :
    ∃ m, (Machine.ofPartial State.step).Run {} lappedRun m ∧ m.quiet ∧ m.working.items.length = 64 ∧
      m.workingVectors.length = 65 ∧ ¬ m.InStep := by
  have finishes : (Machine.exec State.step {} lappedRun).any fun m =>
      m.calls.all (fun c => c.phase = .returned) && m.working.items.length = 64 && m.workingVectors.length = 65 := by
    decide +kernel
  obtain ⟨m, run, finished⟩ := (Option.any_eq_true _ _).mp finishes
  simp only [Bool.and_eq_true, decide_eq_true_eq, List.all_eq_true] at finished
  obtain ⟨⟨quiet, items⟩, vectors⟩ := finished
  refine ⟨m, Machine.run_ofPartial_of_exec run, quiet, items, vectors, ?_⟩
  rintro ⟨-, bound⟩
  rw [vectors] at bound
  exact absurd bound (by decide)

/-- Two calls whose sections interleave, on a memory that holds an episode. -/
theorem working_vectors_in_step_interleaved :
    ∃ m : State, m.quiet ∧ m.InStep ∧ m.workingVectors.length = 2 := by
  have finishes : (Machine.exec (fun m step => if Orderly m step then State.step m step else none)
      { seq := 1, vectors := ⟨[⟨ascii "e:0", ascii "task", ascii "episode"⟩], by decide⟩ }
      [.push (ascii "a"), .push (ascii "b"), .add 1, .add 0]).any fun m =>
        m.calls.all (fun c => c.phase = .returned) && m.workingVectors.length = 2 := by
    decide +kernel
  obtain ⟨m, executed, finished⟩ := (Option.any_eq_true _ _).mp finishes
  simp only [Bool.and_eq_true, decide_eq_true_eq, List.all_eq_true] at finished
  refine ⟨m, finished.1, working_vectors_in_step ⟨rfl, rfl, ?_⟩ (Machine.run_restrict_of_checked executed) finished.1,
    finished.2⟩
  intro e member
  obtain rfl := List.mem_singleton.mp member
  refine ⟨by decide, ?_⟩
  intro seq same
  have head := congrArg List.head? same
  simp [workingId, ascii] at head

end CognitiveOs.Memory.Working
