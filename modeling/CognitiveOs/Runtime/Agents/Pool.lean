import CognitiveOs.Foundation.Probing
import CognitiveOs.Infra.Text
import Mathlib.Data.List.Nodup

/-!
# The pool of agents

`runtime/agent.c`: an array of agents and an open-addressed index of their names. A slot of the index has the
position of an agent; the source stores the position plus one, with 0 for none. A search that would go around
for ever is `none`.
-/

namespace CognitiveOs.Runtime.Agents

open Foundation Infra

structure PoolEntry where
  name : Text
  role : Text
  provider : Option Text
  model : Option Text
  deriving DecidableEq

/-- `struct agent_pool`, without the blackboard; `slots` has `name_cap` slots. -/
structure Pool where
  agents : List PoolEntry := []
  cap : Nat := 0
  slots : List (Option Nat) := []

structure Allocations where
  slots : Bool := true
  agents : Bool := true
  strings : Bool := true

/-! ### The index -/

def home (nameCap : Nat) (name : Text) : Nat :=
  (hash64 name).toNat &&& (nameCap - 1)

def nextSlot (nameCap slot : Nat) : Nat :=
  (slot + 1) &&& (nameCap - 1)

def hasName (agents : List PoolEntry) (name : Text) (i : Nat) : Bool :=
  agents[i]?.any fun agent => agent.name = name

/-- `find_agent`; the answer -1 is `some none`. -/
def findAgent (p : Pool) (name : Text) : Option (Option Nat) :=
  let nameCap := p.slots.length
  if nameCap = 0 then some none
  else
    (Probing.seek (nextSlot nameCap) (Probing.sought (hasName p.agents name)) p.slots nameCap
      (home nameCap name)).bind fun slot => p.slots[slot]?

def nameIndexInsert (agents : List PoolEntry) (slots : List (Option Nat)) (idx : Nat) : Option (List (Option Nat)) :=
  agents[idx]?.bind fun agent =>
    (Probing.seek (nextSlot slots.length) Option.isNone slots slots.length (home slots.length agent.name)).map
      fun slot => slots.set slot (some idx)

/-- The loop that indexes the first `count` agents. -/
def indexAll (agents : List PoolEntry) : (count : Nat) → List (Option Nat) → Option (List (Option Nat))
  | 0, slots => some slots
  | count + 1, slots => (indexAll agents count slots).bind fun slots => nameIndexInsert agents slots count

/-- `name_index_reserve`; the answer -1 is `some none`. -/
def nameIndexReserve (p : Pool) (futureCount : Nat) (allocated : Bool) : Option (Option Pool) :=
  let nameCap := p.slots.length
  if nameCap ≠ 0 ∧ futureCount * 10 % 2 ^ 64 < nameCap * 7 % 2 ^ 64 then some (some p)
  else
    let cap := if nameCap ≠ 0 then nameCap * 2 % 2 ^ 64 else 16
    if cap < nameCap ∨ (2 ^ 64 - 1) / 8 < cap then some none
    else if !allocated then some none
    else (indexAll p.agents p.agents.length (List.replicate cap none)).map fun slots => some { p with slots }

/-! ### The operations -/

/-- `agent_pool_add_model`; a missing role is an empty one, and the answer -1 is `none`. -/
def agentPoolAddModel (p : Pool) (name role : Text) (provider model : Option Text) (a : Allocations) :
    Option (Pool × Option Nat) :=
  if name = [] then some (p, none)
  else do
    match ← findAgent p name with
    | some _ => return (p, none)
    | none =>
      if 2 ^ 31 - 1 ≤ p.agents.length then return (p, none)
      else
        match ← nameIndexReserve p (p.agents.length + 1) a.slots with
        | none => return (p, none)
        | some p =>
          if p.agents.length = p.cap ∧ !a.agents then return (p, none)
          else
            let p :=
              if p.agents.length = p.cap then { p with cap := if p.cap ≠ 0 then p.cap * 2 else 8 } else p
            if !a.strings then return (p, none)
            else
              let agents := p.agents ++ [⟨name, role, provider, model⟩]
              let slots ← nameIndexInsert agents p.slots p.agents.length
              return ({ p with agents, slots }, some p.agents.length)

/-- `(text && *text) ? xstrdup(text) : NULL` -/
def stored (text : Option Text) (a : Allocations) : Option Text :=
  if a.strings then text.filter (· ≠ []) else none

/-- `agent_pool_set_model`; the answer 0 is `some 0`. -/
def agentPoolSetModel (p : Pool) (name : Text) (provider model : Option Text) (a : Allocations) :
    Option (Pool × Option Nat) :=
  if name = [] then some (p, none)
  else
    (findAgent p name).map fun
      | none => (p, none)
      | some idx =>
        let set (agent : PoolEntry) := { agent with provider := stored provider a, model := stored model a }
        ({ p with agents := p.agents.modify idx set }, some 0)

def agentPoolRemove (p : Pool) (name : Text) : Option (Pool × Option Nat) :=
  if name = [] then some (p, none)
  else do
    match ← findAgent p name with
    | none => return (p, none)
    | some idx =>
      let agents := p.agents.eraseIdx idx
      let slots ← indexAll agents agents.length (List.replicate p.slots.length none)
      return ({ p with agents, slots }, some 0)

inductive PoolOp where
  | add (name role : Text) (provider model : Option Text)
  | setModel (name : Text) (provider model : Option Text)
  | remove (name : Text)

def poolStep (p : Pool) (a : Allocations) : PoolOp → Option (Pool × Option Nat)
  | .add name role provider model => agentPoolAddModel p name role provider model a
  | .setModel name provider model => agentPoolSetModel p name provider model a
  | .remove name => agentPoolRemove p name

def poolRun : Pool → List (Allocations × PoolOp) → Option Pool
  | p, [] => some p
  | p, (a, op) :: rest => (poolStep p a op).bind fun next => poolRun next.1 rest

/-! ### The list of agents that the pool stands for -/

def names (agents : List PoolEntry) : List Text :=
  agents.map PoolEntry.name

def linearFind (agents : List PoolEntry) (name : Text) : Option Nat :=
  (names agents).idxOf? name

/-- What a call may do to a list of agents that is searched, and what it answers. -/
inductive Linear (agents : List PoolEntry) : PoolOp → List PoolEntry → Option Nat → Prop where
  | added {name role : Text} {provider model : Option Text} (named : name ≠ []) (new : linearFind agents name = none) :
    Linear agents (.add name role provider model) (agents ++ [⟨name, role, provider, model⟩]) (some agents.length)
  | refused {name role : Text} {provider model : Option Text} :
    Linear agents (.add name role provider model) agents none
  | set {name : Text} {provider model : Option Text} {i : Nat} (a : Allocations)
    (found : linearFind agents name = some i) :
    Linear agents (.setModel name provider model)
      (agents.modify i fun agent => { agent with provider := stored provider a, model := stored model a }) (some 0)
  | removed {name : Text} {i : Nat} (found : linearFind agents name = some i) :
    Linear agents (.remove name) (agents.eraseIdx i) (some 0)
  | unset {name : Text} {provider model : Option Text} (missing : name = [] ∨ linearFind agents name = none) :
    Linear agents (.setModel name provider model) agents none
  | kept {name : Text} (missing : name = [] ∨ linearFind agents name = none) :
    Linear agents (.remove name) agents none

/-! ### The invariant -/

/-- The index has every agent once, behind the home of its name, and there is room in it. -/
structure Indexed (names : List Text) (slots : List (Option Nat)) : Prop where
  distinct : names.Nodup
  named : [] ∉ names
  numbered : Probing.Numbered (fun i => home slots.length (names.getD i [])) slots names.length
  sized : slots = [] ∧ names = [] ∨ ∃ k, 4 ≤ k ∧ slots.length = 2 ^ k ∧ names.length * 10 < slots.length * 7
  small : slots.length < 2 ^ 61 ∧ names.length < 2 ^ 31

variable {p : Pool} {agents : List PoolEntry} {slots : List (Option Nat)} {k : Nat}

theorem home_lt (length : slots.length = 2 ^ k) (name : Text) : home slots.length name < slots.length :=
  Probing.mask_lt length _

theorem nextSlot_steps (length : slots.length = 2 ^ k) : Probing.Steps (nextSlot slots.length) slots :=
  Probing.mask_steps length

theorem hasName_iff {name : Text} {i : Nat} : hasName agents name i = true ↔ (names agents)[i]? = some name := by
  rw [hasName, names, List.getElem?_map]
  cases agents[i]? <;> simp

theorem indexed_new : Indexed (names []) [] where
  distinct := List.nodup_nil
  named := List.not_mem_nil
  numbered := Probing.numbered_replicate _ 0
  sized := Or.inl ⟨rfl, rfl⟩
  small := by decide

theorem idxOf?_eq {names : List Text} (distinct : names.Nodup) {i : Nat} {name : Text}
    (here : names[i]? = some name) : names.idxOf? name = some i := by
  obtain ⟨inside, here⟩ := List.getElem?_eq_some_iff.mp here
  refine List.idxOf?_eq_some_iff.mpr ⟨inside, here, fun j less same => ?_⟩
  have := (List.Nodup.getElem_inj_iff distinct).mp (same.trans here.symm)
  omega

theorem findAgent_eq (indexed : Indexed (names p.agents) p.slots) (name : Text) :
    findAgent p name = some (linearFind p.agents name) := by
  unfold findAgent
  dsimp only
  split
  · rename_i empty
    rcases indexed.sized with ⟨-, none⟩ | ⟨k, -, length, -⟩
    · rw [linearFind, none]
      rfl
    · have := Nat.two_pow_pos k
      omega
  · rename_i some
    obtain ⟨k, -, length, room⟩ := indexed.sized.resolve_left fun none => some (by rw [none.1]; rfl)
    have homes : ∀ i, hasName p.agents name i = true →
        home p.slots.length ((names p.agents).getD i []) = home p.slots.length name := by
      intro i is
      rw [List.getD_eq_getElem?_getD, hasName_iff.mp is, Option.getD_some]
    obtain ⟨slot, content, found, here, one, none⟩ :=
      indexed.numbered.find (nextSlot_steps length) (home_lt length name) (by omega) homes
    rw [found, Option.bind_some, here]
    cases content with
    | some i => rw [linearFind, idxOf?_eq indexed.distinct (hasName_iff.mp (one i rfl).2)]
    | none =>
      congr 1
      symm
      rw [linearFind, List.idxOf?_eq_none_iff]
      intro member
      obtain ⟨i, here⟩ := List.mem_iff_getElem?.mp member
      have absent := none rfl i (List.getElem?_eq_some_iff.mp here).1
      rw [hasName_iff.mpr here] at absent
      cases absent

/-! ### Indexing -/

theorem nameIndexInsert_spec {n : Nat} (length : slots.length = 2 ^ k) (inside : n < agents.length)
    (room : n < slots.length)
    (numbered : Probing.Numbered (fun i => home slots.length ((names agents).getD i [])) slots n) :
    ∃ slots', nameIndexInsert agents slots n = some slots' ∧ slots'.length = slots.length ∧
      Probing.Numbered (fun i => home slots.length ((names agents).getD i [])) slots' (n + 1) := by
  have here : agents[n]? = some agents[n] := List.getElem?_eq_getElem inside
  have nameOf : (names agents).getD n [] = agents[n].name := by simp [names, here]
  obtain ⟨slot, found, more⟩ := numbered.insert (nextSlot_steps length) (home_lt length _) room
  refine ⟨slots.set slot (some n), ?_, List.length_set, more⟩
  simp only [nameOf] at found
  rw [nameIndexInsert, here, Option.bind_some, found]
  rfl

theorem indexAll_spec {cap count : Nat} (length : cap = 2 ^ k) (inside : count ≤ agents.length)
    (room : agents.length < cap) :
    ∃ slots, indexAll agents count (List.replicate cap none) = some slots ∧ slots.length = cap ∧
      Probing.Numbered (fun i => home cap ((names agents).getD i [])) slots count := by
  induction count with
  | zero => exact ⟨_, rfl, List.length_replicate, Probing.numbered_replicate _ cap⟩
  | succ count ih =>
    obtain ⟨slots, eq, same, numbered⟩ := ih (by omega)
    obtain ⟨slots', eq', same', numbered'⟩ :=
      nameIndexInsert_spec (same.trans length) (by omega) (by omega) (same ▸ numbered)
    refine ⟨slots', by rw [indexAll, eq, Option.bind_some, eq'], same'.trans same, same ▸ numbered'⟩

theorem nameIndexReserve_spec (indexed : Indexed (names p.agents) p.slots) (few : p.agents.length < 2 ^ 31 - 1)
    (allocated : Bool) :
    ∃ reserved, nameIndexReserve p (p.agents.length + 1) allocated = some reserved ∧
      ∀ q ∈ reserved, q.agents = p.agents ∧ q.cap = p.cap ∧ Indexed (names q.agents) q.slots ∧
        ∃ k, 4 ≤ k ∧ q.slots.length = 2 ^ k ∧ (q.agents.length + 1) * 10 < q.slots.length * 7 := by
  have count : (names p.agents).length = p.agents.length := List.length_map _
  have small := indexed.small.1
  -- no sum or product of the source wraps
  have wanted : (p.agents.length + 1) * 10 % 2 ^ 64 = (p.agents.length + 1) * 10 := Nat.mod_eq_of_lt (by omega)
  have threshold : p.slots.length * 7 % 2 ^ 64 = p.slots.length * 7 := Nat.mod_eq_of_lt (by omega)
  have twice : p.slots.length * 2 % 2 ^ 64 = p.slots.length * 2 := Nat.mod_eq_of_lt (by omega)
  unfold nameIndexReserve
  dsimp only
  rw [wanted, threshold, twice]
  split
  · rename_i roomy
    refine ⟨some p, rfl, ?_⟩
    rintro q ⟨⟩
    obtain ⟨some, roomy⟩ := roomy
    obtain ⟨k, atLeast, length, -⟩ := indexed.sized.resolve_left fun none => some (by rw [none.1]; rfl)
    exact ⟨rfl, rfl, indexed, k, atLeast, length, roomy⟩
  · generalize capIs : (if p.slots.length ≠ 0 then p.slots.length * 2 else 16) = cap
    have sized : ∃ k, 4 ≤ k ∧ cap = 2 ^ k ∧ (p.agents.length + 1) * 10 < cap * 7 := by
      rcases indexed.sized with ⟨empty, none⟩ | ⟨k, atLeast, length, room⟩
      · rw [none, List.length_nil] at count
        rw [empty, List.length_nil, if_neg (not_not.mpr rfl)] at capIs
        exact ⟨4, by omega, capIs.symm, by omega⟩
      · have positive := Nat.two_pow_pos k
        rw [if_pos (by omega)] at capIs
        exact ⟨k + 1, by omega, by rw [Nat.pow_succ, ← length, capIs], by omega⟩
    obtain ⟨k, atLeast, length, room⟩ := sized
    split_ifs with large failed
    · exact ⟨none, rfl, nofun⟩
    · exact ⟨none, rfl, nofun⟩
    · obtain ⟨slots, eq, same, numbered⟩ := @indexAll_spec p.agents _ _ _ length (Nat.le_refl _) (by omega)
      refine ⟨some { p with slots }, by rw [eq]; rfl, ?_⟩
      rintro q ⟨⟩
      refine ⟨rfl, rfl, ⟨indexed.distinct, indexed.named, ?_, Or.inr ⟨k, atLeast, same.trans length, ?_⟩, ?_⟩,
        k, atLeast, same.trans length, by rwa [same]⟩
      · rw [count, same]
        exact numbered
      · rw [count, same]
        omega
      · rw [count, same]
        omega

theorem Indexed.push (indexed : Indexed (names agents) slots) (length : slots.length = 2 ^ k) (atLeast : 4 ≤ k)
    (few : agents.length < 2 ^ 31 - 1) (room : (agents.length + 1) * 10 < slots.length * 7) {agent : PoolEntry}
    (new : agent.name ∉ names agents) (named : agent.name ≠ []) :
    ∃ slots', nameIndexInsert (agents ++ [agent]) slots agents.length = some slots' ∧
      Indexed (names (agents ++ [agent])) slots' := by
  have count : (names agents).length = agents.length := List.length_map _
  have append : names (agents ++ [agent]) = names agents ++ [agent.name] := List.map_append
  have before : ∀ i < agents.length, (names agents).getD i [] = (names (agents ++ [agent])).getD i [] := by
    intro i less
    rw [append, List.getD_eq_getElem?_getD, List.getD_eq_getElem?_getD, List.getElem?_append_left (by omega)]
  have numbered : Probing.Numbered (fun i => home slots.length ((names (agents ++ [agent])).getD i [])) slots
      agents.length :=
    (count ▸ indexed.numbered).congr fun i less => by rw [before i less]
  obtain ⟨slots', eq, same, numbered'⟩ :=
    @nameIndexInsert_spec (agents ++ [agent]) _ _ _ length (by simp) (by omega) numbered
  have size : (names agents ++ [agent.name]).length = agents.length + 1 := by simp [count]
  refine ⟨slots', eq, ?_⟩
  rw [append] at numbered' ⊢
  refine ⟨List.concat_eq_append ▸ indexed.distinct.concat new, ?_, ?_, Or.inr ⟨k, atLeast, same.trans length, ?_⟩, ?_⟩
  · simpa using ⟨indexed.named, named⟩
  · rw [size, same]
    exact numbered'
  · rwa [size, same]
  · have small := indexed.small
    rw [size, same]
    omega

theorem Indexed.erase (indexed : Indexed (names agents) slots) (i : Nat) (some : agents ≠ []) :
    ∃ slots', indexAll (agents.eraseIdx i) (agents.eraseIdx i).length (List.replicate slots.length none) =
      .some slots' ∧ Indexed (names (agents.eraseIdx i)) slots' := by
  have count : (names (agents.eraseIdx i)).length = (agents.eraseIdx i).length := List.length_map _
  have fewer : (agents.eraseIdx i).length ≤ agents.length := List.length_eraseIdx_le _ _
  have whole : (names agents).length = agents.length := List.length_map _
  have sub : (names (agents.eraseIdx i)).Sublist (names agents) := (List.eraseIdx_sublist agents i).map _
  obtain ⟨k, atLeast, length, room⟩ := indexed.sized.resolve_left fun none => some (List.map_eq_nil_iff.mp none.2)
  obtain ⟨slots', eq, same, numbered⟩ :=
    @indexAll_spec (agents.eraseIdx i) _ _ _ length (Nat.le_refl _) (by omega)
  have small := indexed.small
  refine ⟨slots', eq, indexed.distinct.sublist sub, fun member => indexed.named (sub.subset member), ?_,
    Or.inr ⟨k, atLeast, same.trans length, ?_⟩, ?_⟩
  · rw [count, same]
    exact numbered
  · rw [count, same]
    omega
  · rw [count, same]
    omega

theorem names_modify (i : Nat) (change : PoolEntry → PoolEntry) (keeps : ∀ agent, (change agent).name = agent.name) :
    names (agents.modify i change) = names agents := by
  induction agents generalizing i with
  | nil => cases i <;> rfl
  | cons agent rest ih =>
    cases i with
    | zero => simp [names, keeps]
    | succ i => simpa [names] using ih i

/-! ### The calls -/

theorem agentPoolAddModel_spec (indexed : Indexed (names p.agents) p.slots) (a : Allocations) (name role : Text)
    (provider model : Option Text) :
    ∃ next answer, agentPoolAddModel p name role provider model a = some (next, answer) ∧
      Indexed (names next.agents) next.slots ∧ Linear p.agents (.add name role provider model) next.agents answer := by
  unfold agentPoolAddModel
  split
  · exact ⟨p, none, rfl, indexed, .refused⟩
  · rename_i named
    rw [findAgent_eq indexed]
    cases found : linearFind p.agents name with
    | some i => exact ⟨p, none, rfl, indexed, .refused⟩
    | none =>
      simp only [Option.bind_eq_bind, Option.bind_some, Option.pure_def]
      split
      · exact ⟨p, none, rfl, indexed, .refused⟩
      · rename_i few
        obtain ⟨reserved, eq, outcome⟩ := nameIndexReserve_spec indexed (by omega) a.slots
        rw [eq]
        cases reserved with
        | none => exact ⟨p, none, rfl, indexed, .refused⟩
        | some q =>
          obtain ⟨agents, cap, indexed', k, atLeast, length, room⟩ := outcome q rfl
          have refused : Linear p.agents (.add name role provider model) q.agents none := agents ▸ .refused
          have new : name ∉ names q.agents := by
            rw [agents]
            exact List.idxOf?_eq_none_iff.mp found
          obtain ⟨slots', insert, pushed⟩ := @Indexed.push _ _ _ indexed' length atLeast
            (by rw [agents]; omega) room ⟨name, role, provider, model⟩ new named
          simp only [Option.bind_some]
          generalize largerIs : (if q.agents.length = q.cap then { q with cap := if q.cap ≠ 0 then q.cap * 2 else 8 }
            else q) = larger
          have keeps : larger.agents = q.agents ∧ larger.slots = q.slots := by
            rw [← largerIs]
            split <;> exact ⟨rfl, rfl⟩
          obtain ⟨sameAgents, sameSlots⟩ := keeps
          split
          · exact ⟨q, none, rfl, indexed', refused⟩
          · split
            · exact ⟨larger, none, rfl, by rwa [sameAgents, sameSlots], by rwa [sameAgents]⟩
            · rw [sameAgents, sameSlots, insert]
              refine ⟨_, _, rfl, pushed, ?_⟩
              dsimp only
              rw [agents]
              exact .added named found

theorem agentPoolSetModel_spec (indexed : Indexed (names p.agents) p.slots) (a : Allocations) (name : Text)
    (provider model : Option Text) :
    ∃ next answer, agentPoolSetModel p name provider model a = some (next, answer) ∧
      Indexed (names next.agents) next.slots ∧ Linear p.agents (.setModel name provider model) next.agents answer := by
  unfold agentPoolSetModel
  split
  · rename_i empty
    exact ⟨p, none, rfl, indexed, .unset (.inl empty)⟩
  · rw [findAgent_eq indexed]
    cases found : linearFind p.agents name with
    | none => exact ⟨p, none, rfl, indexed, .unset (.inr found)⟩
    | some i =>
      have same := @names_modify p.agents i
        (fun agent => { agent with provider := stored provider a, model := stored model a }) fun _ => rfl
      exact ⟨_, _, rfl, same.symm ▸ indexed, .set a found⟩

theorem agentPoolRemove_spec (indexed : Indexed (names p.agents) p.slots) (name : Text) :
    ∃ next answer, agentPoolRemove p name = some (next, answer) ∧
      Indexed (names next.agents) next.slots ∧ Linear p.agents (.remove name) next.agents answer := by
  unfold agentPoolRemove
  split
  · rename_i empty
    exact ⟨p, none, rfl, indexed, .kept (.inl empty)⟩
  · rw [findAgent_eq indexed]
    cases found : linearFind p.agents name with
    | none => exact ⟨p, none, rfl, indexed, .kept (.inr found)⟩
    | some i =>
      have some : p.agents ≠ [] := by
        intro none
        rw [linearFind, none] at found
        cases found
      obtain ⟨slots', eq, erased⟩ := indexed.erase i some
      simp only [Option.bind_eq_bind, Option.bind_some, eq]
      exact ⟨_, _, rfl, erased, .removed found⟩

theorem poolStep_spec (indexed : Indexed (names p.agents) p.slots) (a : Allocations) (op : PoolOp) :
    ∃ next answer, poolStep p a op = some (next, answer) ∧
      Indexed (names next.agents) next.slots ∧ Linear p.agents op next.agents answer := by
  cases op with
  | add name role provider model => exact agentPoolAddModel_spec indexed a name role provider model
  | setModel name provider model => exact agentPoolSetModel_spec indexed a name provider model
  | remove name => exact agentPoolRemove_spec indexed name

theorem poolRun_spec (indexed : Indexed (names p.agents) p.slots) (ops : List (Allocations × PoolOp)) :
    ∃ last, poolRun p ops = some last ∧ Indexed (names last.agents) last.slots := by
  induction ops generalizing p with
  | nil => exact ⟨p, rfl, indexed⟩
  | cons op rest ih =>
    obtain ⟨next, answer, eq, indexed', -⟩ := poolStep_spec indexed op.1 op.2
    obtain ⟨last, run, done⟩ := ih indexed'
    exact ⟨last, by rw [poolRun, eq]; exact run, done⟩

/-- After any calls on a new pool, whichever allocations failed, the names differ, the index has exactly the agents,
a name is found where a search of the array finds it, and every further call ends and changes the list of agents as
it may. -/
theorem index_refines_search (ops : List (Allocations × PoolOp)) :
    ∃ p, poolRun {} ops = some p ∧ (names p.agents).Nodup ∧
      (∀ i, some i ∈ p.slots ↔ i < p.agents.length) ∧ p.slots.countP Option.isSome = p.agents.length ∧
      (∀ name, findAgent p name = some (linearFind p.agents name)) ∧
      ∀ a op, ∃ next answer, poolStep p a op = some (next, answer) ∧ Linear p.agents op next.agents answer := by
  obtain ⟨p, run, indexed⟩ := poolRun_spec (p := {}) indexed_new ops
  have count : (names p.agents).length = p.agents.length := List.length_map _
  refine ⟨p, run, indexed.distinct, count ▸ indexed.numbered.holds, count ▸ indexed.numbered.taken,
    findAgent_eq indexed, fun a op => ?_⟩
  obtain ⟨next, answer, eq, -, linear⟩ := poolStep_spec indexed a op
  exact ⟨next, answer, eq, linear⟩

end CognitiveOs.Runtime.Agents
