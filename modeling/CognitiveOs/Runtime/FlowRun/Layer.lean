import CognitiveOs.Runtime.FlowRun.Graph

/-!
# The layers of a flow

`flow_layer` of `runtime/flow.c`: nodes without open predecessors are taken from a queue, and each
edge out of one raises the layer of its target and closes one of the target's predecessors. When every
node is taken, an edge leads to a later layer.
-/

namespace CognitiveOs.Runtime.FlowRun

/-- The variables of `flow_layer`; `queue` is the part of the array that is not taken yet. -/
structure Kahn where
  layer : Nat → Nat
  indeg : Nat → Int
  queue : List Nat
  done : Nat

def relax (u : Nat) (k : Kahn) (v : Nat) : Kahn :=
  let layer := if k.layer v < k.layer u + 1 then Function.update k.layer v (k.layer u + 1) else k.layer
  let indeg := Function.update k.indeg v (k.indeg v - 1)
  { k with
    layer := layer
    indeg := indeg
    queue := if indeg v = 0 then k.queue ++ [v] else k.queue }

/-- The `while` loop; every node is in the queue at most once. -/
def kahnLoop (d : FlowDag) : Nat → Kahn → Kahn
  | 0, k => k
  | fuel + 1, k =>
    match k.queue with
    | [] => k
    | u :: rest => kahnLoop d fuel ((d.adj u).foldl (relax u) { k with queue := rest, done := k.done + 1 })

/-- `flow_layer`: the layers, and how many nodes were taken. -/
def flowLayer (d : FlowDag) : Kahn :=
  kahnLoop d d.n
    { layer := fun _ => 0
      indeg := fun v => d.indeg v
      queue := (List.range d.n).filter fun v => d.indeg v = 0
      done := 0 }

variable {u : Nat}

theorem foldl_relax {vs : List Nat} (nodup : vs.Nodup) (irrefl : u ∉ vs) (k : Kahn) :
    vs.foldl (relax u) k =
      { layer := fun v => if v ∈ vs then max (k.layer v) (k.layer u + 1) else k.layer v
        indeg := fun v => if v ∈ vs then k.indeg v - 1 else k.indeg v
        queue := k.queue ++ vs.filter fun v => k.indeg v = 1
        done := k.done } := by
  induction vs generalizing k with
  | nil => simp
  | cons v vs ih =>
    obtain ⟨fresh, nodup⟩ := List.nodup_cons.mp nodup
    obtain ⟨other, irrefl⟩ : u ≠ v ∧ u ∉ vs := by simpa using irrefl
    have same : (relax u k v).layer u = k.layer u := by
      unfold relax
      dsimp only
      split
      · exact Function.update_of_ne other _ _
      · rfl
    rw [List.foldl_cons, ih nodup irrefl, same]
    have layers : ∀ w, (relax u k v).layer w = if w = v then max (k.layer v) (k.layer u + 1) else k.layer w := by
      intro w
      unfold relax
      dsimp only
      split
      · rename_i higher
        rw [Function.update_apply]
        split <;> omega
      · rename_i low
        split
        · rename_i this
          rw [this]
          omega
        · rfl
    have indegs : ∀ w, (relax u k v).indeg w = if w = v then k.indeg v - 1 else k.indeg w := fun w =>
      Function.update_apply _ _ _ _
    have queue : (relax u k v).queue = if k.indeg v = 1 then k.queue ++ [v] else k.queue := by
      unfold relax
      dsimp only
      rw [Function.update_self]
      by_cases last : k.indeg v = 1
      · rw [if_pos last, if_pos (by omega)]
      · rw [if_neg last, if_neg (by omega)]
    have absent : ∀ w ∈ vs, w ≠ v := fun w member this => fresh (this ▸ member)
    refine Kahn.mk.injEq .. |>.mpr ⟨?_, ?_, ?_, rfl⟩
    · funext w
      rw [layers]
      by_cases this : w = v
      · subst this
        simp [fresh]
      · simp [this]
    · funext w
      rw [indegs]
      by_cases this : w = v
      · subst this
        simp [fresh]
      · simp [this]
    · have tail : vs.filter (fun w => (relax u k v).indeg w = 1) = vs.filter fun w => k.indeg w = 1 := by
        refine List.filter_congr fun w member => ?_
        rw [indegs, if_neg (absent w member)]
      rw [tail, queue]
      by_cases last : k.indeg v = 1 <;> simp [last]

/-- The nodes that are taken, and what the variables say about them. -/
structure Taken (d : FlowDag) (taken : List Nat) (k : Kahn) : Prop where
  nodup : (taken ++ k.queue).Nodup
  inside : ∀ v ∈ taken ++ k.queue, v < d.n
  /-- the predecessors that are not taken -/
  indeg : ∀ v < d.n, k.indeg v = ((d.preds v).filter (· ∉ taken)).card
  ready : ∀ v < d.n, v ∈ taken ++ k.queue ↔ k.indeg v = 0
  edges : ∀ u ∈ taken, ∀ v ∈ d.adj u, k.layer u < k.layer v
  done : k.done = taken.length

variable {d : FlowDag} {taken : List Nat} {k : Kahn} {v : Nat}

theorem Taken.open_pred (inv : Taken d taken k) (inside : v < d.n) (edge : v ∈ d.adj u) (fresh : u ∉ taken) :
    0 < k.indeg v := by
  rw [inv.indeg v inside]
  exact_mod_cast Finset.card_pos.mpr ⟨u, Finset.mem_filter.mpr ⟨mem_preds.mpr edge, fresh⟩⟩

theorem card_open_preds (fresh : u ∉ taken) (v : Nat) :
    (((d.preds v).filter (· ∉ taken ++ [u])).card : Int) =
      if v ∈ d.adj u then (((d.preds v).filter (· ∉ taken)).card : Int) - 1
      else (((d.preds v).filter (· ∉ taken)).card : Int) := by
  have erased : (d.preds v).filter (· ∉ taken ++ [u]) = ((d.preds v).filter (· ∉ taken)).erase u := by
    ext w
    simp only [Finset.mem_filter, Finset.mem_erase, List.mem_append, List.mem_singleton]
    tauto
  rw [erased]
  split
  · rename_i edge
    have member : u ∈ (d.preds v).filter (· ∉ taken) := Finset.mem_filter.mpr ⟨mem_preds.mpr edge, fresh⟩
    have positive := Finset.card_pos.mpr ⟨u, member⟩
    rw [Finset.card_erase_of_mem member]
    omega
  · rename_i other
    rw [Finset.erase_eq_of_notMem fun member => other (mem_preds.mp (Finset.mem_filter.mp member).1)]

theorem Taken.waits (wf : d.Wf) (inv : Taken d taken k) {rest : List Nat} (queue : k.queue = u :: rest)
    (edge : v ∈ d.adj u) : v ∉ taken ++ u :: rest := by
  intro member
  have nodup := inv.nodup
  rw [queue] at nodup
  have fresh : u ∉ taken := fun old => (List.disjoint_of_nodup_append nodup) old List.mem_cons_self
  have none_open := (inv.ready v (wf.inside u v edge)).mp (queue ▸ member)
  have some_open := inv.open_pred (wf.inside u v edge) edge fresh
  omega

theorem Taken.take (wf : d.Wf) (inv : Taken d taken k) {rest : List Nat} (queue : k.queue = u :: rest) :
    Taken d (taken ++ [u]) ((d.adj u).foldl (relax u) { k with queue := rest, done := k.done + 1 }) := by
  have ⟨nodup, inside, indeg, ready, edges, done⟩ := inv
  rw [queue] at nodup inside ready
  have fresh : u ∉ taken := fun member => (List.disjoint_of_nodup_append nodup) member List.mem_cons_self
  have mine : u < d.n := inside u (List.mem_append_right _ List.mem_cons_self)
  have waits : ∀ v ∈ d.adj u, v ∉ taken ++ u :: rest := fun v edge => inv.waits wf queue edge
  rw [foldl_relax (wf.nodup u) (wf.irrefl u)]
  constructor
  · show ((taken ++ [u]) ++ (rest ++ (d.adj u).filter _)).Nodup
    have whole : (taken ++ [u]) ++ (rest ++ (d.adj u).filter fun v => k.indeg v = 1) =
        (taken ++ u :: rest) ++ (d.adj u).filter fun v => k.indeg v = 1 := by simp
    rw [whole]
    refine List.Nodup.append nodup ((wf.nodup u).filter _) ?_
    intro v old new
    exact waits v (List.mem_filter.mp new).1 old
  · intro v member
    have member : v ∈ (taken ++ [u]) ++ (rest ++ (d.adj u).filter fun v => k.indeg v = 1) := member
    have : v ∈ taken ++ u :: rest ∨ v ∈ d.adj u := by
      simp only [List.mem_append, List.mem_cons, List.mem_filter] at member ⊢
      tauto
    obtain old | edge := this
    · exact inside v old
    · exact wf.inside u v edge
  · intro v small
    show (if v ∈ d.adj u then k.indeg v - 1 else k.indeg v) = _
    rw [indeg v small, card_open_preds fresh]
  · intro v small
    show v ∈ (taken ++ [u]) ++ (rest ++ (d.adj u).filter fun v => k.indeg v = 1) ↔
      (if v ∈ d.adj u then k.indeg v - 1 else k.indeg v) = 0
    have whole : v ∈ (taken ++ [u]) ++ (rest ++ (d.adj u).filter fun v => k.indeg v = 1) ↔
        v ∈ taken ++ u :: rest ∨ v ∈ d.adj u ∧ k.indeg v = 1 := by
      simp only [List.mem_append, List.mem_cons, List.mem_filter, decide_eq_true_eq]
      tauto
    rw [whole]
    split
    · rename_i edge
      constructor
      · rintro (old | ⟨-, last⟩)
        · exact absurd old (waits v edge)
        · omega
      · intro last
        exact Or.inr ⟨edge, by omega⟩
    · rename_i other
      rw [ready v small]
      tauto
  · intro w member v edge
    show (if w ∈ d.adj u then max (k.layer w) (k.layer u + 1) else k.layer w) <
      (if v ∈ d.adj u then max (k.layer v) (k.layer u + 1) else k.layer v)
    have still : w ∉ d.adj u := by
      intro edge'
      refine waits w edge' ?_
      obtain old | new := List.mem_append.mp member
      · exact List.mem_append_left _ old
      · rw [List.mem_singleton.mp new]
        exact List.mem_append_right _ List.mem_cons_self
    rw [if_neg still]
    obtain old | new := List.mem_append.mp member
    · have := edges w old v edge
      split <;> omega
    · obtain rfl := List.mem_singleton.mp new
      rw [if_pos edge]
      omega
  · show k.done + 1 = (taken ++ [u]).length
    rw [done, List.length_append]
    rfl

theorem taken_of_loop (wf : d.Wf) {fuel : Nat} (inv : Taken d taken k) (enough : taken.length + fuel = d.n) :
    ∃ taken', Taken d taken' (kahnLoop d fuel k) ∧ (kahnLoop d fuel k).queue = [] := by
  induction fuel generalizing taken k with
  | zero =>
    refine ⟨taken, inv, ?_⟩
    have few : (taken ++ k.queue).length ≤ d.n := by
      have := (List.subperm_of_subset inv.nodup fun v member => List.mem_range.mpr (inv.inside v member)).length_le
      rwa [List.length_range] at this
    rw [List.length_append] at few
    have none : k.queue = [] := List.eq_nil_of_length_eq_zero (by omega)
    exact none
  | succ fuel ih =>
    unfold kahnLoop
    split
    · rename_i empty
      exact ⟨taken, inv, empty⟩
    · rename_i u rest queue
      refine ih (inv.take wf queue) ?_
      rw [List.length_append, List.length_singleton]
      omega

theorem taken_start (wf : d.Wf) : Taken d []
    { layer := fun _ => 0
      indeg := fun v => d.indeg v
      queue := (List.range d.n).filter fun v => d.indeg v = 0
      done := 0 } where
  nodup := by
    rw [List.nil_append]
    exact List.nodup_range.filter _
  inside v member := by
    rw [List.nil_append] at member
    exact List.mem_range.mp (List.mem_filter.mp member).1
  indeg v small := by
    show ((d.indeg v : Nat) : Int) = _
    rw [wf.indeg v small]
    simp
  ready v small := by
    simp only [List.nil_append, List.mem_filter, List.mem_range, decide_eq_true_eq]
    constructor
    · rintro ⟨-, none⟩
      exact_mod_cast none
    · intro none
      exact ⟨small, by exact_mod_cast none⟩
  edges u member := by cases member
  done := rfl

theorem flowLayer_lt (wf : d.Wf) (acyclic : d.n ≤ (flowLayer d).done) (edge : v ∈ d.adj u) :
    (flowLayer d).layer u < (flowLayer d).layer v := by
  obtain ⟨taken, inv, -⟩ := taken_of_loop wf (taken_start wf) (Nat.zero_add d.n)
  refine inv.edges u ?_ v edge
  have nodup : taken.Nodup := (List.nodup_append.mp inv.nodup).1
  have inside : taken.toFinset ⊆ Finset.range d.n := by
    intro w member
    exact Finset.mem_range.mpr (inv.inside w (List.mem_append_left _ (List.mem_toFinset.mp member)))
  have all : taken.toFinset = Finset.range d.n := by
    refine Finset.eq_of_subset_of_card_le inside ?_
    rw [Finset.card_range, List.toFinset_card_of_nodup nodup, ← inv.done]
    exact acyclic
  have member : u ∈ taken.toFinset := all ▸ Finset.mem_range.mpr (lt_of_adj edge)
  exact List.mem_toFinset.mp member

end CognitiveOs.Runtime.FlowRun
