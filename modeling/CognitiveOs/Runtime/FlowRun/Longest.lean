import CognitiveOs.Runtime.FlowRun.Layer
import Mathlib.Data.Fintype.EquivFin
import Mathlib.Order.Bounds.Basic
import Mathlib.Order.WellFounded

/-!
# Layers are longest paths

Over any graph that `flow_add_edge` builds, `flow_layer` takes every node exactly when
the graph has no cycle, and then the layer of a node is the length of the longest path
that ends in it.
-/

namespace CognitiveOs.Runtime.FlowRun

/-- One call of `flow_add_edge`; a rejected edge leaves the graph as it is. -/
def tryEdge (d : FlowDag) (edge : Nat × Nat) : FlowDag :=
  match flowAddEdge d edge.1 edge.2 with
  | .ok d' => d'
  | .error _ => d

def addEdges (d : FlowDag) (edges : List (Nat × Nat)) : FlowDag :=
  edges.foldl tryEdge d

def FlowDag.Acyclic (d : FlowDag) : Prop :=
  ∀ u, ¬ Relation.TransGen (fun a b => b ∈ d.adj a) u u

/-- A path of `k` edges that ends in `v`. -/
inductive PathTo (d : FlowDag) : Nat → Nat → Prop where
  | here {v : Nat} : v < d.n → PathTo d v 0
  | step {u v k : Nat} : PathTo d u k → v ∈ d.adj u → PathTo d v (k + 1)

variable {d : FlowDag}

/-! ### The graph -/

variable {u : Nat}

theorem length_adj_lt (wf : d.Wf) (small : d.n ≤ flowMaxNodes) (source : u < d.n) :
    (d.adj u).length < flowMaxNodes := by
  have nodup : (u :: d.adj u).Nodup := List.nodup_cons.mpr ⟨wf.irrefl u, wf.nodup u⟩
  have inside : ∀ v ∈ u :: d.adj u, v ∈ List.range d.n := by
    intro v member
    rw [List.mem_range]
    rcases List.mem_cons.mp member with rfl | edge
    · exact source
    · exact wf.inside u v edge
  have few := (List.subperm_of_subset nodup inside).length_le
  rw [List.length_range, List.length_cons] at few
  omega

theorem tryEdge_grown (wf : d.Wf) (small : d.n ≤ flowMaxNodes) {edge : Nat × Nat} (source : edge.1 < d.n)
    (target : edge.2 < d.n) : Grown d (fun a b => (a, b) = edge ∧ a ≠ b) (tryEdge d edge) := by
  obtain ⟨u, v⟩ := edge
  unfold tryEdge
  cases added : flowAddEdge d u v with
  | ok d' =>
    have different : u ≠ v := by
      intro same
      rw [flowAddEdge, if_pos same] at added
      cases added
    refine (flowAddEdge_grown wf source target added).congr fun a b => ?_
    constructor
    · rintro ⟨rfl, rfl⟩
      exact ⟨rfl, different⟩
    · rintro ⟨same, -⟩
      exact ⟨congrArg Prod.fst same, congrArg Prod.snd same⟩
  | error message =>
    refine (Grown.refl wf).congr fun a b => ⟨False.elim, ?_⟩
    rintro ⟨same, different⟩
    obtain ⟨rfl, rfl⟩ := Prod.mk.inj same
    have few : (d.adj a).length < flowMaxNodes := length_adj_lt wf small source
    unfold flowAddEdge at added
    rw [if_neg different] at added
    split at added
    · cases added
    · rw [if_neg (by omega)] at added
      cases added

theorem addEdges_grown {edges : List (Nat × Nat)} (wf : d.Wf) (small : d.n ≤ flowMaxNodes)
    (inside : ∀ edge ∈ edges, edge.1 < d.n ∧ edge.2 < d.n) :
    Grown d (fun a b => (a, b) ∈ edges ∧ a ≠ b) (addEdges d edges) := by
  induction edges generalizing d with
  | nil => exact (Grown.refl wf).congr fun a b => by simp
  | cons edge edges ih =>
    obtain ⟨here, later⟩ := List.forall_mem_cons.mp inside
    have first := tryEdge_grown wf small here.1 here.2
    have rest := ih first.wf (first.n ▸ small) fun e member => first.n ▸ later e member
    refine (first.trans rest).congr fun a b => ?_
    rw [List.mem_cons, or_and_right]

/-! ### The loop -/

variable {k : Kahn} {v : Nat} {taken : List Nat}

def Reached (d : FlowDag) (k : Kahn) : Prop := ∀ v < d.n, PathTo d v (k.layer v)

theorem Reached.relax (reached : Reached d k) (edge : v ∈ d.adj u) : Reached d (relax u k v) := by
  intro w inside
  unfold FlowRun.relax
  simp only
  split
  · rw [Function.update_apply]
    split
    next same =>
      subst same
      exact (reached u (lt_of_adj edge)).step edge
    next => exact reached w inside
  · exact reached w inside

theorem Reached.foldl (reached : Reached d k) {vs : List Nat} (edges : vs ⊆ d.adj u) :
    Reached d (vs.foldl (FlowRun.relax u) k) := by
  induction vs generalizing k with
  | nil => exact reached
  | cons v vs ih =>
    obtain ⟨edge, rest⟩ := List.cons_subset.mp edges
    exact ih (reached.relax edge) rest

theorem Reached.loop (reached : Reached d k) (fuel : Nat) : Reached d (kahnLoop d fuel k) := by
  induction fuel generalizing k with
  | zero => exact reached
  | succ fuel ih =>
    unfold kahnLoop
    split
    · exact reached
    · refine ih (Reached.foldl ?_ (List.Subset.refl _))
      exact reached

theorem flowLayer_reached (d : FlowDag) : Reached d (flowLayer d) :=
  Reached.loop (fun _ inside => .here inside) d.n

/-- The variables when the `while` loop starts. -/
def kahnStart (d : FlowDag) : Kahn where
  layer := fun _ => 0
  indeg := fun v => d.indeg v
  queue := (List.range d.n).filter fun v => d.indeg v = 0
  done := 0

theorem taken_of_rounds (wf : d.Wf) (fuel : Nat) (inv : Taken d taken k) :
    ∃ taken', Taken d taken' (kahnLoop d fuel k) := by
  induction fuel generalizing taken k with
  | zero => exact ⟨taken, inv⟩
  | succ fuel ih =>
    unfold kahnLoop
    split
    · exact ⟨taken, inv⟩
    · next queue => exact ih (inv.take wf queue)

theorem Taken.entries_le (inv : Taken d taken k) : k.done + k.queue.length ≤ d.n := by
  have few := (List.subperm_of_subset inv.nodup fun v member => List.mem_range.mpr (inv.inside v member)).length_le
  rw [List.length_range, List.length_append] at few
  rw [inv.done]
  exact few

theorem relax_entries (u v : Nat) (k : Kahn) :
    (relax u k v).done = k.done ∧ k.queue.length ≤ (relax u k v).queue.length := by
  refine ⟨rfl, ?_⟩
  unfold relax
  simp only
  split
  · simp
  · exact Nat.le_refl _

theorem foldl_relax_entries (u : Nat) (vs : List Nat) (k : Kahn) :
    (vs.foldl (relax u) k).done = k.done ∧ k.queue.length ≤ (vs.foldl (relax u) k).queue.length := by
  induction vs generalizing k with
  | nil => exact ⟨rfl, Nat.le_refl _⟩
  | cons v vs ih =>
    obtain ⟨done, grows⟩ := ih (relax u k v)
    obtain ⟨done', grows'⟩ := relax_entries u v k
    exact ⟨done.trans done', grows'.trans grows⟩

theorem Taken.entries_inner (wf : d.Wf) (inv : Taken d taken k) {rest vs : List Nat} (queue : k.queue = u :: rest)
    (part : vs <+: d.adj u) :
    let inner := vs.foldl (relax u) { k with queue := rest, done := k.done + 1 }
    inner.done + inner.queue.length ≤ d.n := by
  obtain ⟨ws, whole⟩ := part
  have after := (inv.take wf queue).entries_le
  rw [← whole, List.foldl_append] at after
  obtain ⟨done, grows⟩ := foldl_relax_entries u ws
    (vs.foldl (relax u) { k with queue := rest, done := k.done + 1 })
  simp only
  omega

/-! ### Cycles -/

theorem layer_lt_of_path (later : ∀ u v, v ∈ d.adj u → k.layer u < k.layer v)
    (path : Relation.TransGen (fun a b => b ∈ d.adj a) u v) : k.layer u < k.layer v := by
  induction path with
  | single edge => exact later _ _ edge
  | tail _ edge ih => exact Nat.lt_trans ih (later _ _ edge)

theorem acyclic_of_layers (later : ∀ u v, v ∈ d.adj u → k.layer u < k.layer v) : d.Acyclic :=
  fun _ path => Nat.lt_irrefl _ (layer_lt_of_path later path)

theorem exists_source (acyclic : d.Acyclic) {left : Finset Nat} (nonempty : left.Nonempty) :
    ∃ v ∈ left, ∀ u ∈ left, v ∉ d.adj u := by
  let before : left → left → Prop := fun a b => Relation.TransGen (fun u v => v ∈ d.adj u) a.1 b.1
  have transitive : IsTrans left before := ⟨fun _ _ _ first second => first.trans second⟩
  have irreflexive : Std.Irrefl before := ⟨fun a path => acyclic a.1 path⟩
  have founded : WellFounded before := Finite.wellFounded_of_trans_of_irrefl before
  obtain ⟨w, member⟩ := nonempty
  obtain ⟨v, -, least⟩ := founded.has_min Set.univ ⟨⟨w, member⟩, trivial⟩
  exact ⟨v.1, v.2, fun u inside edge => least ⟨u, inside⟩ trivial (.single edge)⟩

theorem flowLayer_ends (wf : d.Wf) : ∃ taken, Taken d taken (flowLayer d) ∧ (flowLayer d).queue = [] :=
  taken_of_loop wf (taken_start wf) (Nat.zero_add d.n)

theorem done_of_acyclic (wf : d.Wf) (acyclic : d.Acyclic) : (flowLayer d).done = d.n := by
  obtain ⟨taken, inv, empty⟩ := flowLayer_ends wf
  have nodup : taken.Nodup := (List.nodup_append.mp inv.nodup).1
  have all : (Finset.range d.n).filter (· ∉ taken) = ∅ := by
    by_contra some
    obtain ⟨v, member, source⟩ := exists_source acyclic (Finset.nonempty_iff_ne_empty.mpr some)
    obtain ⟨inside, out⟩ := Finset.mem_filter.mp member
    have inside := Finset.mem_range.mp inside
    have none : (d.preds v).filter (· ∉ taken) = ∅ := by
      refine Finset.eq_empty_of_forall_notMem fun u present => ?_
      obtain ⟨pred, open_⟩ := Finset.mem_filter.mp present
      have edge := mem_preds.mp pred
      exact source u (Finset.mem_filter.mpr ⟨Finset.mem_range.mpr (lt_of_adj edge), open_⟩) edge
    have closed : (flowLayer d).indeg v = 0 := by
      rw [inv.indeg v inside, none]
      rfl
    have ready := (inv.ready v inside).mpr closed
    rw [empty, List.append_nil] at ready
    exact out ready
  have count : taken.toFinset = Finset.range d.n := by
    refine Finset.Subset.antisymm ?_ ?_
    · intro v member
      exact Finset.mem_range.mpr (inv.inside v (List.mem_append_left _ (List.mem_toFinset.mp member)))
    · intro v member
      by_contra out
      have left : v ∈ (Finset.range d.n).filter (· ∉ taken) :=
        Finset.mem_filter.mpr ⟨member, fun inside => out (List.mem_toFinset.mpr inside)⟩
      rw [all] at left
      exact absurd left (Finset.notMem_empty v)
  rw [inv.done, ← List.toFinset_card_of_nodup nodup, count, Finset.card_range]

theorem done_iff_acyclic (wf : d.Wf) : (flowLayer d).done = d.n ↔ d.Acyclic := by
  constructor
  · intro all
    exact acyclic_of_layers fun u v edge => flowLayer_lt wf (Nat.le_of_eq all.symm) edge
  · exact done_of_acyclic wf

theorem le_layer_of_path (later : ∀ u v, v ∈ d.adj u → k.layer u < k.layer v) {length : Nat}
    (path : PathTo d v length) : length ≤ k.layer v := by
  induction path with
  | here => exact Nat.zero_le _
  | step _ edge ih => exact Nat.succ_le_of_lt (Nat.lt_of_le_of_lt ih (later _ _ edge))

/-- `flow_layer` over every graph that calls of `flow_add_edge` build from nodes without
edges: it takes all nodes exactly when there is no cycle; then every edge leads to a
higher layer and a node's layer is the length of the longest path ending in it. The
queue never holds more entries than there are nodes. -/
theorem flow_layer_longest_path {nodes : List FlowNode} {edges : List (Nat × Nat)}
    (fresh : ∀ node ∈ nodes, node.indeg = 0 ∧ node.adj = []) (small : nodes.length ≤ flowMaxNodes)
    (inside : ∀ edge ∈ edges, edge.1 < nodes.length ∧ edge.2 < nodes.length) :
    let d := addEdges ⟨nodes⟩ edges
    d.n = nodes.length ∧ (∀ u v, v ∈ d.adj u ↔ (u, v) ∈ edges ∧ u ≠ v) ∧
      (flowLayer d).queue = [] ∧
      ((flowLayer d).done = d.n ↔ d.Acyclic) ∧
      (d.Acyclic → (∀ u v, v ∈ d.adj u → (flowLayer d).layer u < (flowLayer d).layer v) ∧
        ∀ v < d.n, IsGreatest { length | PathTo d v length } ((flowLayer d).layer v)) ∧
      ∀ rounds, let k := kahnLoop d rounds (kahnStart d)
        k.done + k.queue.length ≤ d.n ∧
        ∀ u rest vs, k.queue = u :: rest → vs <+: d.adj u →
          let inner := vs.foldl (relax u) { k with queue := rest, done := k.done + 1 }
          inner.done + inner.queue.length ≤ d.n := by
  intro d
  have built : Grown ⟨nodes⟩ (fun a b => (a, b) ∈ edges ∧ a ≠ b) d := addEdges_grown (wf_fresh fresh) small inside
  have wf := built.wf
  obtain ⟨-, -, empty⟩ := flowLayer_ends wf
  refine ⟨built.n, ?_, empty, done_iff_acyclic wf, ?_, ?_⟩
  · intro u v
    rw [built.adj, adj_fresh fresh]
    simp
  · intro acyclic
    have later : ∀ u v, v ∈ d.adj u → (flowLayer d).layer u < (flowLayer d).layer v := fun u v edge =>
      flowLayer_lt wf (Nat.le_of_eq (done_of_acyclic wf acyclic).symm) edge
    exact ⟨later, fun v small => ⟨flowLayer_reached d v small, fun _ path => le_layer_of_path later path⟩⟩
  · intro rounds
    obtain ⟨taken, inv⟩ := taken_of_rounds wf rounds (taken_start wf)
    exact ⟨inv.entries_le, fun u rest vs queue part => inv.entries_inner wf queue part⟩

def shortcutNodes : List FlowNode :=
  [⟨[97], [97], [97], 0, []⟩, ⟨[98], [97], [97], 0, []⟩, ⟨[99], [97], [97], 0, []⟩]

/-- Three nodes in a row with a short cut; one edge is repeated and a loop is refused. -/
def shortcut : FlowDag :=
  addEdges ⟨shortcutNodes⟩ [(0, 1), (0, 2), (0, 1), (1, 2), (2, 2)]

theorem flow_layer_longest_path_shortcut :
    shortcut.Acyclic ∧ IsGreatest { length | PathTo shortcut 2 length } 2 := by
  obtain ⟨size, -, -, all, layers, -⟩ := @flow_layer_longest_path shortcutNodes
    [(0, 1), (0, 2), (0, 1), (1, 2), (2, 2)] (by decide) (by decide) (by decide)
  have taken : (flowLayer shortcut).done = shortcut.n := by decide +kernel
  have last : (flowLayer shortcut).layer 2 = 2 := by decide +kernel
  have acyclic : shortcut.Acyclic := all.mp taken
  have longest := (layers acyclic).2 2 (by rw [size]; decide)
  have same : IsGreatest { length | PathTo shortcut 2 length } ((flowLayer shortcut).layer 2) := longest
  rw [last] at same
  exact ⟨acyclic, same⟩

end CognitiveOs.Runtime.FlowRun
