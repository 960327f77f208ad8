import CognitiveOs.Infra.Cjson
import Mathlib.Data.Finset.Card

/-!
# The flow document

`flow_parse` of `runtime/flow.c`: a JSON document becomes a graph of nodes. An edge of the document
and a reference to another node's result in a task both make a dependency; the same dependency is
kept once.
-/

namespace CognitiveOs.Runtime.FlowRun

open Infra

def flowMaxNodes : Nat := 64

def flowMaxTasklen : Nat := 8192

structure FlowNode where
  id : Text
  agent : Text
  task : Text
  indeg : Nat
  /-- the successors -/
  adj : List Nat
  deriving DecidableEq

structure FlowDag where
  nodes : List FlowNode
  deriving DecidableEq

namespace FlowDag

def n (d : FlowDag) : Nat :=
  d.nodes.length

def adj (d : FlowDag) (u : Nat) : List Nat :=
  ((d.nodes[u]?).map FlowNode.adj).getD []

def indeg (d : FlowDag) (v : Nat) : Nat :=
  ((d.nodes[v]?).map FlowNode.indeg).getD 0

def id? (d : FlowDag) (i : Nat) : Option Text :=
  (d.nodes[i]?).map FlowNode.id

def task (d : FlowDag) (i : Nat) : Text :=
  ((d.nodes[i]?).map FlowNode.task).getD []

end FlowDag

/-- The message of `flow_err`, in a buffer of 512 bytes. -/
def flowErr (message : Text) : Text :=
  snprintf 512 message

def flowNodeIndex (d : FlowDag) (id : Text) : Option Nat :=
  d.nodes.findIdx? fun node => node.id = id

def flowAddEdge (d : FlowDag) (source target : Nat) : Except Text FlowDag :=
  if source = target then
    .error (flowErr (ascii "node '" ++ (d.id? target).getD [] ++ ascii "' depends on itself"))
  else if target ∈ d.adj source then .ok d
  else if flowMaxNodes ≤ (d.adj source).length then .error (flowErr (ascii "too many dependency edges"))
  else
    let nodes := d.nodes.modify source fun node => { node with adj := node.adj ++ [target] }
    .ok { nodes := nodes.modify target fun node => { node with indeg := node.indeg + 1 } }

/-- `valuestring`, when the item is a string. -/
def valuestring (json : Option Json) : Option Text :=
  (json.bind Json.string?).map cstr

/-- The node of one item of `nodes`. -/
def flowNode (item : Json) : Except Text FlowNode :=
  match valuestring (item.get? (ascii "id")), valuestring (item.get? (ascii "agent")),
    valuestring (item.get? (ascii "task")) with
  | some id, some agent, some task =>
    if id = [] ∨ agent = [] ∨ task = [] then
      .error (flowErr (ascii "each node needs string 'id', 'agent' and 'task'"))
    else if 64 ≤ id.length ∨ 64 ≤ agent.length ∨ flowMaxTasklen ≤ task.length then
      .error (flowErr (ascii "node id, agent or task exceeds its supported length"))
    else .ok { id := id, agent := agent, task := task, indeg := 0, adj := [] }
  | _, _, _ => .error (flowErr (ascii "each node needs string 'id', 'agent' and 'task'"))

def repeatedId : List FlowNode → Option Text
  | [] => none
  | node :: rest => if node.id ∈ rest.map FlowNode.id then some node.id else repeatedId rest

/-- `from` and `to` of one item of `edges`: an object with both, or an array of two. -/
def endpoints (edge : Json) : Option (Text × Text) :=
  match edge with
  | .object _ =>
    (valuestring (edge.get? (ascii "from"))).bind fun source =>
      (valuestring (edge.get? (ascii "to"))).map fun target => (source, target)
  | .array [first, second] =>
    (valuestring (some first)).bind fun source => (valuestring (some second)).map fun target => (source, target)
  | _ => none

/-- One item of `edges`. -/
def flowEdge (d : FlowDag) (edge : Json) : Except Text FlowDag :=
  match endpoints edge with
  | none => .error (flowErr (ascii "each edge needs 'from' and 'to'"))
  | some (source, target) =>
    match flowNodeIndex d source, flowNodeIndex d target with
    | some u, some v => flowAddEdge d u v
    | _, _ =>
      .error (flowErr (ascii "edge references unknown node ('" ++ snprintf 128 source ++ ascii "' -> '" ++
        snprintf 128 target ++ ascii "')"))

/-- The next reference in a task: none is left, it is invalid, or its text and what follows. -/
inductive Reference where
  | none
  | invalid
  | found (ref rest : Text)

def nextReference (p : Text) : Reference :=
  match strstr (ascii "\x7b\x7b") p with
  | .none => .none
  | some p =>
    let body := p.drop 2
    match strstr (ascii "\x7d\x7d") body with
    | .none => .invalid
    | some close =>
      let n := body.length - close.length
      if n = 0 ∨ 64 ≤ n then .invalid else .found (body.take n) (close.drop 2)

/-- The references of node `i` from `p` on; every one takes at least a byte. -/
def flowReferences (i : Nat) : Nat → FlowDag → Text → Except Text FlowDag
  | 0, _, _ => .error []
  | fuel + 1, d, p =>
    match nextReference p with
    | .none => .ok d
    | .invalid => .error (flowErr (ascii "invalid result reference in node '" ++ (d.id? i).getD [] ++ ascii "'"))
    | .found ref rest =>
      match flowNodeIndex d ref with
      | Option.none =>
        .error (flowErr (ascii "unknown result reference '" ++ ref ++ ascii "' in node '" ++ (d.id? i).getD [] ++
          ascii "'"))
      | some u =>
        match flowAddEdge d u i with
        | .error message => .error message
        | .ok d => flowReferences i fuel d rest

/-- The items of `edges`, which may be left out. -/
def flowEdges (root : Json) : Except Text (List Json) :=
  match root.get? (ascii "edges") with
  | some (.array edges) => .ok edges
  | some _ => .error (flowErr (ascii "edges must be an array"))
  | none => .ok []

/-- `flow_parse`, from the parsed JSON on. -/
def flowParse (root : Json) : Except Text FlowDag :=
  match root with
  | .object _ =>
    match root.get? (ascii "nodes") with
    | some (.array items) =>
      if items = [] then .error (flowErr (ascii "missing 'nodes' array"))
      else if flowMaxNodes < items.length then .error (flowErr (ascii "too many nodes (max 64)"))
      else do
        let nodes ← items.mapM flowNode
        match repeatedId nodes with
        | some id => .error (flowErr (ascii "duplicate node id '" ++ id ++ ascii "'"))
        | none =>
          let edges ← flowEdges root
          let d ← edges.foldlM flowEdge { nodes := nodes }
          (List.range d.n).foldlM (fun d i => flowReferences i ((d.task i).length + 1) d (d.task i)) d
    | _ => .error (flowErr (ascii "missing 'nodes' array"))
  | _ => .error (flowErr (ascii "invalid JSON document"))

end CognitiveOs.Runtime.FlowRun

/-!
## The graph of a flow

What `flow_parse` accepts is a graph in which every dependency, explicit or by a reference, is one
edge, and `indeg` counts the edges into a node.
-/

namespace CognitiveOs.Runtime.FlowRun

open Infra

/-- The nodes with an edge to `v`. -/
def FlowDag.preds (d : FlowDag) (v : Nat) : Finset Nat :=
  (Finset.range d.n).filter fun u => v ∈ d.adj u

structure FlowDag.Wf (d : FlowDag) : Prop where
  nodup : ∀ u, (d.adj u).Nodup
  inside : ∀ u, ∀ v ∈ d.adj u, v < d.n
  irrefl : ∀ u, u ∉ d.adj u
  indeg : ∀ v < d.n, d.indeg v = (d.preds v).card

variable {d d' : FlowDag} {u v : Nat}

theorem lt_of_adj (edge : v ∈ d.adj u) : u < d.n := by
  by_contra outside
  have none : d.nodes[u]? = none := List.getElem?_eq_none_iff.mpr (Nat.le_of_not_lt outside)
  rw [FlowDag.adj, none] at edge
  cases edge

theorem mem_preds : u ∈ d.preds v ↔ v ∈ d.adj u := by
  unfold FlowDag.preds
  rw [Finset.mem_filter, Finset.mem_range]
  exact ⟨fun both => both.2, fun edge => ⟨lt_of_adj edge, edge⟩⟩

variable {id : Text}

theorem flowNodeIndex_lt (found : flowNodeIndex d id = some u) : u < d.n :=
  (List.findIdx?_eq_some_iff_findIdx_eq.mp found).1

theorem flowNodeIndex_id (found : flowNodeIndex d id = some u) : d.id? u = some id := by
  obtain ⟨inside, holds, -⟩ := List.findIdx?_eq_some_iff_getElem.mp found
  rw [FlowDag.id?, List.getElem?_eq_getElem inside]
  simpa using holds

/-- The edges of `d'` are those of `d` and the pairs; the nodes are the same. -/
structure Grown (d : FlowDag) (pairs : Nat → Nat → Prop) (d' : FlowDag) : Prop where
  wf : d'.Wf
  n : d'.n = d.n
  id? : d'.id? = d.id?
  task : d'.task = d.task
  index : flowNodeIndex d' = flowNodeIndex d
  adj : ∀ u v, v ∈ d'.adj u ↔ v ∈ d.adj u ∨ pairs u v

theorem Grown.refl (wf : d.Wf) : Grown d (fun _ _ => False) d where
  wf := wf
  n := rfl
  id? := rfl
  task := rfl
  index := rfl
  adj _ _ := by simp

theorem Grown.trans {d'' : FlowDag} {pairs pairs' : Nat → Nat → Prop} (first : Grown d pairs d')
    (second : Grown d' pairs' d'') : Grown d (fun u v => pairs u v ∨ pairs' u v) d'' where
  wf := second.wf
  n := second.n.trans first.n
  id? := second.id?.trans first.id?
  task := second.task.trans first.task
  index := second.index.trans first.index
  adj u v := by rw [second.adj, first.adj, or_assoc]

theorem Grown.congr {pairs pairs' : Nat → Nat → Prop} (grown : Grown d pairs d')
    (same : ∀ u v, pairs u v ↔ pairs' u v) : Grown d pairs' d' where
  wf := grown.wf
  n := grown.n
  id? := grown.id?
  task := grown.task
  index := grown.index
  adj u v := by rw [grown.adj, same]

def withEdge (d : FlowDag) (u v : Nat) : FlowDag where
  nodes := (d.nodes.modify u fun node => { node with adj := node.adj ++ [v] }).modify v
    fun node => { node with indeg := node.indeg + 1 }

theorem nodes_withEdge (d : FlowDag) (u v a : Nat) : (withEdge d u v).nodes[a]? = d.nodes[a]?.map fun node =>
    { node with
      adj := if u = a then node.adj ++ [v] else node.adj
      indeg := if v = a then node.indeg + 1 else node.indeg } := by
  unfold withEdge
  rw [List.getElem?_modify, List.getElem?_modify]
  cases d.nodes[a]? with
  | none => rfl
  | some node => by_cases h : u = a <;> by_cases h' : v = a <;> simp [h, h']

theorem n_withEdge (d : FlowDag) (u v : Nat) : (withEdge d u v).n = d.n := by
  simp [withEdge, FlowDag.n]

theorem id?_withEdge (d : FlowDag) (u v : Nat) : (withEdge d u v).id? = d.id? := by
  funext a
  unfold FlowDag.id?
  rw [nodes_withEdge, Option.map_map]
  rfl

theorem task_withEdge (d : FlowDag) (u v : Nat) : (withEdge d u v).task = d.task := by
  funext a
  unfold FlowDag.task
  rw [nodes_withEdge, Option.map_map]
  rfl

theorem index_withEdge (d : FlowDag) (u v : Nat) : flowNodeIndex (withEdge d u v) = flowNodeIndex d := by
  have ids : (withEdge d u v).nodes.map FlowNode.id = d.nodes.map FlowNode.id := by
    refine List.ext_getElem? fun a => ?_
    rw [List.getElem?_map, List.getElem?_map, nodes_withEdge, Option.map_map]
    rfl
  funext id
  have through : ∀ e : FlowDag, flowNodeIndex e id = (e.nodes.map FlowNode.id).findIdx? fun x => x = id := by
    intro e
    unfold flowNodeIndex
    rw [List.findIdx?_map]
    rfl
  rw [through, through, ids]

theorem adj_withEdge {d : FlowDag} {u : Nat} (source : u < d.n) (v a : Nat) :
    (withEdge d u v).adj a = if u = a then d.adj a ++ [v] else d.adj a := by
  unfold FlowDag.adj
  rw [nodes_withEdge]
  by_cases this : u = a
  · subst this
    rw [List.getElem?_eq_getElem source]
    simp
  · simp [this, Option.map_map, Function.comp_def]

theorem indeg_withEdge {d : FlowDag} {v : Nat} (u : Nat) (target : v < d.n) (a : Nat) :
    (withEdge d u v).indeg a = if v = a then d.indeg a + 1 else d.indeg a := by
  unfold FlowDag.indeg
  rw [nodes_withEdge]
  by_cases this : v = a
  · subst this
    rw [List.getElem?_eq_getElem target]
    simp
  · simp [this, Option.map_map, Function.comp_def]

theorem mem_adj_withEdge {d : FlowDag} {u : Nat} (source : u < d.n) (v a b : Nat) :
    b ∈ (withEdge d u v).adj a ↔ b ∈ d.adj a ∨ a = u ∧ b = v := by
  rw [adj_withEdge source]
  split
  · rename_i this
    rw [List.mem_append, List.mem_singleton]
    constructor
    · rintro (old | new)
      · exact Or.inl old
      · exact Or.inr ⟨this.symm, new⟩
    · rintro (old | ⟨-, new⟩)
      · exact Or.inl old
      · exact Or.inr new
  · rename_i other
    constructor
    · exact Or.inl
    · rintro (old | ⟨this, -⟩)
      · exact old
      · exact absurd this.symm other

theorem wf_withEdge (wf : d.Wf) (source : u < d.n) (target : v < d.n) (different : u ≠ v) (new : v ∉ d.adj u) :
    (withEdge d u v).Wf where
  nodup a := by
    rw [adj_withEdge source]
    split
    · rename_i this
      subst this
      refine List.Nodup.append (wf.nodup u) (List.nodup_singleton v) ?_
      intro b old now
      obtain rfl := List.mem_singleton.mp now
      exact new old
    · exact wf.nodup a
  inside a b edge := by
    rw [n_withEdge]
    obtain old | ⟨rfl, rfl⟩ := (mem_adj_withEdge source v a b).mp edge
    · exact wf.inside a b old
    · exact target
  irrefl a edge := by
    obtain old | ⟨rfl, rfl⟩ := (mem_adj_withEdge source v a a).mp edge
    · exact wf.irrefl a old
    · exact different rfl
  indeg b inside := by
    rw [n_withEdge] at inside
    rw [indeg_withEdge u target, wf.indeg b inside]
    split
    · rename_i this
      subst this
      have more : (withEdge d u v).preds v = insert u (d.preds v) := by
        ext a
        rw [mem_preds, mem_adj_withEdge source, Finset.mem_insert, mem_preds]
        simp [or_comm]
      rw [more, Finset.card_insert_of_notMem fun old => new (mem_preds.mp old)]
    · rename_i other
      congr 1
      ext a
      rw [mem_preds, mem_preds, mem_adj_withEdge source]
      constructor
      · exact Or.inl
      · rintro (old | ⟨-, this⟩)
        · exact old
        · exact absurd this.symm other

theorem flowAddEdge_grown (wf : d.Wf) (source : u < d.n) (target : v < d.n)
    (added : flowAddEdge d u v = .ok d') : Grown d (fun a b => a = u ∧ b = v) d' := by
  unfold flowAddEdge at added
  split at added
  · cases added
  rename_i different
  split at added
  · rename_i old
    obtain rfl := Except.ok.inj added
    refine ⟨wf, rfl, rfl, rfl, rfl, fun a b => ?_⟩
    constructor
    · exact Or.inl
    · rintro (edge | ⟨rfl, rfl⟩)
      · exact edge
      · exact old
  rename_i new
  split at added
  · cases added
  obtain rfl : withEdge d u v = d' := Except.ok.inj added
  exact ⟨wf_withEdge wf source target different new, n_withEdge d u v, id?_withEdge d u v, task_withEdge d u v,
    index_withEdge d u v, mem_adj_withEdge source v⟩

/-! ### The document -/

variable {p : Text} {nodes : List FlowNode} {root : Json}

inductive Mentions : Text → Text → Prop where
  | here {p ref rest : Text} : nextReference p = .found ref rest → Mentions p ref
  | later {p ref ref' rest : Text} : nextReference p = .found ref' rest → Mentions rest ref → Mentions p ref

theorem mentions_none {ref : Text} (last : nextReference p = .none) : ¬Mentions p ref := by
  rintro (found | ⟨found, -⟩) <;> rw [last] at found <;> cases found

theorem mentions_found {ref ref' rest : Text} (found : nextReference p = .found ref' rest) :
    Mentions p ref ↔ ref = ref' ∨ Mentions rest ref := by
  constructor
  · rintro (first | ⟨first, later⟩) <;> rw [found] at first <;> cases first
    · exact Or.inl rfl
    · exact Or.inr later
  · rintro (rfl | later)
    · exact Mentions.here found
    · exact Mentions.later found later

theorem foldlM_grown {α : Type} {f : FlowDag → α → Except Text FlowDag} {new : α → Nat → Nat → Prop}
    {d₀ : FlowDag} {xs : List α}
    (one : ∀ {pairs : Nat → Nat → Prop} {d d' : FlowDag} {x : α}, x ∈ xs → Grown d₀ pairs d → f d x = .ok d' →
      Grown d (new x) d')
    {pairs : Nat → Nat → Prop} {d d' : FlowDag} (grown : Grown d₀ pairs d) (done : xs.foldlM f d = .ok d') :
    Grown d₀ (fun u v => pairs u v ∨ ∃ x ∈ xs, new x u v) d' := by
  induction xs generalizing d pairs with
  | nil =>
    obtain rfl := Except.ok.inj done
    exact grown.congr fun u v => by simp
  | cons x xs ih =>
    rw [List.foldlM_cons] at done
    cases first : f d x with
    | error message =>
      rw [first] at done
      cases done
    | ok middle =>
      rw [first] at done
      have step := grown.trans (one List.mem_cons_self grown first)
      refine (ih (fun member => one (List.mem_cons_of_mem x member)) step done).congr fun u v => ?_
      rw [or_assoc]
      simp only [List.mem_cons, exists_eq_or_imp]

/-- An item of `edges` between two nodes. -/
def Explicit (d : FlowDag) (edge : Json) (u v : Nat) : Prop :=
  ∃ source target, endpoints edge = some (source, target) ∧ flowNodeIndex d source = some u ∧
    flowNodeIndex d target = some v

theorem flowEdge_grown {edge : Json} (wf : d.Wf) (added : flowEdge d edge = .ok d') :
    Grown d (Explicit d edge) d' := by
  unfold flowEdge at added
  split at added
  · cases added
  · rename_i source target ends
    split at added
    · rename_i u v first second
      refine (flowAddEdge_grown wf (flowNodeIndex_lt first) (flowNodeIndex_lt second) added).congr fun a b => ?_
      constructor
      · rintro ⟨rfl, rfl⟩
        exact ⟨source, target, ends, first, second⟩
      · rintro ⟨source', target', ends', first', second'⟩
        rw [ends] at ends'
        cases ends'
        exact ⟨Option.some.inj (first'.symm.trans first), Option.some.inj (second'.symm.trans second)⟩
    · cases added

theorem flowReferences_grown {i fuel : Nat} (wf : d.Wf) (inside : i < d.n) (done : flowReferences i fuel d p = .ok d') :
    Grown d (fun u v => v = i ∧ ∃ ref, Mentions p ref ∧ flowNodeIndex d ref = some u) d' := by
  induction fuel generalizing d p with
  | zero => cases done
  | succ fuel ih =>
    unfold flowReferences at done
    split at done
    · rename_i last
      obtain rfl := Except.ok.inj done
      refine (Grown.refl wf).congr fun u v => ?_
      simp [mentions_none last]
    · cases done
    · rename_i ref rest found
      split at done
      · cases done
      · rename_i u index
        split at done
        · cases done
        · rename_i middle added
          have first := flowAddEdge_grown wf (flowNodeIndex_lt index) inside added
          have second := ih first.wf (first.n ▸ inside) done
          refine (first.trans second).congr fun a b => ?_
          simp only [mentions_found found, first.index]
          constructor
          · rintro (⟨rfl, rfl⟩ | ⟨rfl, ref', later, index'⟩)
            · exact ⟨rfl, ref, Or.inl rfl, index⟩
            · exact ⟨rfl, ref', Or.inr later, index'⟩
          · rintro ⟨rfl, ref', rfl | later, index'⟩
            · exact Or.inl ⟨Option.some.inj (index'.symm.trans index), rfl⟩
            · exact Or.inr ⟨rfl, ref', later, index'⟩

/-- Node `u` comes before node `v`: an item of `edges` has their ids, or the task of `v` refers to the
id of `u`. -/
def Depends (root : Json) (d : FlowDag) (u v : Nat) : Prop :=
  (∃ edge ∈ ((root.get? (ascii "edges")).map Json.items).getD [], ∃ source target,
    endpoints edge = some (source, target) ∧ d.id? u = some source ∧ d.id? v = some target) ∨
  v < d.n ∧ ∃ ref, Mentions (d.task v) ref ∧ d.id? u = some ref

theorem repeatedId_none (none : repeatedId nodes = none) : (nodes.map FlowNode.id).Nodup := by
  induction nodes with
  | nil => exact List.nodup_nil
  | cons node rest ih =>
    unfold repeatedId at none
    split at none
    · cases none
    · rename_i fresh
      exact List.nodup_cons.mpr ⟨fresh, ih none⟩

theorem flowNodeIndex_iff (distinct : (d.nodes.map FlowNode.id).Nodup) :
    flowNodeIndex d id = some u ↔ d.id? u = some id := by
  constructor
  · exact flowNodeIndex_id
  · intro here
    have here' : (d.nodes.map FlowNode.id)[u]? = some id := by rw [List.getElem?_map]; exact here
    cases found : flowNodeIndex d id with
    | none =>
      have absent := List.findIdx?_eq_none_iff.mp found
      obtain ⟨node, member, rfl⟩ := Option.map_eq_some_iff.mp here
      simpa using absent node (List.mem_of_getElem? member)
    | some w =>
      have there : (d.nodes.map FlowNode.id)[w]? = some id := by
        rw [List.getElem?_map]
        exact flowNodeIndex_id found
      have inside := (List.getElem?_eq_some_iff.mp here').1
      rw [(List.getElem?_inj inside distinct).mp (here'.trans there.symm)]

theorem mapM_flowNode {items : List Json} (done : items.mapM flowNode = .ok nodes) :
    nodes.length = items.length ∧ ∀ node ∈ nodes, node.indeg = 0 ∧ node.adj = [] := by
  induction items generalizing nodes with
  | nil =>
    obtain rfl := Except.ok.inj done
    exact ⟨rfl, fun node member => by cases member⟩
  | cons item items ih =>
    rw [List.mapM_cons] at done
    cases first : flowNode item with
    | error message =>
      rw [first] at done
      cases done
    | ok node =>
      rw [first] at done
      cases rest : items.mapM flowNode with
      | error message =>
        rw [rest] at done
        cases done
      | ok others =>
        rw [rest] at done
        obtain rfl := Except.ok.inj done
        obtain ⟨length, fresh⟩ := ih rest
        refine ⟨congrArg (· + 1) length, List.forall_mem_cons.mpr ⟨?_, fresh⟩⟩
        unfold flowNode at first
        split at first
        · split at first
          · cases first
          · split at first
            · cases first
            · obtain rfl := Except.ok.inj first
              exact ⟨rfl, rfl⟩
        · cases first

theorem adj_fresh (fresh : ∀ node ∈ nodes, node.indeg = 0 ∧ node.adj = []) (u : Nat) :
    (FlowDag.mk nodes).adj u = [] := by
  unfold FlowDag.adj
  cases here : nodes[u]? with
  | none => rfl
  | some node => exact (fresh node (List.mem_of_getElem? here)).2

theorem edges_of_flowEdges {edges : List Json} (listed : flowEdges root = .ok edges) :
    edges = ((root.get? (ascii "edges")).map Json.items).getD [] := by
  unfold flowEdges at listed
  split at listed
  · rename_i here
    rw [here]
    exact (Except.ok.inj listed).symm
  · cases listed
  · rename_i absent
    rw [absent]
    exact (Except.ok.inj listed).symm

theorem wf_fresh (fresh : ∀ node ∈ nodes, node.indeg = 0 ∧ node.adj = []) : (FlowDag.mk nodes).Wf := by
  have adj := adj_fresh fresh
  refine ⟨fun u => ?_, fun u v edge => ?_, fun u edge => ?_, fun v inside => ?_⟩
  · rw [adj]
    exact List.nodup_nil
  · rw [adj] at edge
    cases edge
  · rw [adj] at edge
    cases edge
  · have none : (FlowDag.mk nodes).preds v = ∅ := by
      ext u
      rw [mem_preds, adj]
      simp
    have member : nodes[v] ∈ nodes := List.getElem_mem inside
    rw [none, FlowDag.indeg, List.getElem?_eq_getElem inside]
    exact (fresh _ member).1

theorem flowParse_cases (parsed : flowParse root = .ok d) :
    ∃ items nodes edges middle, items ≠ [] ∧ items.length ≤ flowMaxNodes ∧ items.mapM flowNode = .ok nodes ∧
      repeatedId nodes = none ∧ flowEdges root = .ok edges ∧ edges.foldlM flowEdge { nodes := nodes } = .ok middle ∧
      (List.range middle.n).foldlM
        (fun d i => flowReferences i ((d.task i).length + 1) d (d.task i)) middle = .ok d := by
  unfold flowParse at parsed
  split at parsed
  · rename_i members
    split at parsed
    · rename_i items nodesItem
      split at parsed
      · cases parsed
      rename_i some
      split at parsed
      · cases parsed
      rename_i few
      cases mapped : items.mapM flowNode with
      | error message =>
        rw [mapped] at parsed
        cases parsed
      | ok nodes =>
        rw [mapped] at parsed
        simp only [bind, Except.bind] at parsed
        split at parsed
        · cases parsed
        rename_i single
        cases listed : flowEdges (.object members) with
        | error message =>
          rw [listed] at parsed
          cases parsed
        | ok edges =>
          rw [listed] at parsed
          simp only at parsed
          split at parsed
          · cases parsed
          rename_i middle first
          exact ⟨items, nodes, edges, middle, some, Nat.le_of_not_lt few, mapped, single, rfl, first, parsed⟩
    · cases parsed
  · cases parsed

theorem flowEdges_grown {edges : List Json} (fresh : ∀ node ∈ nodes, node.indeg = 0 ∧ node.adj = [])
    (done : edges.foldlM flowEdge { nodes := nodes } = .ok d) :
    Grown ⟨nodes⟩ (fun u v => False ∨ ∃ edge ∈ edges, Explicit ⟨nodes⟩ edge u v) d := by
  refine foldlM_grown ?_ (Grown.refl (wf_fresh fresh)) done
  intro pairs d d' x _ grown done
  have step := flowEdge_grown grown.wf done
  unfold Explicit at step
  rw [grown.index] at step
  exact step

theorem flowParse_spec (parsed : flowParse root = .ok d) :
    d.Wf ∧ 0 < d.n ∧ d.n ≤ flowMaxNodes ∧ ∀ u v, v ∈ d.adj u ↔ Depends root d u v := by
  obtain ⟨items, nodes, edges, middle, some, few, mapped, single, listed, first, last⟩ := flowParse_cases parsed
  obtain ⟨length, fresh⟩ := mapM_flowNode mapped
  have distinct := repeatedId_none single
  have explicit := flowEdges_grown fresh first
  have another : ∀ {pairs : Nat → Nat → Prop} {d d' : FlowDag} {i : Nat}, i ∈ List.range middle.n →
      Grown ⟨nodes⟩ pairs d → flowReferences i ((d.task i).length + 1) d (d.task i) = .ok d' →
      Grown d (fun u v => v = i ∧ ∃ ref, Mentions ((FlowDag.mk nodes).task i) ref ∧
        flowNodeIndex ⟨nodes⟩ ref = Option.some u) d' := by
    intro pairs d d' i member grown done
    have inside : i < d.n := by
      rw [grown.n, ← explicit.n]
      exact List.mem_range.mp member
    have step := flowReferences_grown grown.wf inside done
    rw [grown.index, grown.task] at step
    exact step
  have whole := foldlM_grown another explicit last
  have size : d.n = items.length := whole.n.trans length
  refine ⟨whole.wf, ?_, ?_, fun u v => ?_⟩
  · rw [size]
    exact List.length_pos_of_ne_nil some
  · rw [size]
    exact few
  · have index : ∀ {id : Text} {a : Nat},
        flowNodeIndex ⟨nodes⟩ id = Option.some a ↔ d.id? a = Option.some id := by
      intro id a
      rw [whole.id?]
      exact flowNodeIndex_iff distinct
    rw [whole.adj, adj_fresh fresh]
    unfold Depends Explicit
    rw [← edges_of_flowEdges listed, whole.task, whole.n.trans explicit.n.symm]
    simp only [index, List.not_mem_nil, false_or, List.mem_range]
    refine or_congr_right ?_
    constructor
    · rintro ⟨i, inside, rfl, ref, mentions, here⟩
      exact ⟨inside, ref, mentions, here⟩
    · rintro ⟨inside, ref, mentions, here⟩
      exact ⟨v, inside, rfl, ref, mentions, here⟩

end CognitiveOs.Runtime.FlowRun
