import CognitiveOs.Foundation.Machine
import CognitiveOs.Runtime.FlowRun.Layer

/-!
# Running a flow

`flow_run` and `flow_worker` of `runtime/flow.c`: the layers one after the other, the nodes of a layer
in batches, each node in a worker of its own. The steps of the main thread, the ends of the workers
and a cancellation or a timeout of the parent task come in any order.
-/

namespace CognitiveOs.Runtime.FlowRun

open Foundation Infra

def flowMaxParallel : Nat := 8

/-- The states of `flow_prog_node_mark` in which a node ends. -/
inductive Terminal where
  | ok
  | error
  | blocked
  | cancelled
  | timeout
  deriving DecidableEq

/-- The mark of `flow_worker`, from `rc`. -/
def workerMark (rc : Int) : Terminal :=
  if rc = 0 then .ok else if rc = -3 then .cancelled else if rc = -4 then .timeout else .error

inductive Worker where
  | idle
  | running
  | finished
  deriving DecidableEq

inductive Phase where
  /-- it looks at node `i` for layer `layer`; `runidx` are the nodes to run so far -/
  | select (layer i : Nat) (runidx : List Nat)
  /-- it sets up the jobs in `todo` -/
  | prepare (layer : Nat) (todo runidx : List Nat)
  /-- it starts the workers of `todo` in the batch, or waits for one that runs inline -/
  | spawn (layer : Nat) (todo batch rest : List Nat) (inline : Option Nat)
  /-- it joins the workers of `todo` -/
  | join (layer : Nat) (todo rest : List Nat)
  | done
  deriving DecidableEq

/-- `rc` and `prepared` are fields of the jobs; a job is prepared when its text could be built. `cancel`
is the parent's `cancel_flag`, `timeout` says that its time is over, `marked` has the terminal marks of
a node. -/
structure State where
  phase : Phase
  rc : Nat → Int
  prepared : Nat → Bool
  failed : Bool
  worker : Nat → Worker
  marked : Nat → List Terminal
  cancel : Bool
  timeout : Bool

inductive Label where
  | cancel
  | timeout
  /-- the next step of the main thread; `success` is the outcome of building the text of a node, or
  of `thread_create` -/
  | main (success : Bool)
  /-- a worker ends; `outcome` is the result of its agent -/
  | finish (i : Nat) (outcome : Int)

namespace State

/-- `task_should_abort` of the parent. -/
def aborted (st : State) : Bool :=
  st.cancel || st.timeout

def abortRc (st : State) : Int :=
  if st.cancel then -3 else -4

def abortMark (st : State) : Terminal :=
  if st.cancel then .cancelled else .timeout

/-- Node `i` gets a terminal mark. -/
def mark (st : State) (i : Nat) (rc : Int) (terminal : Terminal) : State :=
  { st with rc := Function.update st.rc i rc, marked := Function.update st.marked i (st.marked i ++ [terminal]) }

end State

section

variable (d : FlowDag)

def layerOf (i : Nat) : Nat :=
  (flowLayer d).layer i

def maxLayer : Nat :=
  ((List.range d.n).map (layerOf d)).foldl max 0

/-- A node before node `i` has not succeeded. -/
def blockedBy (st : State) (i : Nat) : Bool :=
  (List.range d.n).any fun u => i ∈ d.adj u ∧ st.rc u ≠ 0

def nextBatch (layer : Nat) (rest : List Nat) : Phase :=
  if rest ≠ [] then
    .spawn layer (rest.take flowMaxParallel) (rest.take flowMaxParallel) (rest.drop flowMaxParallel) none
  else if layer + 1 ≤ maxLayer d then .select (layer + 1) 0 []
  else .done

/-- The main thread looks at node `i` in the pass for a layer. -/
def select (st : State) (layer i : Nat) (runidx : List Nat) : State :=
  let next := { st with phase := .select layer (i + 1) runidx }
  if layerOf d i ≠ layer then next
  else if st.aborted then { next.mark i st.abortRc st.abortMark with failed := true }
  else if blockedBy d st i then { next.mark i (-2) .blocked with failed := true }
  else { next with phase := .select layer (i + 1) (runidx ++ [i]) }

def main (st : State) (success : Bool) : Option State :=
  match st.phase with
  | .select layer i runidx =>
    if i < d.n then some (select d st layer i runidx) else some { st with phase := .prepare layer runidx runidx }
  | .prepare layer (i :: todo) runidx =>
    some
      { st with
        phase := .prepare layer todo runidx
        prepared := Function.update st.prepared i success
        rc := Function.update st.rc i (-1) }
  | .prepare layer [] runidx => some { st with phase := nextBatch d layer runidx }
  | .spawn layer todo batch rest (some i) =>
    if st.worker i = .finished then some { st with phase := .spawn layer todo batch rest none } else none
  | .spawn layer (i :: todo) batch rest none =>
    some
      { st with
        phase := .spawn layer todo batch rest (if success then none else some i)
        worker := Function.update st.worker i .running }
  | .spawn layer [] batch rest none => some { st with phase := .join layer batch rest }
  | .join layer (i :: todo) rest =>
    if st.worker i = .finished then
      some { st with phase := .join layer todo rest, failed := st.failed || decide (st.rc i ≠ 0) }
    else none
  | .join layer [] rest => some { st with phase := nextBatch d layer rest }
  | .done => none

/-- The end of `flow_worker`: without a text it fails at once, and an abort of the parent overrides
the outcome of the agent. -/
def finish (st : State) (i : Nat) (outcome : Int) : State :=
  let st := { st with worker := Function.update st.worker i .finished }
  if st.prepared i = false then st.mark i (-1) .error
  else if st.aborted then st.mark i st.abortRc (workerMark st.abortRc)
  else st.mark i outcome (workerMark outcome)

def step (st : State) : Label → Option State
  | .cancel => some { st with cancel := true }
  | .timeout => some { st with timeout := true }
  | .main success => main d st success
  | .finish i outcome => if st.worker i = .running then some (finish st i outcome) else none

def machine : Machine State Label :=
  .ofPartial (step d)

end

def start : State where
  phase := .select 0 0 []
  rc := fun _ => 0
  prepared := fun _ => false
  failed := false
  worker := fun _ => .idle
  marked := fun _ => []
  cancel := false
  timeout := false

/-- `flow_run` before the loop: the graph that will be run. `registered` is `agent_pool_find`. -/
def flowRun (registered : Text → Bool) (root : Json) : Option FlowDag :=
  match flowParse root with
  | .error _ => none
  | .ok d =>
    if (flowLayer d).done < d.n then none
    else if d.nodes.all fun node => registered node.agent then some d
    else none

/-- The result of `flow_run`. -/
def State.result (st : State) : Int :=
  if st.failed then -1 else 0

end CognitiveOs.Runtime.FlowRun
