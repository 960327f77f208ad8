import Mathlib.Data.List.Basic

/-!
# Labelled machines and their runs

A machine is a relation between a state, a label and the next state. `Run` is a
finite run of it, read left to right; the rules below turn a fact about one step
into a fact about a whole run. Nothing here knows what the states are.
-/

namespace Foundation

universe u v

variable {State : Type u} {Label : Type v}

/-- The step relation of a machine. -/
abbrev Machine (State : Type u) (Label : Type v) := State → Label → State → Prop

namespace Machine

/-- A finite run: the labels it takes, from the first state to the last. -/
inductive Run (machine : Machine State Label) : State → List Label → State → Prop where
  | start (state : State) : Run machine state [] state
  | step {first middle last : State} {labels : List Label} {label : Label} :
      Run machine first labels middle → machine middle label last →
      Run machine first (labels ++ [label]) last

/-- The machine that only takes the steps allowed by a condition on the state
before the step and its label. -/
def restrict (machine : Machine State Label) (allowed : State → Label → Prop) :
    Machine State Label :=
  fun state label next => allowed state label ∧ machine state label next

def ofFun (step : State → Label → State) : Machine State Label :=
  fun state label next => step state label = next

def ofPartial (step : State → Label → Option State) : Machine State Label :=
  fun state label next => step state label = some next

theorem Run.single {machine : Machine State Label} {state next : State} {label : Label}
    (taken : machine state label next) : machine.Run state [label] next := by
  simpa using (Run.start state).step taken

variable {first last : State}

theorem Run.trans {machine : Machine State Label} {middle : State} {before after : List Label}
    (left : machine.Run first before middle) (right : machine.Run middle after last) :
    machine.Run first (before ++ after) last := by
  induction right with
  | start => simpa using left
  | step _ taken ih => simpa [List.append_assoc] using ih.step taken

theorem Run.cons {machine : Machine State Label} {first middle last : State}
    {label : Label} {labels : List Label} (taken : machine first label middle)
    (rest : machine.Run middle labels last) : machine.Run first (label :: labels) last := by
  simpa using (Run.single taken).trans rest

variable {labels : List Label}

theorem Run.mono {machine other : Machine State Label} (included : ∀ s l t, machine s l t → other s l t)
    (run : machine.Run first labels last) : other.Run first labels last := by
  induction run with
  | start => exact .start _
  | step _ taken ih => exact ih.step (included _ _ _ taken)

theorem Run.invariant {machine : Machine State Label} {holds : State → Prop}
    (preserved : ∀ s l t, holds s → machine s l t → holds t)
    {first last : State} {labels : List Label} (run : machine.Run first labels last)
    (initial : holds first) : holds last := by
  induction run with
  | start => exact initial
  | step _ taken ih => exact preserved _ _ _ ih taken

variable {allowed : State → Label → Prop}

theorem Run.unrestrict {machine : Machine State Label} (run : (machine.restrict allowed).Run first labels last) :
    machine.Run first labels last :=
  run.mono fun _ _ _ taken => taken.2

theorem run_ofFun_iff {step : State → Label → State} {first last : State}
    {labels : List Label} :
    (ofFun step).Run first labels last ↔ labels.foldl step first = last := by
  constructor
  · intro run
    induction run with
    | start => rfl
    | step _ taken ih => rw [List.foldl_append, ih]; exact taken
  · rintro rfl
    induction labels generalizing first with
    | nil => exact .start _
    | cons label labels ih => exact Run.cons rfl ih

/-- Execute a list of labels, stopping with `none` at the first disabled one. -/
def exec (step : State → Label → Option State) : State → List Label → Option State
  | state, [] => some state
  | state, label :: labels => (step state label).bind fun next => exec step next labels

variable {step : State → Label → Option State}

theorem run_ofPartial_of_exec (done : exec step first labels = some last) : (ofPartial step).Run first labels last := by
  induction labels generalizing first with
  | nil =>
    obtain rfl : first = last := by simpa [exec] using done
    exact .start _
  | cons label labels ih =>
    obtain ⟨next, taken, rest⟩ := Option.bind_eq_some_iff.mp done
    exact Run.cons taken (ih rest)

theorem run_restrict_of_exec (fits : ∀ label ∈ labels, ∀ state, allowed state label)
    (done : exec step first labels = some last) : ((ofPartial step).restrict allowed).Run first labels last := by
  induction labels generalizing first with
  | nil =>
    obtain rfl : first = last := by simpa [exec] using done
    exact .start _
  | cons label labels ih =>
    obtain ⟨next, taken, rest⟩ := Option.bind_eq_some_iff.mp done
    obtain ⟨here, later⟩ := List.forall_mem_cons.mp fits
    exact Run.cons ⟨here first, taken⟩ (ih later rest)

theorem run_restrict_of_checked [∀ state label, Decidable (allowed state label)]
    (done : exec (fun state label => if allowed state label then step state label else none) first labels = some last) :
    ((ofPartial step).restrict allowed).Run first labels last := by
  refine (run_ofPartial_of_exec done).mono ?_
  intro state label next taken
  simp only [ofPartial] at taken
  split at taken
  · rename_i fits
    exact ⟨fits, taken⟩
  · cases taken

end Machine

end Foundation

/-!
## Potentials

A bound on how often a run takes steps of one kind: the states have a worth, every step of that
kind uses up one of it, and only the steps of another kind add to it.
-/

namespace Foundation.Machine

universe u v

variable {State : Type u} {Label : Type v} {machine : Machine State Label} {holds : State → Prop}

theorem Run.potential (worth : State → Nat) {spends feeds : Label → Bool} {gain : Nat}
    (preserved : ∀ s l t, holds s → machine s l t → holds t)
    (paid : ∀ s l t, holds s → machine s l t →
      worth t + (if spends l then 1 else 0) ≤ worth s + (if feeds l then gain else 0))
    {first last : State} {labels : List Label} (run : machine.Run first labels last)
    (initial : holds first) :
    worth last + labels.countP spends ≤ worth first + labels.countP feeds * gain := by
  induction run with
  | start => simp
  | @step middle last labels label before taken ih =>
    have step := paid _ _ _ (before.invariant preserved initial) taken
    simp only [List.countP_append, List.countP_singleton]
    cases fed : feeds label with
    | false =>
      simp only [fed, Bool.false_eq_true, ↓reduceIte, Nat.add_zero] at step ⊢
      omega
    | true =>
      simp only [fed, ↓reduceIte, Nat.add_mul, Nat.one_mul] at step ⊢
      omega

end Foundation.Machine
