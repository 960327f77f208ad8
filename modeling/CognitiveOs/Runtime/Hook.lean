import CognitiveOs.Foundation.Machine
import CognitiveOs.Foundation.Upsert
import CognitiveOs.Foundation.Window
import CognitiveOs.Infra.Text

/-!
# Hooks

`hook.c`: callbacks for named events. A dispatch collects the callbacks under the lock and calls them
outside of it, so that other calls, those of the callbacks too, come in between.
-/

namespace CognitiveOs.Runtime.Hooks

open Foundation Foundation.Upsert Foundation.Window Infra

/-- `struct hook`; `Fn` is a callback with its `ud`. -/
structure Hook (Fn : Type) where
  id : Int
  event : Text
  fn : Fn

/-- `struct hook_registry`; the latest hook is the first one. -/
structure Registry (Fn : Type) where
  hooks : List (Hook Fn) := []
  nextId : Int := 1

/-- A call of `hook_dispatch` that has left the lock: what it has called and what was returned, and
the hooks it calls next. -/
structure Call (Fn : Type) where
  event : Text
  fired : List (Hook Fn × Int) := []
  pending : List (Hook Fn)
  blocked : Bool := false

variable {Fn : Type}

/-- `hook_register`, and its answer. -/
def hookRegister (h : Registry Fn) (event : Option Text) (fn : Option Fn) : Int × Registry Fn :=
  match event, fn with
  | some event, some fn =>
    if event = [] then (-1, h)
    else (h.nextId, { hooks := ⟨h.nextId, event, fn⟩ :: h.hooks, nextId := h.nextId + 1 })
  | _, _ => (-1, h)

/-- `hook_unregister`, and its answer. -/
def hookUnregister (h : Registry Fn) (id : Int) : Int × Registry Fn :=
  if id ≤ 0 then (-1, h)
  else if id ∈ h.hooks.map Hook.id then (0, { h with hooks := eraseKey Hook.id id h.hooks })
  else (-1, h)

def takes (event : Text) (hk : Hook Fn) : Bool :=
  hk.event = event ∨ hk.event = ascii "*"

/-- The loop of `hook_dispatch` under the lock, with room for some more hooks. -/
def collect (event : Text) : Nat → List (Hook Fn) → List (Hook Fn)
  | 0, _ => []
  | _, [] => []
  | room + 1, hk :: rest =>
    if takes event hk then hk :: collect event room rest else collect event (room + 1) rest

/-- The registry and all calls of `hook_dispatch` there have been. -/
structure State (Fn : Type) where
  registry : Registry Fn := {}
  calls : List (Call Fn) := []

inductive Label (Fn : Type) where
  | register (event : Option Text) (fn : Option Fn)
  | unregister (id : Int)
  /-- a call of `hook_dispatch` collects the hooks -/
  | dispatch (event : Option Text)
  /-- the next hook of a call returns -/
  | fire (call : Nat) (rc : Int)

def step (s : State Fn) : Label Fn → Option (State Fn)
  | .register event fn => some { s with registry := (hookRegister s.registry event fn).2 }
  | .unregister id => some { s with registry := (hookUnregister s.registry id).2 }
  | .dispatch none => some s
  | .dispatch (some event) =>
    if event = [] then some s
    else some { s with calls := s.calls ++ [{ event, pending := (collect event 64 s.registry.hooks).reverse }] }
  | .fire i rc =>
    match s.calls[i]? with
    | some { event, fired, pending := hk :: pending, blocked } =>
      some { s with
        calls := s.calls.set i { event, fired := fired ++ [(hk, rc)], pending, blocked := blocked || rc ≠ 0 } }
    | _ => none

theorem collect_eq (event : Text) (room : Nat) (hooks : List (Hook Fn)) :
    collect event room hooks = (hooks.filter (takes event)).take room := by
  induction hooks generalizing room with
  | nil => cases room <;> rfl
  | cons hk rest ih =>
    cases room with
    | zero => rfl
    | succ room =>
      unfold collect
      split
      · rw [List.filter_cons_of_pos ‹_›, List.take_succ_cons, ih]
      · rw [List.filter_cons_of_neg ‹_›, ih]

/-- The hooks that are registered after some calls, in the order in which they came, and the id of
the next one. -/
structure Log (Fn : Type) where
  hooks : List (Hook Fn) := []
  nextId : Int := 1

namespace Log

def record (log : Log Fn) : Label Fn → Log Fn
  | .register (some (b :: event)) (some fn) =>
    { hooks := log.hooks ++ [⟨log.nextId, b :: event, fn⟩], nextId := log.nextId + 1 }
  | .unregister id => { log with hooks := log.hooks.filter fun hk => hk.id ≠ id }
  | _ => log

def ofLabels (labels : List (Label Fn)) : Log Fn :=
  labels.foldl record {}

theorem ofLabels_snoc (labels : List (Label Fn)) (label : Label Fn) :
    ofLabels (labels ++ [label]) = (ofLabels labels).record label :=
  List.foldl_append

end Log

/-- The registry holds the hooks of the log, the latest one first. -/
structure Follows (h : Registry Fn) (log : Log Fn) : Prop where
  hooks : h.hooks = log.hooks.reverse
  nextId : h.nextId = log.nextId
  positive : 0 < log.nextId
  ids : ∀ hk ∈ log.hooks, 0 < hk.id ∧ hk.id < log.nextId
  distinct : (h.hooks.map Hook.id).Nodup

theorem Follows.register {h : Registry Fn} {log : Log Fn} (follows : Follows h log) (event : Option Text)
    (fn : Option Fn) : Follows (hookRegister h event fn).2 (log.record (.register event fn)) := by
  rcases event with - | - | ⟨b, event⟩
  · exact follows
  · cases fn <;> exact follows
  · cases fn with
    | none => exact follows
    | some fn =>
      have next : 0 < log.nextId + 1 := Int.lt_trans follows.positive (Int.lt_succ _)
      refine ⟨?_, congrArg (· + 1) follows.nextId, next, fun hk member => ?_,
        List.nodup_cons.mpr ⟨?_, follows.distinct⟩⟩
      · show _ :: h.hooks = (log.hooks ++ [_]).reverse
        rw [List.reverse_append, follows.hooks, follows.nextId]
        rfl
      · rcases List.mem_append.mp member with old | new
        · obtain ⟨positive, small⟩ := follows.ids hk old
          exact ⟨positive, Int.lt_trans small (Int.lt_succ _)⟩
        · obtain rfl := List.mem_singleton.mp new
          exact ⟨follows.positive, Int.lt_succ _⟩
      · intro member
        obtain ⟨hk, member, same⟩ := List.mem_map.mp member
        rw [follows.hooks, List.mem_reverse] at member
        have small := (follows.ids hk member).2
        have latest : hk.id = log.nextId := same.trans follows.nextId
        omega

theorem Follows.unregister {h : Registry Fn} {log : Log Fn} (follows : Follows h log) (id : Int) :
    Follows (hookUnregister h id).2 (log.record (.unregister id)) := by
  have erased : (hookUnregister h id).2.hooks = h.hooks.filter fun hk => hk.id ≠ id := by
    have unchanged (absent : ∀ hk ∈ h.hooks, hk.id ≠ id) : h.hooks = h.hooks.filter fun hk => hk.id ≠ id :=
      (List.filter_eq_self.mpr fun hk member => decide_eq_true (absent hk member)).symm
    unfold hookUnregister
    split
    · rename_i bad
      refine unchanged fun hk member => ?_
      rw [follows.hooks, List.mem_reverse] at member
      have positive := (follows.ids hk member).1
      omega
    · split
      · exact eraseKey_eq_filter follows.distinct
      · rename_i absent
        exact unchanged fun hk member same => absent (same ▸ List.mem_map_of_mem member)
  have same : (hookUnregister h id).2.nextId = h.nextId := by
    unfold hookUnregister
    split
    · rfl
    · split <;> rfl
  refine ⟨?_, same.trans follows.nextId, follows.positive, fun hk member => ?_, ?_⟩
  · rw [erased, follows.hooks, List.filter_reverse]
    rfl
  · exact follows.ids hk (List.mem_of_mem_filter member)
  · rw [erased]
    exact follows.distinct.sublist (List.filter_sublist.map _)

/-- A call that collects hooks. -/
def starts : Label Fn → Bool
  | .dispatch (some (_ :: _)) => true
  | _ => false

/-- What a call has fired and what is pending, in this order, are the latest 64 hooks that were
registered for its event when it collected them, and it blocks if one of those has. -/
def CallOf (labels : List (Label Fn)) (i : Nat) (call : Call Fn) : Prop :=
  ∃ before after, labels = before ++ .dispatch (some call.event) :: after ∧ before.countP starts = i ∧
    call.fired.map Prod.fst ++ call.pending = lastN 64 ((Log.ofLabels before).hooks.filter (takes call.event)) ∧
    call.blocked = call.fired.any fun r => r.2 ≠ 0

theorem CallOf.snoc {labels : List (Label Fn)} {i : Nat} {call : Call Fn} (of : CallOf labels i call)
    (label : Label Fn) : CallOf (labels ++ [label]) i call := by
  obtain ⟨before, after, rfl, rest⟩ := of
  exact ⟨before, after ++ [label], by rw [List.append_assoc, List.cons_append], rest⟩

theorem collected_eq (event : Text) {h : Registry Fn} {log : Log Fn} (follows : Follows h log) :
    (collect event 64 h.hooks).reverse = lastN 64 (log.hooks.filter (takes event)) := by
  rw [collect_eq, follows.hooks, List.filter_reverse, List.take_reverse, List.reverse_reverse, lastN]

/-- However calls come in between: the registry holds the hooks that were registered and not removed,
under ids of their own, and every call of `hook_dispatch` calls each hook that it collected once, in
the order of registration. -/
theorem hooks_fired_exact {labels : List (Label Fn)} {s : State Fn}
    (run : Machine.Run (Machine.ofPartial step) {} labels s) :
    Follows s.registry (Log.ofLabels labels) ∧ s.calls.length = labels.countP starts ∧
      ∀ i call, s.calls[i]? = some call → CallOf labels i call := by
  generalize start : ({} : State Fn) = first at run
  induction run with
  | start =>
    subst start
    exact ⟨⟨rfl, rfl, Int.one_pos, nofun, List.nodup_nil⟩, rfl, nofun⟩
  | @step s t labels label before taken ih =>
    obtain ⟨follows, length, calls⟩ := ih
    rw [Log.ofLabels_snoc, List.countP_append, List.countP_singleton]
    have kept : ∀ i call, s.calls[i]? = some call → CallOf (labels ++ [label]) i call :=
      fun i call here => (calls i call here).snoc label
    cases label with
    | register event fn =>
      cases taken
      exact ⟨follows.register event fn, length, kept⟩
    | unregister id =>
      cases taken
      exact ⟨follows.unregister id, length, kept⟩
    | dispatch event =>
      rcases event with - | - | ⟨b, event⟩
      · cases taken
        exact ⟨follows, length, kept⟩
      · cases taken
        exact ⟨follows, length, kept⟩
      · cases taken
        refine ⟨follows, by simp [length, starts], fun i call here => ?_⟩
        rcases Nat.lt_or_ge i s.calls.length with old | new
        · rw [List.getElem?_append_left old] at here
          exact kept i call here
        · rw [List.getElem?_append_right new, List.getElem?_singleton] at here
          split at here
          · rename_i first
            cases here
            exact ⟨labels, [], rfl, by omega, collected_eq _ follows, rfl⟩
          · cases here
    | fire j rc =>
      simp only [Machine.ofPartial, step] at taken
      split at taken
      · rename_i event fired hk pending blocked found
        cases taken
        refine ⟨follows, by simpa [starts] using length, fun i call here => ?_⟩
        rw [List.getElem?_set] at here
        split at here
        · rename_i same
          subst same
          rw [if_pos (List.getElem?_eq_some_iff.mp found).1] at here
          cases here
          obtain ⟨before, after, split, count, whole, blocks⟩ := kept j _ found
          refine ⟨before, after, split, count, ?_, ?_⟩
          · rw [← whole, List.map_append, List.append_assoc]
            rfl
          · rw [List.any_append, ← blocks]
            simp
        · exact kept i call here
      · cases taken

/-- A hook is removed while it is called. -/
def removing : List (Label Unit) :=
  [.register (some [97]) (some ()), .dispatch (some [97]), .unregister 1, .fire 0 7]

def removed : Call Unit :=
  { event := [97], fired := [(⟨1, [97], ()⟩, 7)], pending := [], blocked := true }

theorem hooks_fired_exact_removing : CallOf removing 0 removed :=
  (hooks_fired_exact (s := ⟨⟨[], 2⟩, [removed]⟩) (Machine.run_ofPartial_of_exec rfl)).2.2 0 removed rfl

end CognitiveOs.Runtime.Hooks
