import CognitiveOs.Sessions.Transcript
import Mathlib.Data.List.Nodup

/-!
# Sessions shared by lanes

The session store of `cognition/reasoning.c`, with the session each lane points to. Every step
holds the lock of the store; a lane takes one prompt at a time.
-/

namespace CognitiveOs.Sessions

open Foundation Infra

structure SharedSession where
  id : Text
  handle : Nat
  inRun : Bool := false

structure LaneState where
  cur : Option Nat := none
  running : Bool := false

structure Pool (Lane : Type) where
  sessions : List SharedSession := []
  next : Nat := 0
  lane : Lane → LaneState := fun _ => {}

/-- The ways out of a run; each clears the mark of the lane's session. -/
inductive Exit where
  | credentials
  | provider
  | finished

inductive LaneLabel (Lane : Type) where
  /-- `allocated` says whether a session that is not there can be made. -/
  | run (l : Lane) (sessionId : Text) (allocated : Bool)
  | finish (l : Lane) (exit : Exit)
  /-- A clear, or another access that makes the session when the index knows it. -/
  | clear (sessionId : Text) (indexed allocated : Bool)
  | delete (l : Lane) (sessionId : Text)

namespace Pool

variable {Lane : Type} [DecidableEq Lane]

def find (p : Pool Lane) (id : Text) : Option SharedSession :=
  p.sessions.find? fun s => s.id = id

def setLane (p : Pool Lane) (l : Lane) (state : LaneState) : Pool Lane :=
  { p with lane := Function.update p.lane l state }

def mark (p : Pool Lane) (handle : Nat) (inRun : Bool) : Pool Lane :=
  { p with sessions := p.sessions.map fun s => if s.handle = handle then { s with inRun } else s }

def sessionGetLocked (p : Pool Lane) (id : Text) (allocated : Bool) :
    Option SharedSession × Pool Lane :=
  match p.find id with
  | some s => (some s, p)
  | none =>
    if allocated then
      let s : SharedSession := { id, handle := p.next }
      (some s, { p with sessions := p.sessions ++ [s], next := p.next + 1 })
    else (none, p)

/-- The start of `reasoning_run_ex`; a session that is in a run is refused. -/
def runStart (p : Pool Lane) (l : Lane) (id : Text) (allocated : Bool) : Pool Lane :=
  match p.sessionGetLocked id allocated with
  | (none, p) => p.setLane l { cur := none }
  | (some s, p) =>
    if s.inRun then p.setLane l { cur := some s.handle }
    else (p.mark s.handle true).setLane l { cur := some s.handle, running := true }

def runFinish (p : Pool Lane) (l : Lane) : Pool Lane :=
  let cur := (p.lane l).cur
  (match cur with
    | some handle => p.mark handle false
    | none => p).setLane l { cur }

/-- `reasoning_session_delete` through a lane; a session in a run is busy. -/
def sessionDelete (p : Pool Lane) (l : Lane) (id : Text) : Pool Lane :=
  match p.find id with
  | none => p
  | some s =>
    if s.inRun then p
    else
      let p := { p with sessions := p.sessions.filter fun other => other.handle ≠ s.handle }
      if (p.lane l).cur = some s.handle then p.setLane l { p.lane l with cur := none } else p

/-- `reasoning_session_clear`, as far as the store goes. -/
def sessionTouch (p : Pool Lane) (id : Text) (indexed allocated : Bool) : Pool Lane :=
  if (p.find id).isNone && !indexed then p else (p.sessionGetLocked id allocated).2

def step (p : Pool Lane) : LaneLabel Lane → Option (Pool Lane)
  | .run l sessionId allocated =>
    if (p.lane l).running then none else some (p.runStart l (wanted sessionId) allocated)
  | .finish l _ => if (p.lane l).running then some (p.runFinish l) else none
  | .clear sessionId indexed allocated =>
    some (p.sessionTouch (wanted sessionId) indexed allocated)
  | .delete l sessionId => some (p.sessionDelete l (wanted sessionId))

def lanes (Lane : Type) [DecidableEq Lane] : Machine (Pool Lane) (LaneLabel Lane) :=
  Machine.ofPartial step

def Runs (p : Pool Lane) (l : Lane) (id : Text) : Prop :=
  (p.lane l).running = true ∧ ∃ s ∈ p.sessions, s.id = id ∧ (p.lane l).cur = some s.handle

def Registered (p : Pool Lane) (l : Lane) : Prop :=
  ∀ handle, (p.lane l).cur = some handle → ∃ s ∈ p.sessions, s.handle = handle

def Careful (p : Pool Lane) : LaneLabel Lane → Prop
  | .delete l sessionId => ∀ s, p.find (wanted sessionId) = some s → s.inRun = false →
      ∀ other, other ≠ l → (p.lane other).cur ≠ some s.handle
  | _ => True

/-! ### What every step keeps -/

structure Sound (p : Pool Lane) : Prop where
  ids : (p.sessions.map SharedSession.id).Nodup
  handles : (p.sessions.map SharedSession.handle).Nodup
  fresh : ∀ s ∈ p.sessions, s.handle < p.next
  running : ∀ l, (p.lane l).running = true →
    ∃ s ∈ p.sessions, (p.lane l).cur = some s.handle ∧ s.inRun = true
  marked : ∀ s ∈ p.sessions, s.inRun = true →
    ∃ l, (p.lane l).running = true ∧ (p.lane l).cur = some s.handle
  alone : ∀ l l', (p.lane l).running = true → (p.lane l').running = true →
    (p.lane l).cur = (p.lane l').cur → l = l'

section Steps

variable {p q : Pool Lane} {l : Lane} {id : Text}

@[simp] theorem setLane_sessions (state : LaneState) : (p.setLane l state).sessions = p.sessions :=
  rfl

@[simp] theorem setLane_lane (state : LaneState) (other : Lane) :
    (p.setLane l state).lane other = if other = l then state else p.lane other := by
  simp [setLane, Function.update_apply]

omit [DecidableEq Lane] in
@[simp] theorem mark_lane (handle : Nat) (inRun : Bool) : (p.mark handle inRun).lane = p.lane :=
  rfl

variable {s : SharedSession}

omit [DecidableEq Lane] in
theorem mem_mark {handle : Nat} {inRun : Bool} :
    s ∈ (p.mark handle inRun).sessions ↔
      ∃ old ∈ p.sessions, s = if old.handle = handle then { old with inRun } else old := by
  simp [mark, eq_comm]

omit [DecidableEq Lane] in
theorem handle_mark {handle at' : Nat} {inRun : Bool} (known : ∃ s ∈ p.sessions, s.handle = at') :
    ∃ s ∈ (p.mark handle inRun).sessions, s.handle = at' := by
  obtain ⟨s, member, same⟩ := known
  refine ⟨_, mem_mark.mpr ⟨s, member, rfl⟩, ?_⟩
  split <;> exact same

omit [DecidableEq Lane] in
theorem mark_ids (handle : Nat) (inRun : Bool) :
    (p.mark handle inRun).sessions.map SharedSession.id = p.sessions.map SharedSession.id ∧
      (p.mark handle inRun).sessions.map SharedSession.handle =
        p.sessions.map SharedSession.handle := by
  unfold mark
  constructor
  · rw [List.map_map]
    apply List.map_congr_left
    intro s _
    show (if _ then _ else _ : SharedSession).id = s.id
    split <;> rfl
  · rw [List.map_map]
    apply List.map_congr_left
    intro s _
    show (if _ then _ else _ : SharedSession).handle = s.handle
    split <;> rfl

omit [DecidableEq Lane] in
theorem find_spec (found : p.find id = some s) : s ∈ p.sessions ∧ s.id = id := by
  have same := List.find?_some found
  exact ⟨List.mem_of_find?_eq_some found, of_decide_eq_true same⟩

omit [DecidableEq Lane] in
theorem Sound.eq_of_handle (sound : Sound p) {s' : SharedSession} (first : s ∈ p.sessions) (second : s' ∈ p.sessions)
    (same : s.handle = s'.handle) : s = s' :=
  List.inj_on_of_nodup_map sound.handles first second same

omit [DecidableEq Lane] in
theorem sessionGetLocked_spec (sound : Sound p) (allocated : Bool) :
    Sound (p.sessionGetLocked id allocated).2 ∧
      (p.sessionGetLocked id allocated).2.lane = p.lane ∧
      p.sessions ⊆ (p.sessionGetLocked id allocated).2.sessions ∧
      ∀ s, (p.sessionGetLocked id allocated).1 = some s →
        s ∈ (p.sessionGetLocked id allocated).2.sessions ∧ s.id = id := by
  unfold sessionGetLocked
  cases found : p.find id with
  | some s =>
    refine ⟨sound, rfl, List.Subset.refl _, ?_⟩
    intro s' same
    obtain rfl : s = s' := Option.some.inj same
    exact find_spec found
  | none =>
    cases allocated with
    | false =>
      refine ⟨sound, rfl, List.Subset.refl _, ?_⟩
      intro s impossible
      cases impossible
    | true =>
      refine ⟨?_, rfl, List.subset_append_left _ _, ?_⟩
      · constructor
        · rw [if_pos rfl, List.map_append]
          apply List.nodup_append.mpr
          refine ⟨sound.ids, by simp, ?_⟩
          rintro name known other last rfl
          rw [List.mem_singleton.mp last] at known
          rcases List.mem_map.mp known with ⟨s, member, same⟩
          have none := List.find?_eq_none.mp found s member
          simp [same] at none
        · rw [if_pos rfl, List.map_append]
          apply List.nodup_append.mpr
          refine ⟨sound.handles, by simp, ?_⟩
          rintro handle known other last rfl
          rw [List.mem_singleton.mp last] at known
          rcases List.mem_map.mp known with ⟨s, member, same⟩
          have older := sound.fresh s member
          exact absurd same (Nat.ne_of_lt older)
        · intro s member
          rcases List.mem_append.mp member with old | new
          · exact Nat.lt_succ_of_lt (sound.fresh s old)
          · rw [List.mem_singleton.mp new]
            exact Nat.lt_succ_self _
        · intro l running
          rcases sound.running l running with ⟨s, member, cur, marked⟩
          exact ⟨s, List.mem_append_left _ member, cur, marked⟩
        · intro s member inRun
          rcases List.mem_append.mp member with old | new
          · exact sound.marked s old inRun
          · rw [List.mem_singleton.mp new] at inRun
            cases inRun
        · exact sound.alone
      · rintro s same
        obtain rfl := Option.some.inj same
        exact ⟨List.mem_append_right _ (List.mem_singleton_self _), rfl⟩

theorem Sound.setIdle (sound : Sound p) (idle : (p.lane l).running = false) (cur : Option Nat) :
    Sound (p.setLane l { cur }) := by
  have busy (other : Lane) (running : ((p.setLane l { cur }).lane other).running = true) :
      (p.setLane l { cur }).lane other = p.lane other := by
    rw [setLane_lane] at running ⊢
    split at running
    · cases running
    · exact if_neg ‹_›
  constructor
  · exact sound.ids
  · exact sound.handles
  · exact sound.fresh
  · intro other running
    have same := busy other running
    rw [same] at running ⊢
    exact sound.running other running
  · intro s member inRun
    rcases sound.marked s member inRun with ⟨other, running, at'⟩
    refine ⟨other, ?_⟩
    have differs : other ≠ l := by
      rintro rfl
      rw [idle] at running
      cases running
    rw [setLane_lane, if_neg differs]
    exact ⟨running, at'⟩
  · intro first second running running' same
    have first' := busy first running
    have second' := busy second running'
    rw [first'] at running same
    rw [second'] at running' same
    exact sound.alone first second running running' same

theorem Sound.startRun (sound : Sound p) (idle : (p.lane l).running = false) (member : s ∈ p.sessions)
    (free : s.inRun = false) : Sound ((p.mark s.handle true).setLane l { cur := some s.handle, running := true }) := by
  have elsewhere (other : Lane) (running : (p.lane other).running = true) :
      other ≠ l ∧ (p.lane other).cur ≠ some s.handle := by
    constructor
    · rintro rfl
      rw [idle] at running
      cases running
    · intro here
      rcases sound.running other running with ⟨s', member', at', inRun⟩
      have same := Option.some.inj (here.symm.trans at')
      rw [sound.eq_of_handle member member' same] at free
      rw [free] at inRun
      cases inRun
  constructor
  · exact (congrArg List.Nodup (mark_ids (p := p) s.handle true).1).mpr sound.ids
  · exact (congrArg List.Nodup (mark_ids (p := p) s.handle true).2).mpr sound.handles
  · intro s' member'
    rcases mem_mark.mp member' with ⟨old, known, rfl⟩
    split <;> exact sound.fresh old known
  · intro other running
    by_cases here : other = l
    · refine ⟨{ s with inRun := true }, mem_mark.mpr ⟨s, member, (if_pos rfl).symm⟩, ?_, rfl⟩
      simp [here]
    · simp only [setLane_lane, if_neg here, mark_lane] at running ⊢
      rcases sound.running other running with ⟨s', member', at', inRun⟩
      refine ⟨s', mem_mark.mpr ⟨s', member', (if_neg ?_).symm⟩, at', inRun⟩
      intro same
      exact (elsewhere other running).2 (same ▸ at')
  · intro s' member' inRun
    rcases mem_mark.mp member' with ⟨old, known, rfl⟩
    by_cases same : old.handle = s.handle
    · refine ⟨l, ?_⟩
      simp [same]
    · rw [if_neg same] at inRun ⊢
      rcases sound.marked old known inRun with ⟨other, running, at'⟩
      refine ⟨other, ?_⟩
      simpa [(elsewhere other running).1] using And.intro running at'
  · intro first second running running' same
    by_cases here : first = l
    · by_cases here' : second = l
      · rw [here, here']
      · simp only [setLane_lane, if_pos here, if_neg here', mark_lane] at running' same
        exact absurd same.symm (elsewhere second running').2
    · by_cases here' : second = l
      · simp only [setLane_lane, if_neg here, if_pos here', mark_lane] at running same
        exact absurd same (elsewhere first running).2
      · simp only [setLane_lane, if_neg here, if_neg here', mark_lane] at running running' same
        exact sound.alone first second running running' same

theorem Sound.runStart (sound : Sound p) (idle : (p.lane l).running = false) (allocated : Bool) :
    Sound (p.runStart l id allocated) := by
  have spec := @sessionGetLocked_spec _ _ id sound allocated
  unfold Pool.runStart
  generalize p.sessionGetLocked id allocated = got at spec
  rcases got with ⟨_ | s, q⟩
  · exact spec.1.setIdle (by rw [spec.2.1, idle]) none
  · simp only
    have idle : (q.lane l).running = false := by
      rw [spec.2.1]
      exact idle
    split
    · exact spec.1.setIdle idle (some s.handle)
    · rename_i free
      exact spec.1.startRun idle (spec.2.2.2 s rfl).1 (by simpa using free)

theorem Sound.runFinish (sound : Sound p) (running : (p.lane l).running = true) :
    Sound (p.runFinish l) := by
  rcases sound.running l running with ⟨s, member, cur, inRun⟩
  have same : p.runFinish l = (p.mark s.handle false).setLane l { cur := some s.handle } := by
    simp [Pool.runFinish, cur]
  rw [same]
  constructor
  · exact (congrArg List.Nodup (mark_ids (p := p) s.handle false).1).mpr sound.ids
  · exact (congrArg List.Nodup (mark_ids (p := p) s.handle false).2).mpr sound.handles
  · intro s' member'
    rcases mem_mark.mp member' with ⟨old, known, rfl⟩
    split <;> exact sound.fresh old known
  · intro other running'
    by_cases here : other = l
    · simp [here] at running'
    · simp only [setLane_lane, if_neg here, mark_lane] at running' ⊢
      rcases sound.running other running' with ⟨s', member', at', inRun'⟩
      refine ⟨s', mem_mark.mpr ⟨s', member', (if_neg ?_).symm⟩, at', inRun'⟩
      intro clash
      exact here (sound.alone other l running' running (by rw [at', cur, clash]))
  · intro s' member' inRun'
    rcases mem_mark.mp member' with ⟨old, known, rfl⟩
    by_cases clash : old.handle = s.handle
    · simp [clash] at inRun'
    · rw [if_neg clash] at inRun' ⊢
      rcases sound.marked old known inRun' with ⟨other, running', at'⟩
      refine ⟨other, ?_⟩
      have differs : other ≠ l := by
        rintro rfl
        exact clash (Option.some.inj (at'.symm.trans cur))
      simpa [differs] using And.intro running' at'
  · intro first second running₁ running₂ same
    by_cases here : first = l
    · simp [here] at running₁
    · by_cases here' : second = l
      · simp [here'] at running₂
      · simp only [setLane_lane, if_neg here, if_neg here', mark_lane] at running₁ running₂ same
        exact sound.alone first second running₁ running₂ same

/-- What a deletion takes away is the session of its name, which is in no run. -/
structure Deletes (p q : Pool Lane) (l : Lane) (id : Text) (s : SharedSession) : Prop where
  found : p.find id = some s
  free : s.inRun = false
  sessions : ∀ s', s' ∈ q.sessions ↔ s' ∈ p.sessions ∧ s'.handle ≠ s.handle
  lane : ∀ other, q.lane other =
    if other = l ∧ (p.lane l).cur = some s.handle then { p.lane l with cur := none } else p.lane other

theorem sessionDelete_cases (sound : Sound p) :
    p.sessionDelete l id = p ∨
      ∃ s, Sound (p.sessionDelete l id) ∧ Deletes p (p.sessionDelete l id) l id s := by
  unfold sessionDelete
  cases found : p.find id with
  | none => exact Or.inl rfl
  | some s =>
    simp only
    split
    · exact Or.inl rfl
    · rename_i free
      have free : s.inRun = false := by simpa using free
      have member := (find_spec found).1
      let rest : Pool Lane :=
        { p with sessions := p.sessions.filter fun other => other.handle ≠ s.handle }
      have removed : Sound rest := by
        constructor
        · exact sound.ids.sublist (List.filter_sublist.map _)
        · exact sound.handles.sublist (List.filter_sublist.map _)
        · intro s' known
          exact sound.fresh s' (List.mem_of_mem_filter known)
        · intro other running
          rcases sound.running other running with ⟨s', known, at', inRun⟩
          refine ⟨s', List.mem_filter.mpr ⟨known, ?_⟩, at', inRun⟩
          apply decide_eq_true
          intro clash
          rw [sound.eq_of_handle known member clash, free] at inRun
          cases inRun
        · intro s' known inRun
          exact sound.marked s' (List.mem_of_mem_filter known) inRun
        · exact sound.alone
      have mem (s' : SharedSession) :
          s' ∈ rest.sessions ↔ s' ∈ p.sessions ∧ s'.handle ≠ s.handle := by
        simp [rest]
      right
      refine ⟨s, ?_⟩
      split
      · rename_i points
        have idle : (rest.lane l).running = false := by
          by_contra busy
          rcases sound.running l (by simpa using busy) with ⟨s', known, at', inRun⟩
          have clash := Option.some.inj (at'.symm.trans points)
          rw [sound.eq_of_handle known member clash, free] at inRun
          cases inRun
        have state : ({ p.lane l with cur := none } : LaneState) = { cur := none } := by
          show LaneState.mk none (p.lane l).running = _
          rw [show (p.lane l).running = false from idle]
        refine ⟨?_, found, free, mem, ?_⟩
        · show Sound (rest.setLane l { p.lane l with cur := none })
          rw [state]
          exact removed.setIdle idle none
        · intro other
          show (rest.setLane l { p.lane l with cur := none }).lane other = _
          rw [setLane_lane]
          have points : (p.lane l).cur = some s.handle := points
          simp [points]
          rfl
      · rename_i points
        refine ⟨removed, found, free, mem, ?_⟩
        intro other
        rw [if_neg]
        rintro ⟨-, here⟩
        exact points here

/-- No session is unregistered, and a lane points to what it did or to a registered session. -/
structure Keeps (p q : Pool Lane) : Prop where
  known : ∀ s ∈ p.sessions, ∃ s' ∈ q.sessions, s'.handle = s.handle
  points : ∀ l handle, (q.lane l).cur = some handle →
    (p.lane l).cur = some handle ∨ ∃ s ∈ q.sessions, s.handle = handle

namespace Keeps

omit [DecidableEq Lane] in
theorem refl (p : Pool Lane) : Keeps p p :=
  ⟨fun s member => ⟨s, member, rfl⟩, fun _ _ at' => Or.inl at'⟩

omit [DecidableEq Lane] in
theorem mark (keeps : Keeps p q) (handle : Nat) (inRun : Bool) : Keeps p (q.mark handle inRun) where
  known s member := handle_mark (keeps.known s member)
  points l at' here := (keeps.points l at' here).imp id handle_mark

theorem setLane (keeps : Keeps p q) {state : LaneState}
    (points : ∀ handle, state.cur = some handle →
      (p.lane l).cur = some handle ∨ ∃ s ∈ q.sessions, s.handle = handle) :
    Keeps p (q.setLane l state) where
  known := keeps.known
  points other handle at' := by
    rw [setLane_lane] at at'
    split at at'
    · rename_i same
      exact same ▸ points handle at'
    · exact keeps.points other handle at'

omit [DecidableEq Lane] in
theorem sessionGetLocked (sound : Sound p) (allocated : Bool) : Keeps p (p.sessionGetLocked id allocated).2 where
  known s member := ⟨s, (sessionGetLocked_spec sound allocated).2.2.1 member, rfl⟩
  points l handle at' := by
    rw [(sessionGetLocked_spec sound allocated).2.1] at at'
    exact Or.inl at'

theorem runStart (sound : Sound p) (allocated : Bool) : Keeps p (p.runStart l id allocated) := by
  have spec := @sessionGetLocked_spec _ _ id sound allocated
  have kept := @sessionGetLocked _ _ id sound allocated
  unfold Pool.runStart
  generalize p.sessionGetLocked id allocated = got at spec kept
  rcases got with ⟨_ | s, next⟩
  · exact kept.setLane fun handle impossible => by cases impossible
  · have member := (spec.2.2.2 s rfl).1
    simp only
    split
    · exact kept.setLane fun handle here => Or.inr ⟨s, member, Option.some.inj here⟩
    · refine (kept.mark s.handle true).setLane fun handle here => Or.inr ?_
      exact handle_mark ⟨s, member, Option.some.inj here⟩

theorem runFinish (p : Pool Lane) (l : Lane) : Keeps p (p.runFinish l) := by
  unfold Pool.runFinish
  cases cur : (p.lane l).cur with
  | none => exact (refl p).setLane fun handle impossible => by cases impossible
  | some handle => exact ((refl p).mark handle false).setLane fun _ here => Or.inl (cur.trans here)

omit [DecidableEq Lane] in
theorem registered (keeps : Keeps p q) (registered : Registered p l) : Registered q l := by
  intro handle at'
  rcases keeps.points l handle at' with before | here
  · obtain ⟨s, member, rfl⟩ := registered handle before
    exact keeps.known s member
  · exact here

end Keeps

variable {label : LaneLabel Lane}

theorem step_cases (sound : Sound p) (taken : lanes Lane p label q) :
    Sound q ∧ (Keeps p q ∨ ∃ l sessionId s, label = .delete l sessionId ∧ Deletes p q l (wanted sessionId) s) := by
  have taken : p.step label = some q := taken
  cases label with
  | run l sessionId allocated =>
    simp only [step] at taken
    split at taken
    · cases taken
    · rename_i idle
      rw [← Option.some.inj taken]
      exact ⟨sound.runStart (by simpa using idle) allocated, Or.inl (Keeps.runStart sound allocated)⟩
  | finish l exit =>
    simp only [step] at taken
    split at taken
    · rename_i running
      rw [← Option.some.inj taken]
      exact ⟨sound.runFinish running, Or.inl (Keeps.runFinish p l)⟩
    · cases taken
  | clear sessionId indexed allocated =>
    obtain rfl := Option.some.inj taken
    unfold sessionTouch
    split
    · exact ⟨sound, Or.inl (Keeps.refl p)⟩
    · exact ⟨(sessionGetLocked_spec sound allocated).1, Or.inl (Keeps.sessionGetLocked sound allocated)⟩
  | delete l sessionId =>
    obtain rfl := Option.some.inj taken
    rcases @sessionDelete_cases _ _ _ l (wanted sessionId) sound with same | ⟨s, sound', deletes⟩
    · rw [same]
      exact ⟨sound, Or.inl (Keeps.refl p)⟩
    · exact ⟨sound', Or.inr ⟨l, sessionId, s, rfl, deletes⟩⟩

theorem step_sound (sound : Sound p) (taken : lanes Lane p label q) : Sound q :=
  (step_cases sound taken).1

theorem run_sound {labels : List (LaneLabel Lane)} (run : (lanes Lane).Run {} labels p) :
    Sound p := by
  apply run.invariant (fun _ _ _ sound taken => step_sound sound taken)
  exact ⟨List.nodup_nil, List.nodup_nil, by simp, by simp, by simp, by simp⟩

theorem step_registered (sound : Sound p) (registered : ∀ l, Registered p l) (careful : Careful p label)
    (taken : lanes Lane p label q) (l : Lane) : Registered q l := by
  rcases (step_cases sound taken).2 with keeps | ⟨l', sessionId, s, rfl, deletes⟩
  · exact keeps.registered (registered l)
  · intro handle at'
    rw [deletes.lane l] at at'
    split at at'
    · cases at'
    · rename_i elsewhere
      rcases registered l handle at' with ⟨s', known, rfl⟩
      refine ⟨s', (deletes.sessions s').mpr ⟨known, ?_⟩, rfl⟩
      intro clash
      rw [clash] at at'
      by_cases here : l = l'
      · subst here
        exact elsewhere ⟨rfl, at'⟩
      · exact careful s deletes.found deletes.free l here at'

end Steps

/-- One lane at a time runs a session, its mark says so, and it is removed only without a run. -/
structure Exclusive (p : Pool Lane) : Prop where
  alone : ∀ id l l', Runs p l id → Runs p l' id → l = l'
  marked : ∀ s ∈ p.sessions, s.inRun = true ↔ ∃ l, Runs p l s.id
  running : ∀ l, (p.lane l).running = true → ∃ id, Runs p l id
  removed : ∀ label q, lanes Lane p label q → ∀ s ∈ p.sessions,
    (∀ s' ∈ q.sessions, s'.handle ≠ s.handle) → ∀ l, ¬ Runs p l s.id

theorem Sound.exclusive {p : Pool Lane} (sound : Sound p) : Exclusive p := by
  have eq_of_id {s s' : SharedSession} (first : s ∈ p.sessions) (second : s' ∈ p.sessions)
      (same : s.id = s'.id) : s = s' :=
    List.inj_on_of_nodup_map sound.ids first second same
  have marked (s : SharedSession) (member : s ∈ p.sessions) :
      s.inRun = true ↔ ∃ l, Runs p l s.id := by
    constructor
    · intro inRun
      rcases sound.marked s member inRun with ⟨l, running, cur⟩
      exact ⟨l, running, s, member, rfl, cur⟩
    · rintro ⟨l, running, s', member', same, cur⟩
      rcases sound.running l running with ⟨s'', member'', cur'', inRun⟩
      have here := sound.eq_of_handle member' member'' (Option.some.inj (cur.symm.trans cur''))
      rw [eq_of_id member member' same.symm, here]
      exact inRun
  constructor
  · rintro id l l' ⟨running, s, member, same, cur⟩ ⟨running', s', member', same', cur'⟩
    apply sound.alone l l' running running'
    rw [cur, cur', eq_of_id member member' (same.trans same'.symm)]
  · exact marked
  · intro l running
    rcases sound.running l running with ⟨s, member, cur, -⟩
    exact ⟨s.id, running, s, member, rfl, cur⟩
  · intro label q taken s member gone l runs
    have inRun := (marked s member).mpr ⟨l, runs⟩
    have kept : ∃ s' ∈ q.sessions, s'.handle = s.handle := by
      rcases (step_cases sound taken).2 with keeps | ⟨l', sessionId, s', rfl, deletes⟩
      · exact keeps.known s member
      · refine ⟨s, (deletes.sessions s).mpr ⟨member, ?_⟩, rfl⟩
        intro clash
        rw [sound.eq_of_handle member (find_spec deletes.found).1 clash, deletes.free] at inRun
        cases inRun
    rcases kept with ⟨s', member', same⟩
    exact gone s' member' same

/-- In every run one lane at a time runs a session, and in every run with careful deletions
every lane's current session is registered. -/
theorem lanes_agree {labels : List (LaneLabel Lane)} {p : Pool Lane}
    (run : (lanes Lane).Run {} labels p) :
    Exclusive p ∧
      (((lanes Lane).restrict Careful).Run {} labels p → ∀ l, Registered p l) := by
  constructor
  · exact (run_sound run).exclusive
  · intro careful
    have both : Sound p ∧ ∀ l, Registered p l := by
      apply careful.invariant
      · rintro p label q ⟨sound, registered⟩ ⟨careful, taken⟩
        exact ⟨step_sound sound taken, step_registered sound registered careful taken⟩
      · refine ⟨run_sound (.start _), ?_⟩
        intro l handle impossible
        cases impossible
    exact both.2

def runAndDelete : List (LaneLabel Bool) :=
  [.run true (ascii "x") true, .finish true .finished, .delete true (ascii "x")]

def afterRunAndDelete : Pool Bool :=
  ((Machine.exec step {} runAndDelete).getD {})

/-- The deletion through the lane itself leaves no lane behind. -/
theorem lanes_agree_once : Registered afterRunAndDelete true ∧ Registered afterRunAndDelete false := by
  let ran := ((step ({} : Pool Bool) (.run true (ascii "x") true)).getD {})
  let finished := ((step ran (.finish true .finished)).getD {})
  have careful : ((lanes Bool).restrict Careful).Run {} runAndDelete afterRunAndDelete := by
    refine @Machine.Run.cons _ _ _ _ ran _ _ _ ⟨trivial, rfl⟩ ?_
    refine @Machine.Run.cons _ _ _ _ finished _ _ _ ⟨trivial, rfl⟩ (Machine.Run.single ⟨?_, rfl⟩)
    intro s _ _ other differs
    obtain rfl : other = false := by simpa using differs
    intro impossible
    cases impossible
  have registered := (lanes_agree careful.unrestrict).2 careful
  exact ⟨registered true, registered false⟩

/-- Deleted through another lane, the session is still the current one of the lane that ran it. -/
theorem lanes_agree_fails :
    ∃ p, (lanes Bool).Run {} [.run true (ascii "x") true, .finish true .finished,
        .delete false (ascii "x")] p ∧ ¬ Registered p true := by
  refine ⟨_, Machine.run_ofPartial_of_exec rfl, ?_⟩
  intro registered
  rcases registered 0 (by decide +kernel) with ⟨s, member, -⟩
  cases member

end Pool

end CognitiveOs.Sessions
