import CognitiveOs.Foundation.Machine
import CognitiveOs.Infra.Text
import Mathlib.Data.Set.Card

/-!
# Chat lanes and session locks

`chat_lane_run` of `cognitive_os_agent.c`: a task finds or makes the lock of its session, waits
for it, takes a lane, runs, and gives both back. A critical section of `g_lane_sess_mtx` is one
step, and so is every operation on another mutex. Any check of a waiting task may find it
cancelled or out of time.
-/

namespace CognitiveOs.Agent

open Foundation Infra

/-- An entry of `g_lane_sess`, at its address. `owner` is the task that holds its mutex. -/
structure SessLock (Task : Type) where
  addr : Nat
  id : Text
  owner : Option Task
  references : Nat

def chatLaneMax : Nat :=
  4

abbrev Lane :=
  Fin chatLaneMax

/-- Where a task is, with the address it keeps in `e` or `se`. -/
inductive Phase where
  | idle
  /-- Before the lookup of the session lock. -/
  | called
  /-- In `lane_lock_wait`. -/
  | awaiting (e : Nat)
  /-- It has the session lock; the lane of this number is tried next. -/
  | choosing (se lane : Nat)
  | running (se : Nat) (lane : Lane)
  /-- Before `mutex_unlock(&e->m)`. -/
  | unlocking (e : Nat)
  /-- Before `lane_sess_unref`. -/
  | leaving (e : Nat)
  deriving DecidableEq

namespace Phase

def entry : Phase → Option Nat
  | idle | called => none
  | awaiting e | choosing e _ | running e _ | unlocking e | leaving e => some e

def locked : Phase → Option Nat
  | choosing e _ | running e _ | unlocking e => some e
  | idle | called | awaiting _ | leaving _ => none

def lane : Phase → Option Lane
  | running _ l => some l
  | _ => none

end Phase

structure ChatLanes (Task : Type) where
  table : List (SessLock Task)
  lane : Lane → Option Task
  session : Task → Text
  phase : Task → Phase

inductive Move (Task : Type) where
  | call (t : Task) (sessionId : Text)
  /-- The lookup; `fresh` is the memory for a new entry, if there is any. -/
  | acquire (t : Task) (fresh : Option Nat)
  | tryLock (t : Task)
  /-- A check before the next attempt finds the task cancelled or out of time. -/
  | abort (t : Task)
  | tryLane (t : Task)
  | finish (t : Task)
  | unlock (t : Task)
  | unref (t : Task)

theorem Phase.entry_of_locked {p : Phase} {e : Nat} (held : p.locked = some e) : p.entry = some e := by
  cases p <;> first | exact held | cases held

namespace ChatLanes

variable {Task : Type} [DecidableEq Task]

def start : ChatLanes Task :=
  { table := [], lane := fun _ => none, session := fun _ => [], phase := fun _ => .idle }

def want (sessionId : Text) : Text :=
  if sessionId = [] then ascii "default" else sessionId

def setPhase (s : ChatLanes Task) (t : Task) (p : Phase) : ChatLanes Task :=
  { s with phase := Function.update s.phase t p }

def edit (s : ChatLanes Task) (addr : Nat) (f : SessLock Task → SessLock Task) : ChatLanes Task :=
  { s with table := s.table.map fun e => if e.addr = addr then f e else e }

/-- `lane_sess_lock_acquire` up to its wait. -/
def sessLockAcquire (s : ChatLanes Task) (t : Task) (fresh : Option Nat) : Option (ChatLanes Task) :=
  match s.table.find? fun e => e.id = s.session t with
  | some e => some ((s.edit e.addr fun e => { e with references := e.references + 1 }).setPhase t (.awaiting e.addr))
  | none =>
    match fresh with
    | none => some (s.setPhase t .idle)
    | some addr =>
      if addr ∈ s.table.map SessLock.addr then none
      else
        let e : SessLock Task := { addr, id := s.session t, owner := none, references := 1 }
        some ({ s with table := e :: s.table }.setPhase t (.awaiting addr))

/-- One `mutex_trylock` of `lane_lock_wait`. -/
def sessTryLock (s : ChatLanes Task) (t : Task) (addr : Nat) : Option (ChatLanes Task) :=
  (s.table.find? fun e => e.addr = addr).map fun e =>
    if e.owner = none then (s.edit addr fun e => { e with owner := some t }).setPhase t (.choosing addr 0) else s

/-- One `mutex_trylock` of the search for a lane, or the pause behind the last. -/
def laneTryLock (s : ChatLanes Task) (t : Task) (se i : Nat) : ChatLanes Task :=
  if inside : i < chatLaneMax then
    if s.lane ⟨i, inside⟩ = none then
      { s with lane := Function.update s.lane ⟨i, inside⟩ (some t) }.setPhase t (.running se ⟨i, inside⟩)
    else s.setPhase t (.choosing se (i + 1))
  else s.setPhase t (.choosing se 0)

/-- `lane_sess_unref`: the last reference takes the entry with it. -/
def sessUnref (s : ChatLanes Task) (t : Task) (addr : Nat) : ChatLanes Task :=
  let s := s.edit addr fun e => { e with references := e.references - 1 }
  { s with table := s.table.filter fun e => ¬ (e.addr = addr ∧ e.references = 0) }.setPhase t .idle

def step (s : ChatLanes Task) : Move Task → Option (ChatLanes Task)
  | .call t sessionId =>
    match s.phase t with
    | .idle => some ({ s with session := Function.update s.session t (want sessionId) }.setPhase t .called)
    | _ => none
  | .acquire t fresh =>
    match s.phase t with
    | .called => s.sessLockAcquire t fresh
    | _ => none
  | .tryLock t =>
    match s.phase t with
    | .awaiting e => s.sessTryLock t e
    | _ => none
  | .abort t =>
    match s.phase t with
    | .awaiting e => some (s.setPhase t (.leaving e))
    | .choosing se 0 => some (s.setPhase t (.unlocking se))
    | _ => none
  | .tryLane t =>
    match s.phase t with
    | .choosing se i => some (s.laneTryLock t se i)
    | _ => none
  | .finish t =>
    match s.phase t with
    | .running se l => some ({ s with lane := Function.update s.lane l none }.setPhase t (.unlocking se))
    | _ => none
  | .unlock t =>
    match s.phase t with
    | .unlocking e => some ((s.edit e fun e => { e with owner := none }).setPhase t (.leaving e))
    | _ => none
  | .unref t =>
    match s.phase t with
    | .leaving e => some (s.sessUnref t e)
    | _ => none

def machine (Task : Type) [DecidableEq Task] : Machine (ChatLanes Task) (Move Task) :=
  Machine.ofPartial step

/-! ### What every step keeps -/

def users (s : ChatLanes Task) (addr : Nat) : Set Task :=
  { t | (s.phase t).entry = some addr }

structure Sound (s : ChatLanes Task) : Prop where
  addrs : (s.table.map SessLock.addr).Nodup
  ids : (s.table.map SessLock.id).Nodup
  /-- A pointer leads to the entry of the task's session. -/
  pointers : ∀ t addr, (s.phase t).entry = some addr → ∃ e ∈ s.table, e.addr = addr ∧ e.id = s.session t
  counted : ∀ e ∈ s.table, (e.references : ℕ∞) = (s.users e.addr).encard
  used : ∀ e ∈ s.table, 0 < e.references
  owners : ∀ e ∈ s.table, ∀ t, e.owner = some t ↔ (s.phase t).locked = some e.addr
  lanes : ∀ l t, s.lane l = some t ↔ (s.phase t).lane = some l

variable {s : ChatLanes Task} {t : Task} {addr : Nat}

@[simp] theorem setPhase_table (s : ChatLanes Task) (t : Task) (p : Phase) : (s.setPhase t p).table = s.table :=
  rfl

@[simp] theorem setPhase_self (s : ChatLanes Task) (t : Task) (p : Phase) : (s.setPhase t p).phase t = p :=
  Function.update_self ..

@[simp] theorem setPhase_of_ne (s : ChatLanes Task) {t u : Task} (other : u ≠ t) (p : Phase) :
    (s.setPhase t p).phase u = s.phase u :=
  Function.update_of_ne other ..

omit [DecidableEq Task] in
theorem mem_edit {f : SessLock Task → SessLock Task} {e : SessLock Task} :
    e ∈ (s.edit addr f).table ↔ ∃ e₀ ∈ s.table, (if e₀.addr = addr then f e₀ else e₀) = e :=
  List.mem_map

structure Keeps (f : SessLock Task → SessLock Task) : Prop where
  addr : ∀ e, (f e).addr = e.addr
  id : ∀ e, (f e).id = e.id

omit [DecidableEq Task] in
theorem map_edit {Part : Type} {part : SessLock Task → Part} {f : SessLock Task → SessLock Task}
    (same : ∀ e, part (f e) = part e) : (s.edit addr f).table.map part = s.table.map part := by
  unfold edit
  rw [List.map_map]
  apply List.map_congr_left
  intro e _
  simp only [Function.comp_apply]
  split
  · exact same e
  · rfl

theorem setPhase_congr {Part : Type} (part : Phase → Part) {p : Phase} (same : part p = part (s.phase t)) (u : Task) :
    part ((s.setPhase t p).phase u) = part (s.phase u) := by
  by_cases self : u = t
  · rw [self, setPhase_self, same]
  · rw [setPhase_of_ne s self]

theorem users_enter {p : Phase} (new : p.entry = some addr) :
    (s.setPhase t p).users addr = insert t (s.users addr) := by
  ext u
  by_cases same : u = t
  · subst same
    simp [users, new]
  · simp [users, same]

theorem users_leave {p : Phase} (new : p.entry ≠ some addr) :
    (s.setPhase t p).users addr = s.users addr \ {t} := by
  ext u
  by_cases same : u = t
  · subst same
    simp [users, new]
  · simp [users, same]

theorem users_other {p : Phase} (outside : t ∉ s.users addr) (new : p.entry ≠ some addr) :
    (s.setPhase t p).users addr = s.users addr := by
  rw [users_leave new, Set.sdiff_singleton_eq_self outside]

namespace Sound

omit [DecidableEq Task] in
theorem start : Sound (start : ChatLanes Task) where
  addrs := List.nodup_nil
  ids := List.nodup_nil
  pointers := by
    intro t addr pointer
    cases pointer
  counted := by
    intro e member
    cases member
  used := by
    intro e member
    cases member
  owners := by
    intro e member
    cases member
  lanes := by
    intro l t
    constructor <;> intro held <;> cases held

omit [DecidableEq Task] in
theorem eq_of_addr (sound : Sound s) {e e' : SessLock Task} (member : e ∈ s.table) (member' : e' ∈ s.table)
    (same : e.addr = e'.addr) : e = e' :=
  List.inj_on_of_nodup_map sound.addrs member member' same

omit [DecidableEq Task] in
theorem eq_of_id (sound : Sound s) {e e' : SessLock Task} (member : e ∈ s.table) (member' : e' ∈ s.table)
    (same : e.id = e'.id) : e = e' :=
  List.inj_on_of_nodup_map sound.ids member member' same

theorem move (sound : Sound s) {p : Phase} {lane : Lane → Option Task} (entry : p.entry = (s.phase t).entry)
    (locked : p.locked = (s.phase t).locked)
    (lanes : ∀ l u, lane l = some u ↔ ((s.setPhase t p).phase u).lane = some l) :
    Sound ({ s with lane := lane }.setPhase t p) := by
  have entries := setPhase_congr Phase.entry entry
  have lockeds := setPhase_congr Phase.locked locked
  exact
    { addrs := sound.addrs
      ids := sound.ids
      pointers := by
        intro u addr pointer
        exact sound.pointers u addr ((entries u).symm.trans pointer)
      counted := by
        intro e member
        have users : (s.setPhase t p).users e.addr = s.users e.addr := by
          unfold ChatLanes.users
          simp only [entries]
        have count := sound.counted e member
        rw [← users] at count
        exact count
      used := sound.used
      owners := by
        intro e member u
        have owner := sound.owners e member u
        rw [← lockeds] at owner
        exact owner
      lanes := lanes }

theorem lanes_setPhase (sound : Sound s) {p : Phase} (lane : p.lane = (s.phase t).lane) (l : Lane) (u : Task) :
    s.lane l = some u ↔ ((s.setPhase t p).phase u).lane = some l := by
  rw [setPhase_congr Phase.lane lane]
  exact sound.lanes l u

theorem setPhase_same (sound : Sound s) {p : Phase} (entry : p.entry = (s.phase t).entry)
    (locked : p.locked = (s.phase t).locked) (lane : p.lane = (s.phase t).lane) : Sound (s.setPhase t p) :=
  sound.move entry locked (sound.lanes_setPhase lane)

theorem call (sound : Sound s) (idle : s.phase t = .idle) (id : Text) :
    Sound ({ s with session := Function.update s.session t id }.setPhase t .called) := by
  have called : Sound { s with session := Function.update s.session t id } :=
    { sound with
      pointers := by
        intro u addr pointer
        have other : u ≠ t := by
          rintro rfl
          simp only [idle, Phase.entry] at pointer
          cases pointer
        obtain ⟨e, member, here, name⟩ := sound.pointers u addr pointer
        refine ⟨e, member, here, ?_⟩
        simp only [Function.update_of_ne other]
        exact name }
  apply called.setPhase_same <;> simp only [idle, Phase.entry, Phase.locked, Phase.lane]

theorem relock (sound : Sound s) {p : Phase} {owner : Option Task} (pointer : (s.phase t).entry = some addr)
    (entry : p.entry = some addr) (lane : p.lane = (s.phase t).lane)
    (alone : ∀ u, u ≠ t → (s.phase u).locked ≠ some addr)
    (owns : ∀ u, owner = some u ↔ u = t ∧ p.locked = some addr) :
    Sound ((s.edit addr fun e => { e with owner := owner }).setPhase t p) := by
  have keeps : Keeps fun e : SessLock Task => { e with owner := owner } := ⟨fun _ => rfl, fun _ => rfl⟩
  have entries := setPhase_congr Phase.entry (entry.trans pointer.symm)
  have users (x : Nat) : (s.setPhase t p).users x = s.users x := by
    unfold ChatLanes.users
    simp only [entries]
  exact
    { addrs := by
        rw [setPhase_table, map_edit keeps.addr]
        exact sound.addrs
      ids := by
        rw [setPhase_table, map_edit keeps.id]
        exact sound.ids
      pointers := by
        intro u x leads
        have before : (s.phase u).entry = some x := (entries u).symm.trans leads
        obtain ⟨e, member, here, name⟩ := sound.pointers u x before
        refine ⟨_, mem_edit.mpr ⟨e, member, rfl⟩, ?_, ?_⟩ <;> split <;> assumption
      counted := by
        intro e' member'
        obtain ⟨e, member, rfl⟩ := mem_edit.mp member'
        have count := sound.counted e member
        rw [← users] at count
        split <;> exact count
      used := by
        intro e' member'
        obtain ⟨e, member, rfl⟩ := mem_edit.mp member'
        have count := sound.used e member
        split <;> exact count
      owners := by
        intro e' member' u
        obtain ⟨e, member, rfl⟩ := mem_edit.mp member'
        by_cases here : e.addr = addr
        · rw [if_pos here]
          by_cases same : u = t
          · subst same
            rw [setPhase_self]
            simp only [owns, true_and, here]
          · rw [setPhase_of_ne _ same]
            simp only [owns, same, false_and, false_iff, here]
            exact alone u same
        · rw [if_neg here]
          by_cases same : u = t
          · subst same
            rw [setPhase_self, sound.owners e member]
            refine iff_of_false ?_ ?_
            · intro held
              exact here (Option.some.inj ((Phase.entry_of_locked held).symm.trans pointer))
            · intro held
              exact here (Option.some.inj ((Phase.entry_of_locked held).symm.trans entry))
          · rw [setPhase_of_ne _ same]
            exact sound.owners e member u
      lanes := sound.lanes_setPhase lane }

theorem takeLane (sound : Sound s) {se i : Nat} {l : Lane} (choosing : s.phase t = .choosing se i) (free : s.lane l = none) :
    Sound ({ s with lane := Function.update s.lane l (some t) }.setPhase t (.running se l)) := by
  apply sound.move
  · rw [choosing]
    rfl
  · rw [choosing]
    rfl
  · intro k u
    by_cases same : u = t
    · subst same
      rw [setPhase_self]
      by_cases here : k = l
      · subst here
        rw [Function.update_self]
        exact iff_of_true rfl rfl
      · rw [Function.update_of_ne here, sound.lanes, choosing]
        simp only [Phase.lane, Option.some.injEq, reduceCtorEq, false_iff]
        exact fun same => here same.symm
    · rw [setPhase_of_ne s same]
      by_cases here : k = l
      · subst here
        rw [Function.update_self, ← sound.lanes, free]
        simp only [Option.some.injEq, reduceCtorEq, iff_false]
        exact fun other => same other.symm
      · rw [Function.update_of_ne here]
        exact sound.lanes k u

theorem freeLane (sound : Sound s) {se : Nat} {l : Lane} (running : s.phase t = .running se l) :
    Sound ({ s with lane := Function.update s.lane l none }.setPhase t (.unlocking se)) := by
  have owner : s.lane l = some t := (sound.lanes l t).mpr (by rw [running]; rfl)
  apply sound.move
  · rw [running]
    rfl
  · rw [running]
    rfl
  · intro k u
    by_cases same : u = t
    · subst same
      rw [setPhase_self]
      refine iff_of_false ?_ nofun
      by_cases here : k = l
      · subst here
        rw [Function.update_self]
        exact nofun
      · rw [Function.update_of_ne here, sound.lanes, running]
        exact fun same => here (Option.some.inj same).symm
    · rw [setPhase_of_ne s same]
      by_cases here : k = l
      · subst here
        rw [Function.update_self, ← sound.lanes, owner]
        refine iff_of_false nofun ?_
        exact fun other => same (Option.some.inj other).symm
      · rw [Function.update_of_ne here]
        exact sound.lanes k u

theorem refer (sound : Sound s) (called : s.phase t = .called) {e₀ : SessLock Task} (found : e₀ ∈ s.table)
    (named : e₀.id = s.session t) :
    Sound ((s.edit e₀.addr fun e => { e with references := e.references + 1 }).setPhase t (.awaiting e₀.addr)) := by
  have keeps : Keeps fun e : SessLock Task => { e with references := e.references + 1 } :=
    ⟨fun _ => rfl, fun _ => rfl⟩
  have outside (x : Nat) : t ∉ s.users x := by
    unfold users
    simp [called, Phase.entry]
  exact
    { addrs := by
        rw [setPhase_table, map_edit keeps.addr]
        exact sound.addrs
      ids := by
        rw [setPhase_table, map_edit keeps.id]
        exact sound.ids
      pointers := by
        intro u x leads
        have there : ∃ e ∈ s.table, e.addr = x ∧ e.id = s.session u := by
          by_cases same : u = t
          · subst same
            rw [setPhase_self] at leads
            exact ⟨e₀, found, Option.some.inj leads, named⟩
          · rw [setPhase_of_ne _ same] at leads
            exact sound.pointers u x leads
        obtain ⟨e, member, here, name⟩ := there
        refine ⟨_, mem_edit.mpr ⟨e, member, rfl⟩, ?_, ?_⟩ <;> split <;> assumption
      counted := by
        intro e' member'
        obtain ⟨e, member, rfl⟩ := mem_edit.mp member'
        have count := sound.counted e member
        by_cases here : e.addr = e₀.addr
        · have enter : (s.setPhase t (.awaiting e₀.addr)).users e₀.addr = insert t (s.users e₀.addr) :=
            users_enter rfl
          rw [if_pos here]
          simp only [Nat.cast_add, Nat.cast_one, count, here]
          rw [← Set.encard_insert_of_notMem (outside _), ← enter]
          rfl
        · have stay : (s.setPhase t (.awaiting e₀.addr)).users e.addr = s.users e.addr :=
            users_other (outside _) fun same => here (Option.some.inj same).symm
          rw [if_neg here, count, ← stay]
          rfl
      used := by
        intro e' member'
        obtain ⟨e, member, rfl⟩ := mem_edit.mp member'
        have count := sound.used e member
        split
        · exact Nat.succ_pos _
        · exact count
      owners := by
        intro e' member' u
        obtain ⟨e, member, rfl⟩ := mem_edit.mp member'
        have before := sound.owners e member u
        have same : Phase.locked (.awaiting e₀.addr) = (s.phase t).locked := by rw [called]; rfl
        rw [← setPhase_congr Phase.locked same] at before
        split <;> exact before
      lanes := sound.lanes_setPhase (by rw [called]; rfl) }

theorem create (sound : Sound s) (called : s.phase t = .called) (fresh : addr ∉ s.table.map SessLock.addr)
    (unknown : ∀ e ∈ s.table, e.id ≠ s.session t) :
    Sound ({ s with table := { addr := addr, id := s.session t, owner := none, references := 1 } :: s.table }.setPhase t
      (.awaiting addr)) := by
  have outside (x : Nat) : t ∉ s.users x := by
    unfold users
    simp [called, Phase.entry]
  have nobody (u : Task) : (s.phase u).entry ≠ some addr := by
    intro pointer
    obtain ⟨e, member, here, -⟩ := sound.pointers u addr pointer
    exact fresh (List.mem_map.mpr ⟨e, member, here⟩)
  have away {e : SessLock Task} (member : e ∈ s.table) : e.addr ≠ addr :=
    fun here => fresh (List.mem_map.mpr ⟨e, member, here⟩)
  have lockeds (u : Task) : ((s.setPhase t (.awaiting addr)).phase u).locked = (s.phase u).locked :=
    setPhase_congr Phase.locked (by rw [called]; rfl) u
  exact
    { addrs := List.nodup_cons.mpr ⟨fresh, sound.addrs⟩
      ids := by
        refine List.nodup_cons.mpr ⟨?_, sound.ids⟩
        intro member
        obtain ⟨e, member, same⟩ := List.mem_map.mp member
        exact unknown e member same
      pointers := by
        intro u x leads
        by_cases same : u = t
        · subst same
          rw [setPhase_self] at leads
          exact ⟨_, List.mem_cons_self, Option.some.inj leads, rfl⟩
        · rw [setPhase_of_ne _ same] at leads
          obtain ⟨e, member, there⟩ := sound.pointers u x leads
          exact ⟨e, List.mem_cons_of_mem _ member, there⟩
      counted := by
        intro e member
        obtain rfl | member := List.mem_cons.mp member
        · have alone : (s.setPhase t (.awaiting addr)).users addr = {t} := by
            rw [users_enter rfl]
            have empty : s.users addr = ∅ := Set.eq_empty_of_forall_notMem nobody
            rw [empty, insert_empty_eq]
          refine Eq.trans ?_ (congrArg Set.encard alone).symm
          rw [Set.encard_singleton]
          rfl
        · have stay : (s.setPhase t (.awaiting addr)).users e.addr = s.users e.addr :=
            users_other (outside _) fun same => away member (Option.some.inj same).symm
          rw [sound.counted e member, ← stay]
          rfl
      used := by
        intro e member
        obtain rfl | member := List.mem_cons.mp member
        · exact Nat.one_pos
        · exact sound.used e member
      owners := by
        intro e member u
        have before : e.owner = some u ↔ (s.phase u).locked = some e.addr := by
          obtain rfl | member := List.mem_cons.mp member
          · refine iff_of_false nofun ?_
            exact fun held => nobody u (Phase.entry_of_locked held)
          · exact sound.owners e member u
        rw [← lockeds] at before
        exact before
      lanes := sound.lanes_setPhase (by rw [called]; rfl) }

theorem sessUnref (sound : Sound s) (leaving : s.phase t = .leaving addr) : Sound (s.sessUnref t addr) := by
  have keeps : Keeps fun e : SessLock Task => { e with references := e.references - 1 } :=
    ⟨fun _ => rfl, fun _ => rfl⟩
  have inside : t ∈ s.users addr := by
    unfold users
    simp [leaving, Phase.entry]
  have users (x : Nat) : (s.sessUnref t addr).users x = s.users x \ {t} :=
    users_leave (p := .idle) nofun
  have kept {e' : SessLock Task} : e' ∈ (s.sessUnref t addr).table ↔
      (∃ e ∈ s.table, (if e.addr = addr then { e with references := e.references - 1 } else e) = e') ∧
        ¬ (e'.addr = addr ∧ e'.references = 0) := by
    unfold ChatLanes.sessUnref
    simp only [setPhase_table, List.mem_filter, mem_edit, decide_eq_true_eq]
  -- one user fewer, and one reference fewer
  have count {e : SessLock Task} (member : e ∈ s.table) (here : e.addr = addr) :
      ((e.references - 1 : Nat) : ℕ∞) = ((s.sessUnref t addr).users addr).encard := by
    have before := sound.counted e member
    have some := sound.used e member
    rw [here, ← Set.encard_sdiff_singleton_add_one inside] at before
    rw [users]
    have one : ((e.references - 1 : Nat) : ℕ∞) + 1 = e.references := by
      norm_cast
      omega
    exact ENat.add_left_injective_of_ne_top ENat.one_ne_top (one.trans before)
  have lockeds (u : Task) : ((s.sessUnref t addr).phase u).locked = (s.phase u).locked :=
    setPhase_congr (s := s) Phase.locked (p := .idle) (by rw [leaving]; rfl) u
  exact
    { addrs := by
        refine List.Nodup.sublist (List.filter_sublist.map _) ?_
        rw [map_edit keeps.addr]
        exact sound.addrs
      ids := by
        refine List.Nodup.sublist (List.filter_sublist.map _) ?_
        rw [map_edit keeps.id]
        exact sound.ids
      pointers := by
        intro u x leads
        have other : u ≠ t := by
          rintro rfl
          rw [show (s.sessUnref u addr).phase u = .idle from setPhase_self ..] at leads
          cases leads
        have user : u ∈ (s.sessUnref t addr).users x := leads
        have before : (s.phase u).entry = some x := by
          rw [users] at user
          exact user.1
        obtain ⟨e, member, here, name⟩ := sound.pointers u x before
        refine ⟨_, kept.mpr ⟨⟨e, member, rfl⟩, ?_⟩, ?_, ?_⟩
        · rintro ⟨there, zero⟩
          have target : e.addr = addr := by
            by_contra away
            rw [if_neg away] at there
            exact away there
          rw [if_pos target] at zero
          have none := count member target
          simp only at zero
          rw [zero, ← target, here] at none
          exact Set.notMem_empty u (Set.encard_eq_zero.mp none.symm ▸ user)
        · split <;> exact here
        · split <;> exact name
      counted := by
        intro e' member'
        obtain ⟨⟨e, member, rfl⟩, -⟩ := kept.mp member'
        by_cases here : e.addr = addr
        · rw [if_pos here]
          simp only [here]
          exact count member here
        · rw [if_neg here, sound.counted e member, users, Set.sdiff_singleton_eq_self]
          intro pointer
          have same : some addr = some e.addr := by
            rw [← show (s.phase t).entry = some e.addr from pointer, leaving]
            rfl
          exact here (Option.some.inj same).symm
      used := by
        intro e' member'
        obtain ⟨⟨e, member, rfl⟩, left⟩ := kept.mp member'
        have before := sound.used e member
        by_cases here : e.addr = addr
        · rw [if_pos here] at left ⊢
          simp only [here, true_and] at left
          exact Nat.pos_of_ne_zero left
        · rw [if_neg here]
          exact before
      owners := by
        intro e' member' u
        obtain ⟨⟨e, member, rfl⟩, -⟩ := kept.mp member'
        have before := sound.owners e member u
        rw [← lockeds] at before
        split <;> exact before
      lanes := sound.lanes_setPhase (by rw [leaving]; rfl) }

theorem sessLockAcquire (sound : Sound s) (called : s.phase t = .called) {fresh : Option Nat} {r : ChatLanes Task}
    (taken : s.sessLockAcquire t fresh = some r) : Sound r := by
  unfold ChatLanes.sessLockAcquire at taken
  split at taken
  · rename_i e found
    cases taken
    have named := List.find?_some found
    exact sound.refer called (List.mem_of_find?_eq_some found) (of_decide_eq_true named)
  · rename_i missing
    split at taken
    · cases taken
      apply sound.setPhase_same <;> rw [called] <;> rfl
    · rename_i addr
      split at taken
      · cases taken
      · rename_i free
        cases taken
        refine sound.create called free ?_
        intro e member named
        have other := List.find?_eq_none.mp missing e member
        exact other (decide_eq_true named)

theorem sessTryLock (sound : Sound s) (awaiting : s.phase t = .awaiting addr) {r : ChatLanes Task}
    (taken : s.sessTryLock t addr = some r) : Sound r := by
  unfold ChatLanes.sessTryLock at taken
  obtain ⟨e, found, rfl⟩ := Option.map_eq_some_iff.mp taken
  have member := List.mem_of_find?_eq_some found
  have equal := List.find?_some found
  have here : e.addr = addr := of_decide_eq_true equal
  split
  · rename_i free
    apply sound.relock
    · rw [awaiting]
      rfl
    · rfl
    · rw [awaiting]
      rfl
    · intro u _ held
      have owner := (sound.owners e member u).mpr (held.trans (congrArg some here.symm))
      rw [free] at owner
      cases owner
    · intro u
      simp only [Phase.locked, Option.some.injEq, and_true, eq_comm]
  · exact sound

theorem unlock (sound : Sound s) (unlocking : s.phase t = .unlocking addr) :
    Sound ((s.edit addr fun e => { e with owner := none }).setPhase t (.leaving addr)) := by
  have pointer : (s.phase t).entry = some addr := by
    rw [unlocking]
    rfl
  have locked : (s.phase t).locked = some addr := by
    rw [unlocking]
    rfl
  obtain ⟨e, member, here, -⟩ := sound.pointers t addr pointer
  have owner : e.owner = some t := (sound.owners e member t).mpr (locked.trans (congrArg some here.symm))
  apply sound.relock pointer
  · rfl
  · rw [unlocking]
    rfl
  · intro u other held
    have same := (sound.owners e member u).mpr (held.trans (congrArg some here.symm))
    exact other (Option.some.inj (same.symm.trans owner))
  · intro u
    exact iff_of_false nofun nofun

theorem laneTryLock (sound : Sound s) {se i : Nat} (choosing : s.phase t = .choosing se i) :
    Sound (s.laneTryLock t se i) := by
  unfold ChatLanes.laneTryLock
  split
  · split
    · rename_i free
      exact sound.takeLane choosing free
    · apply sound.setPhase_same <;> rw [choosing] <;> rfl
  · apply sound.setPhase_same <;> rw [choosing] <;> rfl

theorem step {move : Move Task} {r : ChatLanes Task} (sound : Sound s) (taken : s.step move = some r) : Sound r := by
  cases move with
  | call t id =>
    simp only [ChatLanes.step] at taken
    split at taken
    · rename_i idle
      cases taken
      exact sound.call idle _
    · cases taken
  | acquire t fresh =>
    simp only [ChatLanes.step] at taken
    split at taken
    · rename_i called
      exact sound.sessLockAcquire called taken
    · cases taken
  | tryLock t =>
    simp only [ChatLanes.step] at taken
    split at taken
    · rename_i awaiting
      exact sound.sessTryLock awaiting taken
    · cases taken
  | abort t =>
    simp only [ChatLanes.step] at taken
    split at taken
    · rename_i awaiting
      cases taken
      apply sound.setPhase_same <;> rw [awaiting] <;> rfl
    · rename_i choosing
      cases taken
      apply sound.setPhase_same <;> rw [choosing] <;> rfl
    · cases taken
  | tryLane t =>
    simp only [ChatLanes.step] at taken
    split at taken
    · rename_i choosing
      cases taken
      exact sound.laneTryLock choosing
    · cases taken
  | finish t =>
    simp only [ChatLanes.step] at taken
    split at taken
    · rename_i running
      cases taken
      exact sound.freeLane running
    · cases taken
  | unlock t =>
    simp only [ChatLanes.step] at taken
    split at taken
    · rename_i unlocking
      cases taken
      exact sound.unlock unlocking
    · cases taken
  | unref t =>
    simp only [ChatLanes.step] at taken
    split at taken
    · rename_i leaving
      cases taken
      exact sound.sessUnref leaving
    · cases taken

end Sound

theorem sound_of_run {moves : List (Move Task)} (run : (machine Task).Run start moves s) : Sound s :=
  run.invariant (fun _ _ _ sound taken => sound.step taken) Sound.start

/-! ### Exclusion, and what is left -/

def HasLock (s : ChatLanes Task) (t : Task) : Prop :=
  (s.phase t).locked.isSome

def Refers (s : ChatLanes Task) (t : Task) : Prop :=
  (s.phase t).entry.isSome

structure Exclusive (s : ChatLanes Task) : Prop where
  /-- A task that has the lock of its session owns the mutex of the session's entry. -/
  owned : ∀ t, HasLock s t → ∃ e ∈ s.table, e.id = s.session t ∧ e.owner = some t
  session : ∀ t u, HasLock s t → HasLock s u → s.session t = s.session u → t = u
  lane : ∀ t u l, (s.phase t).lane = some l → (s.phase u).lane = some l → t = u
  /-- Tasks at one entry, waiting or not, are tasks of one session. -/
  separate : ∀ t u e, (s.phase t).entry = some e → (s.phase u).entry = some e → s.session t = s.session u
  /-- No pointer dangles. -/
  alive : ∀ t addr, (s.phase t).entry = some addr → ∃ e ∈ s.table, e.addr = addr ∧ e.id = s.session t
  listed : ∀ id, (∃ e ∈ s.table, e.id = id) ↔ ∃ t, Refers s t ∧ s.session t = id
  /-- Nothing is left once all tasks have ended. -/
  ended : (∀ t, s.phase t = .idle) → s.table = [] ∧ ∀ l, s.lane l = none

omit [DecidableEq Task] in
theorem exclusive_of_sound (sound : Sound s) : Exclusive s := by
  have owned (t : Task) (held : HasLock s t) : ∃ e ∈ s.table, e.id = s.session t ∧ e.owner = some t := by
    obtain ⟨addr, locked⟩ := Option.isSome_iff_exists.mp held
    obtain ⟨e, member, here, name⟩ := sound.pointers t addr (Phase.entry_of_locked locked)
    exact ⟨e, member, name, (sound.owners e member t).mpr (locked.trans (congrArg some here.symm))⟩
  exact
    { owned := owned
      session := by
        intro t u heldt heldu same
        obtain ⟨e, member, name, owner⟩ := owned t heldt
        obtain ⟨e', member', name', owner'⟩ := owned u heldu
        obtain rfl := sound.eq_of_id member member' (by rw [name, name', same])
        exact Option.some.inj (owner.symm.trans owner')
      lane := by
        intro t u l heldt heldu
        have owner := (sound.lanes l t).mpr heldt
        have owner' := (sound.lanes l u).mpr heldu
        exact Option.some.inj (owner.symm.trans owner')
      separate := by
        intro t u addr pointert pointeru
        obtain ⟨e, member, here, name⟩ := sound.pointers t addr pointert
        obtain ⟨e', member', here', name'⟩ := sound.pointers u addr pointeru
        obtain rfl := sound.eq_of_addr member member' (by rw [here, here'])
        exact name.symm.trans name'
      alive := sound.pointers
      listed := by
        intro id
        constructor
        · rintro ⟨e, member, rfl⟩
          have count := sound.counted e member
          have some := sound.used e member
          have users : (s.users e.addr).Nonempty := by
            rw [← Set.encard_pos, ← count]
            exact_mod_cast some
          obtain ⟨t, pointer⟩ := users
          obtain ⟨e', member', here, name⟩ := sound.pointers t e.addr pointer
          obtain rfl := sound.eq_of_addr member' member here
          exact ⟨t, Option.isSome_iff_exists.mpr ⟨_, pointer⟩, name.symm⟩
        · rintro ⟨t, refers, rfl⟩
          obtain ⟨addr, pointer⟩ := Option.isSome_iff_exists.mp refers
          obtain ⟨e, member, -, name⟩ := sound.pointers t addr pointer
          exact ⟨e, member, name⟩
      ended := by
        intro idle
        constructor
        · apply List.eq_nil_iff_forall_not_mem.mpr
          intro e member
          have nobody : s.users e.addr = ∅ := by
            apply Set.eq_empty_of_forall_notMem
            intro t pointer
            have none : (s.phase t).entry = some e.addr := pointer
            rw [idle t] at none
            cases none
          have count := sound.counted e member
          have some := sound.used e member
          rw [nobody, Set.encard_empty] at count
          have zero : e.references = 0 := by exact_mod_cast count
          omega
        · intro l
          cases owner : s.lane l with
          | none => rfl
          | some t =>
            have held := (sound.lanes l t).mp owner
            rw [idle t] at held
            cases held }

/-- In every state that any interleaving reaches, session locks and lanes are exclusive, the
table holds exactly the sessions in use, and nothing is left behind. -/
theorem exclusive_of_run {moves : List (Move Task)} (run : (machine Task).Run start moves s) : Exclusive s :=
  exclusive_of_sound (sound_of_run run)

/-- One task runs, one awaits the same session, and a third gives up another session. -/
def crowded : List (Move Nat) :=
  [.call 0 [97], .acquire 0 (some 8), .tryLock 0, .call 1 [97], .acquire 1 none, .tryLane 0,
   .tryLock 1, .call 2 [], .acquire 2 (some 9), .tryLock 2, .abort 2, .unlock 2, .unref 2]

theorem exclusive_crowded : ∃ s : ChatLanes Nat, Exclusive s ∧
    s.phase 0 = .running 8 ⟨0, by decide⟩ ∧ s.phase 1 = .awaiting 8 ∧ s.phase 2 = .idle := by
  have done : (Machine.exec step start crowded).map (fun s : ChatLanes Nat => (s.phase 0, s.phase 1, s.phase 2)) =
      some (.running 8 ⟨0, by decide⟩, .awaiting 8, .idle) := by
    decide
  obtain ⟨s, executed, phases⟩ := Option.map_eq_some_iff.mp done
  simp only [Prod.mk.injEq] at phases
  exact ⟨s, exclusive_of_run (Machine.run_ofPartial_of_exec executed), phases⟩

end ChatLanes

end CognitiveOs.Agent
