import CognitiveOs.Foundation.Machine
import CognitiveOs.Infra.Text

/-!
# Running a command

`proc_run_in` of `os/posix/proc.c` beside the child it starts: the child writes into a pipe and
exits, the runner reads without blocking, looks for the exit and for the deadline, and at last
takes what is left in the pipe. No descendant of the child holds the pipe.
-/

namespace CognitiveOs.Os.Proc

open Foundation Infra

inductive Child where
  | running
  | exited (code : UInt8)
  | killed
  deriving DecidableEq

inductive Phase where
  | checking
  | reading
  | waiting
  | ended
  | killing
  | draining
  | done
  deriving DecidableEq

structure State where
  child : Child
  /-- Its status has been taken. -/
  reaped : Bool
  /-- All the child ever wrote. -/
  wrote : Text
  pipe : Text
  /-- Milliseconds since the child was started. -/
  elapsed : Nat
  phase : Phase
  buf : Text
  cap : Nat
  exitCode : Int
  timedOut : Bool
  deriving DecidableEq

def start : State where
  child := .running
  reaped := false
  wrote := []
  pipe := []
  elapsed := 0
  phase := .checking
  buf := []
  cap := 65536
  exitCode := 0
  timedOut := false

inductive Label where
  | write (bytes : Text)
  | exit (code : UInt8)
  | tick (ms : Nat)
  | deadline
  | read (k : Nat)
  | wait
  | lastWait
  | kill
  | drain (k : Nat)

def room (s : State) : Nat :=
  s.cap - s.buf.length - 1

/-- A read that returns this many bytes. None come from an empty pipe or into a full buffer. -/
def Reads (s : State) (k : Nat) : Prop :=
  k ≤ s.pipe.length ∧ k ≤ room s ∧ (k = 0 → s.pipe = [] ∨ room s = 0)

instance (s : State) (k : Nat) : Decidable (Reads s k) :=
  inferInstanceAs (Decidable (_ ∧ _ ∧ _))

def take (s : State) (k : Nat) : State :=
  { s with buf := s.buf ++ s.pipe.take k, pipe := s.pipe.drop k }

def grown (cap len : Nat) : Nat :=
  if cap < len + 1024 then cap * 2 else cap

inductive WaitResult where
  | none
  | child
  | error

/-- `waitpid` with `WNOHANG`. -/
def waitpid (s : State) : WaitResult :=
  if s.reaped then .error else if s.child = .running then .none else .child

/-- The status as `WIFEXITED` and `WEXITSTATUS` read it. -/
def exitStatus : Child → Int
  | .exited code => code.toNat
  | _ => -1

def step (timeoutMs : Int) (capacity : Nat) (s : State) : Label → Option State
  | .write bytes =>
    if s.child = .running ∧ 0 ∉ bytes ∧ s.pipe.length + bytes.length ≤ capacity then
      some { s with wrote := s.wrote ++ bytes, pipe := s.pipe ++ bytes }
    else none
  | .exit code => if s.child = .running then some { s with child := .exited code } else none
  | .tick ms => some { s with elapsed := s.elapsed + ms }
  | .deadline =>
    if s.phase = .checking then
      some { s with phase := if 0 < timeoutMs ∧ timeoutMs ≤ s.elapsed then .ended else .reading }
    else none
  | .read k =>
    if s.phase = .reading ∧ Reads s k then
      some
        (if k = 0 then { s with phase := .waiting }
        else { take s k with cap := grown s.cap (take s k).buf.length, phase := .checking })
    else none
  | .wait =>
    if s.phase = .waiting then
      match waitpid s with
      | .child => some { s with reaped := true, exitCode := exitStatus s.child, phase := .ended }
      | _ => some { s with phase := .checking }
    else none
  | .lastWait =>
    if s.phase = .ended then
      match waitpid s with
      | .none => some { s with phase := .killing }
      | _ => some { s with reaped := true, phase := .draining }
    else none
  | .kill =>
    -- the wait behind the kill takes the status of whatever has become of the child
    if s.phase = .killing then
      some { s with
        child := if s.child = .running then .killed else s.child, reaped := true, timedOut := true, exitCode := -1,
        phase := .draining }
    else none
  | .drain k =>
    if s.phase = .draining ∧ Reads s k then some (if k = 0 then { s with phase := .done } else take s k) else none

abbrev machine (timeoutMs : Int) (capacity : Nat) : Machine State Label :=
  Machine.ofPartial (step timeoutMs capacity)

def isEnd (c : UInt8) : Bool :=
  c = 10 ∨ c = 13 ∨ c = 32

def trimEnd (s : Text) : Text :=
  (s.reverse.dropWhile isEnd).reverse

structure ProcResult where
  output : Text
  exitCode : Int
  timedOut : Bool

/-- What `proc_run_in` returns. -/
def result (s : State) : Option ProcResult :=
  if s.phase = .done then some { output := cstr (trimEnd s.buf), exitCode := s.exitCode, timedOut := s.timedOut }
  else none

def Truthful (s : State) : Prop :=
  ∀ r, result s = some r →
    (r.timedOut = true → s.child = .killed) ∧
      (r.timedOut = false → ∃ code, s.child = .exited code ∧ r.exitCode = code.toNat ∧ r.output = trimEnd s.wrote)

/-- What keeps the outcome truthful: a child that exits between the deadline and the last look at
it exits with 0; what the buffer of an exited child has no room for is blank; and no child exits
between the last look and the kill. -/
def Timely (s : State) : Label → Prop
  | .lastWait =>
    ∀ code, s.child = .exited code → (s.reaped = false → code = 0) ∧ ∀ c ∈ s.pipe.drop (room s), isEnd c = true
  | .kill => s.child = .running
  | _ => True

/-! ### Trimming -/

theorem trimEnd_append_blank {s blank : Text} (blanks : ∀ c ∈ blank, isEnd c = true) :
    trimEnd (s ++ blank) = trimEnd s := by
  rw [trimEnd, List.reverse_append, List.dropWhile_append_of_pos, trimEnd]
  intro c member
  exact blanks c (List.mem_reverse.mp member)

theorem trimEnd_clean {s : Text} (clean : 0 ∉ s) : 0 ∉ trimEnd s := by
  intro member
  exact clean (List.mem_reverse.mp ((List.dropWhile_sublist isEnd).mem (List.mem_reverse.mp member)))

/-! ### Runs -/

/-- What became of the child is settled: it was killed, or it exited with the code of the outcome
and what does not fit the buffer is blank. -/
def Settled (s : State) : Prop :=
  (s.timedOut = true ∧ s.child = .killed) ∨
    (s.timedOut = false ∧ ∃ code : UInt8, s.child = .exited code ∧ s.exitCode = code.toNat ∧
      ∀ c ∈ s.pipe.drop (room s), isEnd c = true)

def Told (s : State) : Prop :=
  match s.phase with
  | .checking | .reading | .waiting =>
    s.exitCode = 0 ∧ s.timedOut = false ∧ s.reaped = false ∧ s.child ≠ .killed
  | .ended =>
    s.timedOut = false ∧ s.child ≠ .killed ∧
      ((s.reaped = false ∧ s.exitCode = 0) ∨ (s.child ≠ .running ∧ s.exitCode = exitStatus s.child))
  | .killing => True
  | .draining => Settled s
  | .done => Settled s ∧ (s.pipe = [] ∨ room s = 0)

structure Sound (s : State) : Prop where
  bytes : s.wrote = s.buf ++ s.pipe
  clean : 0 ∉ s.wrote
  told : Told s

theorem Settled.not_running {s : State} (settled : Settled s) : s.child ≠ .running := by
  rcases settled with ⟨_, killed⟩ | ⟨_, code, exited, _⟩
  · rw [killed]
    nofun
  · rw [exited]
    nofun

theorem Told.running {s t : State} (told : Told s) (running : s.child = .running) (alive : t.child ≠ .killed)
    (same : t.phase = s.phase ∧ t.exitCode = s.exitCode ∧ t.timedOut = s.timedOut ∧ t.reaped = s.reaped) : Told t := by
  obtain ⟨phase, exitCode, timedOut, reaped⟩ := same
  unfold Told at told ⊢
  rw [phase, exitCode, timedOut, reaped]
  cases place : s.phase <;> rw [place] at told
  case checking => exact ⟨told.1, told.2.1, told.2.2.1, alive⟩
  case reading => exact ⟨told.1, told.2.1, told.2.2.1, alive⟩
  case waiting => exact ⟨told.1, told.2.1, told.2.2.1, alive⟩
  case ended =>
    rcases told.2.2 with fresh | ⟨stopped, _⟩
    · exact ⟨told.1, alive, .inl fresh⟩
    · exact absurd running stopped
  case killing => trivial
  case draining => exact absurd running told.not_running
  case done => exact absurd running told.1.not_running

theorem take_bytes {s : State} (bytes : s.wrote = s.buf ++ s.pipe) (k : Nat) :
    (take s k).wrote = (take s k).buf ++ (take s k).pipe := by
  change s.wrote = s.buf ++ s.pipe.take k ++ s.pipe.drop k
  rw [List.append_assoc, List.take_append_drop, bytes]

theorem Settled.take {s : State} (settled : Settled s) {k : Nat} (reads : Reads s k) : Settled (take s k) := by
  have same : (Proc.take s k).pipe.drop (room (Proc.take s k)) = s.pipe.drop (room s) := by
    change (s.pipe.drop k).drop (s.cap - (s.buf ++ s.pipe.take k).length - 1) = _
    have part : (s.pipe.take k).length = k := List.length_take_of_le reads.1
    have fits : k ≤ s.cap - s.buf.length - 1 := reads.2.1
    rw [List.drop_drop, List.length_append, part]
    unfold room
    congr 1
    omega
  rcases settled with killed | ⟨timely, code, exited, tells, blank⟩
  · exact .inl killed
  · exact .inr ⟨timely, code, exited, tells, fun c member => blank c (same ▸ member)⟩

theorem settled_of_stopped {s : State}
    (told : s.timedOut = false ∧ s.child ≠ .killed ∧
      ((s.reaped = false ∧ s.exitCode = 0) ∨ (s.child ≠ .running ∧ s.exitCode = exitStatus s.child)))
    (timely : Timely s .lastWait) (stopped : s.child ≠ .running) :
    Settled { s with reaped := true, phase := .draining } := by
  obtain ⟨onTime, alive, status⟩ := told
  obtain ⟨code, exited⟩ : ∃ code, s.child = .exited code := by
    cases become : s.child with
    | running => exact absurd become stopped
    | exited code => exact ⟨code, rfl⟩
    | killed => exact absurd become alive
  obtain ⟨zero, blank⟩ := timely code exited
  refine .inr ⟨onTime, code, exited, ?_, blank⟩
  rcases status with ⟨fresh, unset⟩ | ⟨_, told⟩
  · rw [zero fresh]
    exact unset
  · rw [exited] at told
    exact told

theorem step_sound {timeoutMs : Int} {capacity : Nat} {s t : State} {label : Label} (sound : Sound s)
    (timely : Timely s label) (taken : step timeoutMs capacity s label = some t) : Sound t := by
  have told := sound.told
  cases label with
  | write bytes =>
      obtain ⟨⟨running, clean, _⟩, rfl⟩ := Option.ite_none_right_eq_some.mp taken |>.imp_right Option.some.inj
      refine ⟨?_, ?_, told.running running (by rw [running]; nofun) ⟨rfl, rfl, rfl, rfl⟩⟩
      · change s.wrote ++ bytes = s.buf ++ (s.pipe ++ bytes)
        rw [sound.bytes, List.append_assoc]
      · intro member
        rcases List.mem_append.mp member with old | new
        · exact sound.clean old
        · exact clean new
  | exit code =>
      obtain ⟨running, rfl⟩ := Option.ite_none_right_eq_some.mp taken |>.imp_right Option.some.inj
      exact ⟨sound.bytes, sound.clean, told.running running (by nofun) ⟨rfl, rfl, rfl, rfl⟩⟩
  | tick ms =>
      obtain rfl := Option.some.inj taken
      exact ⟨sound.bytes, sound.clean, told⟩
  | deadline =>
      obtain ⟨place, rfl⟩ := Option.ite_none_right_eq_some.mp taken |>.imp_right Option.some.inj
      rw [Told, place] at told
      obtain ⟨zero, onTime, fresh, alive⟩ := told
      refine ⟨sound.bytes, sound.clean, ?_⟩
      by_cases late : 0 < timeoutMs ∧ timeoutMs ≤ s.elapsed
      · simp only [Told, if_pos late]
        exact ⟨onTime, alive, .inl ⟨fresh, zero⟩⟩
      · simp only [Told, if_neg late]
        exact ⟨zero, onTime, fresh, alive⟩
  | read k =>
      obtain ⟨⟨place, reads⟩, rfl⟩ := Option.ite_none_right_eq_some.mp taken |>.imp_right Option.some.inj
      rw [Told, place] at told
      split
      · exact ⟨sound.bytes, sound.clean, told⟩
      · exact ⟨take_bytes sound.bytes k, sound.clean, told⟩
  | wait =>
      obtain ⟨place, next⟩ := Option.ite_none_right_eq_some.mp taken
      rw [Told, place] at told
      obtain ⟨zero, onTime, fresh, alive⟩ := told
      unfold waitpid at next
      rw [fresh, if_neg Bool.false_ne_true] at next
      by_cases running : s.child = .running
      · rw [if_pos running] at next
        obtain rfl := Option.some.inj next
        exact ⟨sound.bytes, sound.clean, zero, onTime, rfl, alive⟩
      · rw [if_neg running] at next
        obtain rfl := Option.some.inj next
        exact ⟨sound.bytes, sound.clean, onTime, alive, .inr ⟨running, rfl⟩⟩
  | lastWait =>
      obtain ⟨place, next⟩ := Option.ite_none_right_eq_some.mp taken
      rw [Told, place] at told
      unfold waitpid at next
      split_ifs at next with reaped running
      · obtain rfl := Option.some.inj next
        rcases told.2.2 with ⟨fresh, _⟩ | ⟨stopped, _⟩
        · rw [fresh] at reaped
          cases reaped
        · exact ⟨sound.bytes, sound.clean, settled_of_stopped told timely stopped⟩
      · obtain rfl := Option.some.inj next
        exact ⟨sound.bytes, sound.clean, trivial⟩
      · obtain rfl := Option.some.inj next
        exact ⟨sound.bytes, sound.clean, settled_of_stopped told timely running⟩
  | kill =>
      obtain ⟨_, rfl⟩ := Option.ite_none_right_eq_some.mp taken |>.imp_right Option.some.inj
      exact ⟨sound.bytes, sound.clean, .inl ⟨rfl, if_pos timely⟩⟩
  | drain k =>
      obtain ⟨⟨place, reads⟩, rfl⟩ := Option.ite_none_right_eq_some.mp taken |>.imp_right Option.some.inj
      rw [Told, place] at told
      split
      · rename_i none
        exact ⟨sound.bytes, sound.clean, told, reads.2.2 none⟩
      · have kept : Told (take s k) := by
          rw [Told, show (take s k).phase = .draining from place]
          exact told.take reads
        exact ⟨take_bytes sound.bytes k, sound.clean, kept⟩

theorem start_sound : Sound start where
  bytes := rfl
  clean := nofun
  told := ⟨rfl, rfl, rfl, nofun⟩

theorem Sound.truthful {s : State} (sound : Sound s) : Truthful s := by
  intro r returned
  obtain ⟨place, rfl⟩ := Option.ite_none_right_eq_some.mp returned |>.imp_right Option.some.inj
  have told := sound.told
  rw [Told, place] at told
  obtain ⟨settled, stops⟩ := told
  rcases settled with ⟨late, killed⟩ | ⟨onTime, code, exited, status, blank⟩
  · refine ⟨fun _ => killed, fun onTime => ?_⟩
    rw [late] at onTime
    cases onTime
  · refine ⟨fun late => ?_, fun _ => ⟨code, exited, status, ?_⟩⟩
    · rw [onTime] at late
      cases late
    -- whatever stays in the pipe is blank
    · have rest : ∀ c ∈ s.pipe, isEnd c = true := by
        rcases stops with empty | full
        · rw [empty]
          nofun
        · rw [full] at blank
          exact blank
      have whole : trimEnd s.wrote = trimEnd s.buf := by
        rw [sound.bytes, trimEnd_append_blank rest]
      have clean := trimEnd_clean sound.clean
      rw [whole] at clean ⊢
      exact cstr_eq_self clean

theorem sound_of_run {timeoutMs : Int} {capacity : Nat} {labels : List Label} {s : State}
    (run : ((machine timeoutMs capacity).restrict Timely).Run start labels s) : Sound s := by
  refine Machine.Run.invariant ?_ run start_sound
  intro before label after sound taken
  exact step_sound sound taken.1 taken.2

end CognitiveOs.Os.Proc
