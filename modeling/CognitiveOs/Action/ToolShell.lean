import CognitiveOs.Infra.Scan
import CognitiveOs.Infra.Utf8
import CognitiveOs.Os.Proc

/-!
# The shell tool

What `shell_exec_impl` of `action/tool_shell.c` makes of the outcome of a command.
-/

namespace CognitiveOs.Action.ToolShell

open Foundation Infra Os.Proc

structure ToolResult where
  ok : Bool
  text : Text

def readable (output : Text) : Text :=
  if output ≠ [] ∧ ¬ strUtf8Valid output then strUtf8Sanitize output else output

/-- The end of `shell_exec_impl`. -/
def shellResult (r : ProcResult) : ToolResult :=
  if r.timedOut ∨ r.exitCode ≠ 0 then
    { ok := false
      text :=
        if r.timedOut then ascii "[timeout] " ++ readable r.output ++ ascii "\ncommand exceeded time limit"
        else ascii "exit code " ++ printInteger r.exitCode ++ [10] ++ readable r.output }
  else { ok := true, text := readable r.output }

def ShellTruthful (s : State) : Prop :=
  ∀ r, result s = some r → (shellResult r).ok = true →
    s.child = .exited 0 ∧ (shellResult r).text = readable (trimEnd s.wrote)

theorem shellResult_ok {r : ProcResult} (ok : (shellResult r).ok = true) :
    r.timedOut = false ∧ r.exitCode = 0 ∧ (shellResult r).text = readable r.output := by
  unfold shellResult at ok ⊢
  split at ok
  · cases ok
  · rename_i good
    obtain ⟨onTime, zero⟩ := not_or.mp good
    rw [if_neg good]
    exact ⟨Bool.eq_false_iff.mpr onTime, not_not.mp zero, rfl⟩

theorem shellTruthful_of_truthful {s : State} (truthful : Truthful s) : ShellTruthful s := by
  intro r returned ok
  obtain ⟨onTime, zero, text⟩ := shellResult_ok ok
  obtain ⟨code, exited, status, output⟩ := (truthful r returned).2 onTime
  have isZero : code = 0 := by
    apply UInt8.toNat_inj.mp
    rw [zero] at status
    exact Int.ofNat_inj.mp status.symm
  rw [exited, isZero, text, output]
  exact ⟨rfl, rfl⟩

/-- As long as the child's exit meets none of the runner's gaps, the outcome is the child's. -/
theorem outcome_of_run {timeoutMs : Int} {capacity : Nat} {labels : List Label} {s : State}
    (run : ((machine timeoutMs capacity).restrict Timely).Run start labels s) : Truthful s ∧ ShellTruthful s := by
  have truthful := (sound_of_run run).truthful
  exact ⟨truthful, shellTruthful_of_truthful truthful⟩

/-! ### A command that prints and exits in time, and one that fails at its deadline -/

def afterGreeting : State where
  child := .exited 0
  reaped := true
  wrote := ascii "hello\n"
  pipe := []
  elapsed := 0
  phase := .done
  buf := ascii "hello\n"
  cap := 65536
  exitCode := 0
  timedOut := false

def greeting : List Label :=
  [.write (ascii "hello\n"), .deadline, .read 6, .exit 0, .deadline, .read 0, .wait]

theorem outcome_greeting : Truthful afterGreeting ∧ ShellTruthful afterGreeting := by
  have ends : Machine.exec (step 15000 65536) start greeting = some { afterGreeting with phase := .ended } := by
    decide +kernel
  have timely : ∀ label ∈ greeting, ∀ s, Timely s label := by simp [greeting, Timely]
  have front := Machine.run_restrict_of_exec timely ends
  have last : Timely { afterGreeting with phase := .ended } .lastWait := fun _ _ => ⟨nofun, nofun⟩
  have looked : step 15000 65536 { afterGreeting with phase := .ended } .lastWait =
      some { afterGreeting with phase := .draining } := by decide
  have drained : step 15000 65536 { afterGreeting with phase := .draining } (.drain 0) = some afterGreeting := by decide
  have free : Timely { afterGreeting with phase := .draining } (.drain 0) := trivial
  exact outcome_of_run ((front.step ⟨last, looked⟩).step ⟨free, drained⟩)

/-- The deadline passes, the command fails, and the runner looks at it for the last time. -/
def lateFailure : List Label :=
  [.tick 100, .deadline, .exit 1, .lastWait, .drain 0]

def afterLateFailure : State where
  child := .exited 1
  reaped := true
  wrote := []
  pipe := []
  elapsed := 100
  phase := .done
  buf := []
  cap := 65536
  exitCode := 0
  timedOut := false

/-- The command's failure is reported as a success. -/
theorem lateFailure_succeeds :
    ¬ ∀ timeoutMs capacity labels s, (machine timeoutMs capacity).Run start labels s → Truthful s ∧ ShellTruthful s := by
  intro always
  have ends : Machine.exec (step 100 65536) start lateFailure = some afterLateFailure := by decide
  obtain ⟨_, shell⟩ := always 100 65536 lateFailure afterLateFailure (Machine.run_ofPartial_of_exec ends)
  have succeeded := (shell _ rfl rfl).1
  cases succeeded

end CognitiveOs.Action.ToolShell
