import CognitiveOs.Foundation.Options
import CognitiveOs.Security.PasswordSplits

/-!
# The stream guard

`secret_stream_guard_cb` and `secret_stream_guard_free` of `security/secret_boundary.c`: a text
comes in deltas, its tail is held back, and what goes out is redacted piece by piece.
-/

namespace CognitiveOs.Security

open Foundation Infra

/-- How much of a window is held back. A short password needs 32 bytes for its label. -/
def guardCarry (ps : Passwords) : Nat :=
  let carry := maxLength ps
  (if carry ≠ 0 ∧ carry < 32 then 32 else carry) - 1

def moveCut (cut : Nat) (m : Span) : Nat :=
  if m.start < cut ∧ cut < m.stop then m.stop else cut

def guardCut (ps : Passwords) (window : Text) : Nat :=
  (secretScanSshPasswords ps window).foldl moveCut (window.length - guardCarry ps)

/-- `guard_emit_window`: what goes out, and what is held back. -/
def guardEmitWindow (ps : Passwords) (window : Text) : Text × Text :=
  let cut := guardCut ps window
  (if cut = 0 then [] else secretRedactSshPasswords ps (window.take cut), window.drop cut)

def secretStreamGuardCb (ps : Passwords) (hold delta : Text) : Text × Text :=
  if cstr delta = [] then ([], hold) else guardEmitWindow ps (hold ++ cstr delta)

/-- The flush of `secret_stream_guard_free`. -/
def secretStreamGuardFree (ps : Passwords) (hold : Text) : Text :=
  if hold = [] then [] else if secretScanSshPasswords ps hold = [] then hold else secretRedactSshPasswords ps hold

def streamed (ps : Passwords) (hold : Text) : List Text → Text
  | [] => secretStreamGuardFree ps hold
  | delta :: deltas =>
    (secretStreamGuardCb ps hold delta).1 ++ streamed ps (secretStreamGuardCb ps hold delta).2 deltas

def wholeText (deltas : List Text) : Text :=
  (deltas.map cstr).flatten

/-- The cut of a window is safe for what comes behind it: where it was moved to the end of a match,
no occurrence that begins before it is incomplete; and no short password behind it has its label
before it. -/
def SafeCut (ps : Passwords) (window rest : Text) : Prop :=
  ∀ p ∈ ps, ∀ i, occurs (window ++ rest) p i = true →
    (window.length - guardCarry ps < guardCut ps window → i < guardCut ps window → i + p.length ≤ window.length) ∧
      (guardCut ps window ≤ i → LabelKept (window ++ rest) p (guardCut ps window) i)

def SafeCuts (ps : Passwords) (hold : Text) : List Text → Prop
  | [] => True
  | delta :: deltas =>
    (cstr delta ≠ [] → SafeCut ps (hold ++ cstr delta) (wholeText deltas)) ∧
      SafeCuts ps (secretStreamGuardCb ps hold delta).2 deltas

/-! ### The cut -/

variable {ps : Passwords} {window : Text}

theorem foldl_moveCut_cases (cut : Nat) (spans : List Span) :
    spans.foldl moveCut cut = cut ∨ ∃ m ∈ spans, m.start < m.stop ∧ spans.foldl moveCut cut = m.stop := by
  induction spans generalizing cut with
  | nil => exact .inl rfl
  | cons m ms next =>
      rw [List.foldl_cons]
      rcases next (moveCut cut m) with stays | ⟨y, member, starts⟩
      · rw [stays]
        unfold moveCut
        split
        · rename_i inside
          exact .inr ⟨m, List.mem_cons_self, inside.1.trans inside.2, rfl⟩
        · exact .inl rfl
      · exact .inr ⟨y, List.mem_cons_of_mem m member, starts⟩

theorem foldl_moveCut {cut : Nat} {spans : List Span} (disjoint : spans.Pairwise fun x y => x.stop ≤ y.start) :
    cut ≤ spans.foldl moveCut cut ∧
      ∀ m ∈ spans, ¬ (m.start < spans.foldl moveCut cut ∧ spans.foldl moveCut cut < m.stop) := by
  induction spans generalizing cut with
  | nil => exact ⟨le_rfl, nofun⟩
  | cons m ms next =>
      obtain ⟨first, rest⟩ := List.pairwise_cons.mp disjoint
      obtain ⟨grows, free⟩ := @next (moveCut cut m) rest
      rw [List.foldl_cons]
      have moves : (m.start < cut ∧ cut < m.stop ∧ moveCut cut m = m.stop) ∨
          (¬ (m.start < cut ∧ cut < m.stop) ∧ moveCut cut m = cut) := by
        unfold moveCut
        split
        · rename_i inside
          exact .inl ⟨inside.1, inside.2, rfl⟩
        · rename_i outside
          exact .inr ⟨outside, rfl⟩
      refine ⟨by omega, List.forall_mem_cons.mpr ⟨?_, free⟩⟩
      rcases foldl_moveCut_cases (moveCut cut m) ms with stays | ⟨y, member, starts⟩
      · omega
      · have behind := first y member
        omega

theorem length_le_guardCarry {p : Text} (listed : p ∈ ps) : p.length ≤ guardCarry ps + 1 := by
  have bound : p.length ≤ maxLength ps := by
    obtain ⟨n, below⟩ := exists_step_le_foldl (fun n (p : Text) => Nat.le_max_left n p.length) listed 0
    exact (Nat.le_max_right n p.length).trans below
  unfold guardCarry
  dsimp only
  split <;> omega

theorem guardCut_le (bytes : ∀ p ∈ ps, p ≠ []) (window : Text) : guardCut ps window ≤ window.length := by
  rcases foldl_moveCut_cases (window.length - guardCarry ps) (secretScanSshPasswords ps window) with
    stays | ⟨m, merged, _, ends⟩
  · rw [guardCut, stays]
    exact Nat.sub_le _ _
  · rw [guardCut, ends]
    refine (mergeSpans_bounds ?_ m merged).2
    intro x member
    have bounds := rawMatches_bounds bytes (List.mem_mergeSort.mp member)
    omega

theorem SafeCut.splits {rest : Text} (bytes : ∀ p ∈ ps, p ≠ []) (safe : SafeCut ps window rest) :
    SplitsAt ps (window ++ rest) (guardCut ps window) := by
  intro p listed i here
  obtain ⟨moved, labels⟩ := safe p listed i here
  refine ⟨fun before => ?_, labels⟩
  obtain ⟨grows, free⟩ := @foldl_moveCut (window.length - guardCarry ps) _ (scan_disjoint ps window)
  have least : window.length - guardCarry ps ≤ guardCut ps window := grows
  -- what begins before a cut that has not been moved is complete: it is no longer than what is held back
  have complete : i + p.length ≤ window.length := by
    rcases Nat.lt_or_eq_of_le least with further | stays
    · exact moved further before
    · have short := length_le_guardCarry listed
      omega
  have found : occurs window p i = true := by
    rw [← occurs_take complete, List.take_left] at here
    exact here
  obtain ⟨m, merged, starts, stops⟩ := scan_covers ((mem_rawMatches bytes).mpr ⟨p, listed, i, found, rfl⟩)
  have outside : ¬ (m.start < guardCut ps window ∧ guardCut ps window < m.stop) := free m merged
  dsimp only at starts stops
  omega

/-! ### Streams -/

theorem redact_of_scan_nil {text : Text} (none : secretScanSshPasswords ps text = []) :
    secretRedactSshPasswords ps text = text := by
  rw [secretRedactSshPasswords, none]
  rfl

theorem redact_nil (ps : Passwords) (bytes : ∀ p ∈ ps, p ≠ []) : secretRedactSshPasswords ps [] = [] := by
  apply redact_of_scan_nil
  have empty : rawMatches ps [] = [] := by
    apply List.eq_nil_iff_forall_not_mem.mpr
    intro x member
    have bounds := rawMatches_bounds bytes member
    have length : ([] : Text).length = 0 := rfl
    omega
  rw [secretScanSshPasswords, empty, List.mergeSort_nil]
  rfl

theorem streamGuardFree_eq (bytes : ∀ p ∈ ps, p ≠ []) (hold : Text) :
    secretStreamGuardFree ps hold = secretRedactSshPasswords ps hold := by
  unfold secretStreamGuardFree
  split_ifs with empty none
  · rw [empty, redact_nil ps bytes]
  · rw [redact_of_scan_nil none]
  · rfl

theorem emitWindow_split {rest : Text} (bytes : ∀ p ∈ ps, p ≠ []) (safe : SafeCut ps window rest) :
    (guardEmitWindow ps window).1 ++ secretRedactSshPasswords ps ((guardEmitWindow ps window).2 ++ rest) =
      secretRedactSshPasswords ps (window ++ rest) := by
  have inside := guardCut_le bytes window
  have sent : (guardEmitWindow ps window).1 = secretRedactSshPasswords ps (window.take (guardCut ps window)) := by
    unfold guardEmitWindow
    dsimp only
    split
    · rename_i none
      rw [none, List.take_zero, redact_nil ps bytes]
    · rfl
  have parts := secretRedact_split (safe.splits bytes) bytes
  rw [List.take_append_of_le_length inside, List.drop_append_of_le_length inside] at parts
  rw [parts, sent]
  rfl

theorem streamed_of_safe {hold : Text} {deltas : List Text} (bytes : ∀ p ∈ ps, p ≠ [])
    (safe : SafeCuts ps hold deltas) :
    streamed ps hold deltas = secretRedactSshPasswords ps (hold ++ wholeText deltas) := by
  induction deltas generalizing hold with
  | nil =>
      rw [streamed, streamGuardFree_eq bytes]
      exact congrArg _ (List.append_nil hold).symm
  | cons delta deltas next =>
      obtain ⟨here, later⟩ := safe
      have whole : wholeText (delta :: deltas) = cstr delta ++ wholeText deltas := rfl
      rw [streamed, next later, whole]
      unfold secretStreamGuardCb
      split
      · rename_i none
        rw [none]
        rfl
      · rename_i some'
        rw [emitWindow_split bytes (here some'), List.append_assoc]

/-! ### Registered passwords -/

def registered (given : List Text) : Passwords :=
  given.foldl secretRegisterSshPassword []

theorem registerValue_ne_nil (bytes : ∀ p ∈ ps, p ≠ []) (password : Text) :
    ∀ p ∈ registerValue ps password, p ≠ [] := by
  unfold registerValue
  split
  · exact bytes
  · rename_i fits
    exact List.forall_mem_cons.mpr ⟨fun none => fits (.inl none), bytes⟩

theorem registered_ne_nil (given : List Text) : ∀ p ∈ registered given, p ≠ [] := by
  have each (ps : Passwords) (bytes : ∀ p ∈ ps, p ≠ []) : ∀ p ∈ given.foldl secretRegisterSshPassword ps, p ≠ [] := by
    induction given generalizing ps with
    | nil => exact bytes
    | cons password rest next =>
        apply next
        unfold secretRegisterSshPassword
        split
        · exact bytes
        · exact registerValue_ne_nil (registerValue_ne_nil bytes password) _
  exact each [] nofun

/-- As long as every cut is safe, the sink receives the redacted whole. -/
theorem streamed_eq_whole (given deltas : List Text) (safe : SafeCuts (registered given) [] deltas) :
    streamed (registered given) [] deltas = secretRedactSshPasswords (registered given) (wholeText deltas) :=
  streamed_of_safe (registered_ne_nil given) safe

theorem SafeCut.of_still (long : ∀ p ∈ ps, 4 ≤ p.length) (still : guardCut ps window = window.length - guardCarry ps)
    (rest : Text) : SafeCut ps window rest := by
  intro p listed i _
  refine ⟨fun moved => ?_, fun _ short => ?_⟩
  · omega
  · have size := long p listed
    omega

/-- A password that comes in two deltas is redacted. -/
theorem streamed_twoDeltas :
    streamed (registered [ascii "hunter22"]) [] [ascii "log in to the build machine with hun", ascii "ter22 now"] =
      secretRedactSshPasswords (registered [ascii "hunter22"])
        (wholeText [ascii "log in to the build machine with hun", ascii "ter22 now"]) := by
  have known : registered [ascii "hunter22"] = [ascii "hunter22"] := by decide +kernel
  have long : ∀ p ∈ registered [ascii "hunter22"], 4 ≤ p.length := by
    rw [known]
    decide
  have held : (secretStreamGuardCb [ascii "hunter22"] [] (ascii "log in to the build machine with hun")).2 =
      ascii "n to the build machine with hun" := by decide +kernel
  apply streamed_eq_whole [ascii "hunter22"] [ascii "log in to the build machine with hun", ascii "ter22 now"]
  refine ⟨fun _ => SafeCut.of_still long ?_ _, fun _ => SafeCut.of_still long ?_ _, trivial⟩
  · rw [known]
    decide +kernel
  · rw [known, held]
    decide +kernel

/-- The separators behind a label are longer than what is held back for them. -/
theorem shortPassword_leaks :
    streamed (registered [ascii "abc"]) [] [ascii "password:                         ", ascii "abc"] ≠
      secretRedactSshPasswords (registered [ascii "abc"])
        (wholeText [ascii "password:                         ", ascii "abc"]) := by
  decide +kernel

end CognitiveOs.Security
