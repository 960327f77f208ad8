import CognitiveOs.Infra.Cjson
import CognitiveOs.Infra.Shell

/-!
# Shell commands for WSL and a remote host

The routing executors of `execution/executor.c`: a shell command is wrapped into a line for the local
shell, which starts `bash` in WSL, or `ssh`.
-/

namespace CognitiveOs.Execution.Route

open Infra Shell

def shQuote (s : Text) : Text :=
  39 :: s.flatMap (fun c => if c = 39 then ascii "'\\''" else [c]) ++ [39]

/-- `route_impl`; a target that is not empty is the name of a distribution or `user@host`. -/
structure RouteImpl where
  target : Option Text
  isWsl : Bool
  plain : ∀ t ∈ target, t ≠ [] → Word t
  /-- `executor_new_remote` takes no empty host. -/
  host : isWsl = false → ∃ t ∈ target, t ≠ []

def lineFor (r : RouteImpl) (q : Text) : Text :=
  if r.isWsl then
    match r.target with
    | some target =>
      if target ≠ [] then ascii "wsl.exe -d " ++ target ++ ascii " -e bash -c " ++ q
      else ascii "wsl.exe -e bash -c " ++ q
    | none => ascii "wsl.exe -e bash -c " ++ q
  else ascii "ssh -o ConnectTimeout=5 " ++ r.target.getD [] ++ ascii " bash -c " ++ q

/-- `wrapped`, of 4096 bytes. -/
def wrapped (r : RouteImpl) (cmd : Text) : Text :=
  snprintf 4096 (lineFor r (shQuote cmd))

inductive Forward where
  /-- The tool and its arguments as they are. -/
  | same
  | shell (cmd : Text) (timeoutMs : Option Rat)
  deriving DecidableEq

def routeExecute (r : RouteImpl) (tool : Text) (argsJson : Option Text) : Forward :=
  if tool ≠ ascii "shell" then .same
  else
    let root := argsJson.bind Cjson.parse
    match root.bind (·.get? (ascii "cmd")) with
    | some (.string cmd) =>
      .shell (wrapped r cmd) <|
        match root.bind (·.get? (ascii "timeout_ms")) with
        | some (.number value) => some value
        | _ => none
    | _ => .same

/-! ### What the shells make of it -/

def front (r : RouteImpl) : List Text :=
  if r.isWsl then
    match r.target with
    | some target =>
      if target ≠ [] then [ascii "wsl.exe", ascii "-d", target, ascii "-e", ascii "bash", ascii "-c"]
      else [ascii "wsl.exe", ascii "-e", ascii "bash", ascii "-c"]
    | none => [ascii "wsl.exe", ascii "-e", ascii "bash", ascii "-c"]
  else [ascii "ssh", ascii "-o", ascii "ConnectTimeout=5", r.target.getD [], ascii "bash", ascii "-c"]

/-- What `ssh` sends to the remote shell: the words after the host, with blanks between them. -/
def remoteLine (argument : Text) : Text :=
  ascii "bash" ++ [32] ++ ascii "-c" ++ [32] ++ argument

/-- The command arrives unchanged: `bash` is started with it as the argument of `-c`, in WSL by the local
shell and on a remote host by the remote one. -/
def Passed (r : RouteImpl) (cmd : Text) : Prop :=
  if r.isWsl then words (wrapped r cmd) = some (front r ++ [cmd])
  else ∃ argument, words (wrapped r cmd) = some (front r ++ [argument]) ∧
    words (remoteLine argument) = some [ascii "bash", ascii "-c", cmd]

def Fits (r : RouteImpl) (cmd : Text) : Prop :=
  (lineFor r (shQuote cmd)).length < 4096 ∨
    cmd.getLast? = some 39 ∧ (lineFor r (shQuote cmd)).length = 4097

/-! ### The line -/

theorem shQuote_eq (s : Text) : shQuote s = 39 :: quoted s := by
  have escaped : ascii "'\\''" = [39, 92, 39, 39] := by simp [ascii]
  rw [shQuote, escaped]
  rfl

theorem front_words (r : RouteImpl) : ∀ w ∈ front r, Word w := by
  obtain ⟨wsl, d, e, bash, c, ssh, o, timeout⟩ : Word (ascii "wsl.exe") ∧ Word (ascii "-d") ∧ Word (ascii "-e") ∧
      Word (ascii "bash") ∧ Word (ascii "-c") ∧ Word (ascii "ssh") ∧ Word (ascii "-o") ∧
        Word (ascii "ConnectTimeout=5") := by
    decide
  have last : ∀ w ∈ ([] : List Text), Word w := fun w member => (List.not_mem_nil member).elim
  unfold front
  split
  · split
    · rename_i target known
      split
      · rename_i some_text
        have own := r.plain target known some_text
        simp only [List.forall_mem_cons]
        exact ⟨wsl, d, own, e, bash, c, last⟩
      · simp only [List.forall_mem_cons]
        exact ⟨wsl, e, bash, c, last⟩
    · simp only [List.forall_mem_cons]
      exact ⟨wsl, e, bash, c, last⟩
  · rename_i remote
    obtain ⟨target, known, some_text⟩ := r.host (by simpa using remote)
    have own : Word (r.target.getD []) := by
      rw [Option.mem_def.mp known]
      exact r.plain target known some_text
    simp only [List.forall_mem_cons]
    exact ⟨ssh, o, timeout, own, bash, c, last⟩

theorem lineFor_eq (r : RouteImpl) (q : Text) : lineFor r q = (front r).flatMap (· ++ [32]) ++ q := by
  unfold lineFor front
  split
  · split
    · split
      · simp [ascii]
      · simp [ascii]
    · simp [ascii]
  · simp [ascii]

theorem routeExecute_shell (r : RouteImpl) {args cmd : Text} {root : Json} (parsed : Cjson.parse args = some root)
    (command : root.get? (ascii "cmd") = some (.string cmd)) :
    ∃ timeoutMs, routeExecute r (ascii "shell") (some args) = .shell (wrapped r cmd) timeoutMs := by
  unfold routeExecute
  simp only [ne_eq, not_true_eq_false, if_false, Option.bind_some, parsed, command]
  exact ⟨_, rfl⟩

theorem countP_front {front : List Text} (plain : ∀ w ∈ front, Word w) :
    (front.flatMap (· ++ [32])).countP isBlank = front.length := by
  induction front with
  | nil => rfl
  | cons w front ih =>
    have own : w.countP isBlank = 0 := by
      refine List.countP_eq_zero.mpr fun c member => ?_
      rw [(not_special ((plain w List.mem_cons_self).plain c member)).1]
      decide
    have blank : [(32 : UInt8)].countP isBlank = 1 := by decide
    rw [List.flatMap_cons, List.countP_append, List.countP_append, own, blank,
      ih fun w member => plain w (List.mem_cons_of_mem _ member), List.length_cons]
    omega

theorem words_front_cut {front : List Text} (plain : ∀ w ∈ front, Word w) {cut : Text}
    (part : cut <+: front.flatMap (· ++ [32])) (argument : Text) : words cut ≠ some (front ++ [argument]) := by
  intro found
  rcases front.eq_nil_or_concat with rfl | ⟨front, w, rfl⟩
  · obtain rfl := List.prefix_nil.mp part
    cases found
  · rw [List.concat_eq_append] at *
    have count := countP_front plain
    rw [List.flatMap_append, List.flatMap_singleton, ← List.append_assoc] at part count
    rcases List.prefix_concat_iff.mp part with whole | short
    · have read := scan_front plain []
      rw [List.append_nil, List.flatMap_append, List.flatMap_singleton, ← List.append_assoc, ← whole] at read
      rw [words, read] at found
      have lengths := congrArg List.length (Option.some.inj found)
      simp at lengths
    · have most := scan_count found
      have fewer := short.sublist.countP_le (p := isBlank)
      have blank : [(32 : UInt8)].countP isBlank = 1 := by decide
      rw [List.countP_append, blank, List.length_append, List.length_singleton] at count
      rw [List.length_append, List.length_append, List.length_singleton, List.length_singleton] at most
      omega

theorem quoted_last {s : Text} (last : s.getLast? = some 39) : ∃ t, quoted s = t ++ [39, 39] := by
  obtain ⟨start, rfl⟩ := List.getLast?_eq_some_iff.mp last
  exact ⟨start.flatMap quoteByte ++ [39, 92, 39], by simp [quoted, quoteByte]⟩

def opening (r : RouteImpl) : Text :=
  (front r).flatMap (· ++ [32])

theorem wrapped_eq (r : RouteImpl) (cmd : Text) :
    wrapped r cmd = (opening r ++ 39 :: quoted cmd).take 4095 := by
  rw [wrapped, snprintf, lineFor_eq, shQuote_eq, opening]

theorem length_line (r : RouteImpl) (cmd : Text) : (lineFor r (shQuote cmd)).length =
    (opening r).length + ((quoted cmd).length + 1) := by
  rw [lineFor_eq, shQuote_eq, List.length_append, List.length_cons, opening]

theorem words_wrapped (r : RouteImpl) (cmd : Text) :
    (∀ argument, words (wrapped r cmd) = some (front r ++ [argument]) → argument <+: cmd) ∧
      (words (wrapped r cmd) = some (front r ++ [cmd]) ↔ Fits r cmd) := by
  have length := length_line r cmd
  have some_quoted : 0 < (quoted cmd).length := List.length_pos_iff.mpr (quoted_ne_nil cmd)
  rw [wrapped_eq]
  by_cases room : (opening r).length < 4095
  · -- the cut is within the quoted command
    have cut : (opening r ++ 39 :: quoted cmd).take 4095 =
        opening r ++
          39 :: (quoted cmd).take (4094 - (opening r).length) := by
      rw [List.take_append, List.take_of_length_le (Nat.le_of_lt room)]
      have rest : 4095 - (opening r).length = 4094 - (opening r).length + 1 := by omega
      rw [rest, List.take_succ_cons]
    obtain ⟨parts, whole⟩ := scan_quoted_cut (w := [])
      (List.take_prefix (4094 - (opening r).length) (quoted cmd))
    have single (argument : Text) : words ((opening r ++ 39 :: quoted cmd).take 4095) =
        some (front r ++ [argument]) ↔
          scan .single [] ((quoted cmd).take (4094 - (opening r).length)) = some [argument] := by
      have opens (s : Text) : scan .blank [] (39 :: s) = scan .single [] s := rfl
      rw [cut, opening, words, scan_front (front_words r), opens, Option.map_eq_some_iff]
      constructor
      · rintro ⟨ws, found, same⟩
        rw [found, List.append_cancel_left same]
      · intro found
        exact ⟨_, found, rfl⟩
    rw [List.nil_append] at whole
    constructor
    · intro argument found
      obtain ⟨d, start, same⟩ := parts _ ((single argument).mp found)
      rw [List.nil_append] at same
      rw [(List.cons.inj same).1]
      exact start
    · rw [single, whole, Fits, length]
      refine or_congr ?_ (and_congr_right fun last => ?_)
      · constructor
        · intro whole
          have sizes := congrArg List.length whole
          rw [List.length_take] at sizes
          omega
        · intro fit
          exact List.take_of_length_le (by omega)
      · obtain ⟨t, ends⟩ := quoted_last last
        have lengths := congrArg List.length ends
        simp only [List.length_append, List.length_cons, List.length_nil] at lengths
        constructor
        · intro same
          have sizes := congrArg List.length same
          simp only [List.length_append, List.length_take, List.length_cons, List.length_nil] at sizes
          omega
        · intro exact'
          have size : 4094 - (opening r).length = t.length := by omega
          rw [size, ends, List.take_left]
  · -- nothing of the command is left
    have part : (opening r ++ 39 :: quoted cmd).take 4095 <+: opening r := by
      rw [List.take_append_of_le_length (Nat.not_lt.mp room)]
      exact List.take_prefix _ _
    have never := words_front_cut (front_words r) part
    refine ⟨fun argument found => (never argument found).elim, iff_of_false (never cmd) ?_⟩
    rintro (fits | ⟨last, exact'⟩)
    · omega
    · obtain ⟨t, ends⟩ := quoted_last last
      have lengths := congrArg List.length ends
      simp only [List.length_append, List.length_cons, List.length_nil] at lengths
      omega

theorem words_remoteLine (argument : Text) : words (remoteLine argument) =
    (words argument).map ([ascii "bash", ascii "-c"] ++ ·) := by
  have plain : ∀ w ∈ [ascii "bash", ascii "-c"], Word w := by decide
  have shape : remoteLine argument = [ascii "bash", ascii "-c"].flatMap (· ++ [32]) ++ argument := by
    simp [remoteLine]
  rw [shape, words, scan_front plain]
  rfl

/-- A command arrives unchanged exactly when its line fits, and on a remote host only when it is one word
that the remote shell leaves as it is. -/
theorem passed_iff (r : RouteImpl) (cmd : Text) : Passed r cmd ↔ Fits r cmd ∧ (r.isWsl = false → Word cmd) := by
  obtain ⟨parts, fits⟩ := words_wrapped r cmd
  unfold Passed
  split
  · rename_i wsl
    rw [fits]
    simp [wsl]
  · rename_i remote
    have other : r.isWsl = false := by simpa using remote
    constructor
    · rintro ⟨argument, found, again⟩
      have start := parts argument found
      rw [words_remoteLine] at again
      obtain ⟨ws, read, same⟩ := Option.map_eq_some_iff.mp again
      obtain rfl : ws = [cmd] := List.append_cancel_left same
      -- no part of the command is split into all of it
      have long : cmd.length ≤ argument.length := by
        have := scan_length read
        simpa [owed] using this
      obtain rfl := start.eq_of_length_le long
      exact ⟨fits.mp found, fun _ => words_self.mp read⟩
    · rintro ⟨fit, word⟩
      refine ⟨cmd, fits.mpr fit, ?_⟩
      rw [words_remoteLine, words_self.mpr (word other)]
      rfl

def userAtHost : RouteImpl where
  target := some (ascii "user@host")
  isWsl := false
  plain := by
    rintro t ⟨⟩ -
    decide
  host _ := ⟨_, rfl, by decide⟩

/-- A command of two words for a remote host: `bash` is given the first of them. -/
theorem remote_split : wrapped userAtHost (ascii "ls -l") = ascii "ssh -o ConnectTimeout=5 user@host bash -c 'ls -l'" ∧
    words (remoteLine (ascii "ls -l")) = some [ascii "bash", ascii "-c", ascii "ls", ascii "-l"] ∧
      ¬ Passed userAtHost (ascii "ls -l") := by
  have line : wrapped userAtHost (ascii "ls -l") = ascii "ssh -o ConnectTimeout=5 user@host bash -c 'ls -l'" := by
    decide
  have remote : words (remoteLine (ascii "ls -l")) = some [ascii "bash", ascii "-c", ascii "ls", ascii "-l"] := by
    decide
  refine ⟨line, remote, ?_⟩
  rintro ⟨argument, found, again⟩
  have read : words (ascii "ssh -o ConnectTimeout=5 user@host bash -c 'ls -l'") = some [ascii "ssh", ascii "-o",
      ascii "ConnectTimeout=5", ascii "user@host", ascii "bash", ascii "-c", ascii "ls -l"] := by
    decide
  rw [line, read] at found
  obtain rfl : ascii "ls -l" = argument := by simpa [front, userAtHost] using found
  rw [remote] at again
  revert again
  decide

end CognitiveOs.Execution.Route
