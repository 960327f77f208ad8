import CognitiveOs.Action.Ssh.Exec
import CognitiveOs.Infra.Expansion

/-!
# The command line of a login

`ssh_append_native_options` and its callers in `action/tool_shell.c`: the line for the local shell,
and the arguments `ssh` is to get. Profile values, the helper and the command are quoted; the
options and `user@host` stand as they are.
-/

namespace CognitiveOs.Action.Ssh

open Infra Shell

/-! ### The line -/

def sshQuoteArg (s : Text) : Option Text :=
  if oneLine s then some (39 :: s.flatMap (fun c => if c = 39 then ascii "'\\''" else [c]) ++ [39]) else none

def quotedOption (name : String) (value : Option Text) : Option Text :=
  match value with
  | none => some []
  | some value => (sshQuoteArg value).map fun quoted => ascii name ++ quoted

/-- `user@host`. -/
def Endpoint.target (e : Endpoint) : Text :=
  match e.user with
  | some user => user ++ 64 :: e.host
  | none => e.host

def sshAppendNativeOptions (e : Endpoint) (extras : Extras) (quotedCommand : Text) (batchMode : Bool) : Option Text :=
  (quotedOption " -i " extras.identityFile).bind fun identity =>
    (quotedOption " -o UserKnownHostsFile=" extras.knownHosts).bind fun hosts =>
      (quotedOption " -J " extras.proxyJump).map fun jump =>
        ascii "ssh -o BatchMode=" ++ ascii (if batchMode then "yes" else "no") ++
          ascii " -o ConnectTimeout=5 -o NumberOfPasswordPrompts=1 -o StrictHostKeyChecking=accept-new -p " ++
          printInteger e.port ++
          (if batchMode then []
            else ascii " -o PreferredAuthentications=keyboard-interactive,password -o PubkeyAuthentication=no") ++
          identity ++ hosts ++ jump ++ ascii " -- " ++ e.target ++ ascii " " ++ quotedCommand

/-- `ssh_append_askpass`, once the helper is written. -/
def sshAppendAskpass (helper : Text) (e : Endpoint) (extras : Extras) (quotedCommand : Text) : Option Text :=
  (sshQuoteArg helper).bind fun quoted =>
    (sshAppendNativeOptions e extras quotedCommand false).map fun options =>
      ascii "SSH_ASKPASS=" ++ quoted ++ ascii " SSH_ASKPASS_REQUIRE=force DISPLAY=1 " ++ options

/-- The line of a login that `ssh_exec` attempts; with a password, `helper` prints it. -/
def sshLine (helper : Text) (l : Login) (command : Text) : Option Text :=
  (sshQuoteArg command).bind fun quoted =>
    if l.password.isSome then sshAppendAskpass helper l.endpoint l.extras quoted
    else sshAppendNativeOptions l.endpoint l.extras quoted true

/-! ### The arguments that are meant -/

def options (l : Login) : List Text :=
  [ascii "-o", ascii (if l.password.isSome then "BatchMode=no" else "BatchMode=yes"), ascii "-o",
      ascii "ConnectTimeout=5", ascii "-o", ascii "NumberOfPasswordPrompts=1", ascii "-o",
      ascii "StrictHostKeyChecking=accept-new", ascii "-p", decimal l.endpoint.port.toNat] ++
    (if l.password.isSome then
      [ascii "-o", ascii "PreferredAuthentications=keyboard-interactive,password", ascii "-o",
        ascii "PubkeyAuthentication=no"]
    else []) ++
    (l.extras.identityFile.elim [] fun file => [ascii "-i", file]) ++
    (l.extras.knownHosts.elim [] fun file => [ascii "-o", ascii "UserKnownHostsFile=" ++ file]) ++
    (l.extras.proxyJump.elim [] fun host => [ascii "-J", host])

/-- `ssh` with its options, the end of the options, the target and the command. -/
def intended (l : Login) (command : Text) : List Text :=
  ascii "ssh" :: options l ++ [ascii "--", l.endpoint.target, command]

/-! ### The words of the line -/

variable {s : Text} {l : Login}

def plainPiece (s : Text) : Piece where
  front := s
  quote := none

def quotedPiece (front : String) (s : Text) : Piece where
  front := ascii front
  quote := some s

def assignments (helper : Text) (l : Login) : List Piece :=
  if l.password.isSome then
    [quotedPiece "SSH_ASKPASS=" helper, plainPiece (ascii "SSH_ASKPASS_REQUIRE=force"), plainPiece (ascii "DISPLAY=1")]
  else []

def optionPieces (l : Login) : List Piece :=
  [plainPiece (ascii "-o"), plainPiece (ascii (if l.password.isSome then "BatchMode=no" else "BatchMode=yes")),
      plainPiece (ascii "-o"), plainPiece (ascii "ConnectTimeout=5"), plainPiece (ascii "-o"),
      plainPiece (ascii "NumberOfPasswordPrompts=1"), plainPiece (ascii "-o"),
      plainPiece (ascii "StrictHostKeyChecking=accept-new"), plainPiece (ascii "-p"),
      plainPiece (decimal l.endpoint.port.toNat)] ++
    (if l.password.isSome then
      [plainPiece (ascii "-o"), plainPiece (ascii "PreferredAuthentications=keyboard-interactive,password"),
        plainPiece (ascii "-o"), plainPiece (ascii "PubkeyAuthentication=no")]
    else []) ++
    (l.extras.identityFile.elim [] fun file => [plainPiece (ascii "-i"), quotedPiece "" file]) ++
    (l.extras.knownHosts.elim [] fun file => [plainPiece (ascii "-o"), quotedPiece "UserKnownHostsFile=" file]) ++
    (l.extras.proxyJump.elim [] fun host => [plainPiece (ascii "-J"), quotedPiece "" host])

def commandPieces (l : Login) (command : Text) : List Piece :=
  plainPiece (ascii "ssh") :: optionPieces l ++
    [plainPiece (ascii "--"), plainPiece l.endpoint.target, quotedPiece "" command]

theorem sshQuoteArg_eq {quoted' : Text} (quote : sshQuoteArg s = some quoted') : quoted' = 39 :: quoted s := by
  unfold sshQuoteArg at quote
  split at quote
  · have escaped : ascii "'\\''" = [39, 92, 39, 39] := by simp [ascii]
    rw [escaped] at quote
    exact (Option.some.inj quote).symm
  · cases quote

theorem quotedOption_eq {name : String} {value : Option Text} {text : Text}
    (option : quotedOption name value = some text) :
    text = value.elim [] fun value => ascii name ++ 39 :: quoted value := by
  cases value with
  | none => exact (Option.some.inj option).symm
  | some value =>
    obtain ⟨quoted', quote, rfl⟩ := Option.map_eq_some_iff.mp option
    rw [sshQuoteArg_eq quote]
    rfl

theorem printInteger_port {k : Int} (positive : 1 ≤ k) : printInteger k = decimal k.toNat := by
  have sign : ¬(k : Rat) < 0 := by
    have whole : ¬k < 0 := by omega
    exact_mod_cast whole
  rw [printInteger, if_neg sign, Rat.num_intCast]
  congr 1
  omega

theorem options_words (batchMode : Bool) :
    ascii "ssh -o BatchMode=" ++ ascii (if batchMode then "yes" else "no") ++
        ascii " -o ConnectTimeout=5 -o NumberOfPasswordPrompts=1 -o StrictHostKeyChecking=accept-new -p " =
      ascii "ssh" ++ ([ascii "-o", ascii (if batchMode then "BatchMode=yes" else "BatchMode=no"), ascii "-o",
        ascii "ConnectTimeout=5", ascii "-o", ascii "NumberOfPasswordPrompts=1", ascii "-o",
        ascii "StrictHostKeyChecking=accept-new", ascii "-p"].flatMap fun w => 32 :: w) ++ [32] := by
  cases batchMode <;> decide +kernel

theorem options_password :
    ascii " -o PreferredAuthentications=keyboard-interactive,password -o PubkeyAuthentication=no" =
      [ascii "-o", ascii "PreferredAuthentications=keyboard-interactive,password", ascii "-o",
        ascii "PubkeyAuthentication=no"].flatMap fun w => 32 :: w := by
  decide +kernel

theorem sshAppendNativeOptions_eq {l : Login} {command text : Text} (positive : 1 ≤ l.endpoint.port)
    (built : sshAppendNativeOptions l.endpoint l.extras (39 :: quoted command) (!l.password.isSome) = some text) :
    text = lineOf (commandPieces l command) := by
  obtain ⟨identity, isIdentity, rest⟩ := Option.bind_eq_some_iff.mp built
  obtain ⟨hosts, isHosts, rest⟩ := Option.bind_eq_some_iff.mp rest
  obtain ⟨jump, isJump, rfl⟩ := Option.map_eq_some_iff.mp rest
  rw [quotedOption_eq isIdentity, quotedOption_eq isHosts, quotedOption_eq isJump, printInteger_port positive,
    commandPieces, List.cons_append, lineOf_cons, optionPieces]
  have file : ((l.extras.identityFile.elim [] fun file => [plainPiece (ascii "-i"), quotedPiece "" file]).flatMap
      fun q => 32 :: q.text) = l.extras.identityFile.elim [] fun value => ascii " -i " ++ 39 :: quoted value := by
    cases l.extras.identityFile <;> simp [plainPiece, quotedPiece, Piece.text, ascii]
  have known : ((l.extras.knownHosts.elim [] fun file =>
      [plainPiece (ascii "-o"), quotedPiece "UserKnownHostsFile=" file]).flatMap fun q => 32 :: q.text) =
        l.extras.knownHosts.elim [] fun value => ascii " -o UserKnownHostsFile=" ++ 39 :: quoted value := by
    cases l.extras.knownHosts <;> simp [plainPiece, quotedPiece, Piece.text, ascii]
  have proxy : ((l.extras.proxyJump.elim [] fun host => [plainPiece (ascii "-J"), quotedPiece "" host]).flatMap
      fun q => 32 :: q.text) = l.extras.proxyJump.elim [] fun value => ascii " -J " ++ 39 :: quoted value := by
    cases l.extras.proxyJump <;> simp [plainPiece, quotedPiece, Piece.text, ascii]
  have ends : ascii " -- " = 32 :: (ascii "--" ++ [32]) := by decide
  have blank : ascii " " = [32] := by decide
  have nothing : ascii "" = [] := rfl
  simp only [List.flatMap_append, file, known, proxy]
  cases l.password.isSome with
  | true =>
    rw [Bool.not_true, options_words, options_password, ends, blank]
    simp only [plainPiece, quotedPiece, Piece.text, List.flatMap_cons, List.flatMap_nil, List.append_assoc,
      List.cons_append, List.nil_append, List.append_nil, Option.elim_none, Option.elim_some, nothing,
      Bool.false_eq_true, if_false, if_true]
  | false =>
    rw [Bool.not_false, options_words, ends, blank]
    simp only [plainPiece, quotedPiece, Piece.text, List.flatMap_cons, List.flatMap_nil, List.append_assoc,
      List.cons_append, List.nil_append, List.append_nil, Option.elim_none, Option.elim_some, nothing,
      Bool.false_eq_true, if_false, if_true]

theorem sshLine_eq {helper command line : Text} (positive : 1 ≤ l.endpoint.port)
    (built : sshLine helper l command = some line) :
    line = lineOf (assignments helper l ++ commandPieces l command) := by
  obtain ⟨quoted', quote, rest⟩ := Option.bind_eq_some_iff.mp built
  rw [sshQuoteArg_eq quote] at rest
  have native := @sshAppendNativeOptions_eq l command
  cases given : l.password.isSome with
  | true =>
    rw [given] at native rest
    rw [if_pos rfl] at rest
    obtain ⟨quotedHelper, quoteHelper, rest⟩ := Option.bind_eq_some_iff.mp rest
    obtain ⟨text, options, rfl⟩ := Option.map_eq_some_iff.mp rest
    rw [sshQuoteArg_eq quoteHelper, native positive options, assignments, given, if_pos rfl, commandPieces]
    simp only [List.cons_append, List.nil_append, lineOf_cons, List.flatMap_cons]
    simp [plainPiece, quotedPiece, Piece.text, ascii]
  | false =>
    rw [given] at native rest
    rw [if_neg (by decide)] at rest
    rw [native positive rest, assignments, given, if_neg (by decide), List.nil_append]

/-! ### The arguments of the line -/

variable {c : UInt8}

def targetByte (c : UInt8) : Bool :=
  isAlnum c || c ∈ ascii ".-_@:[]"

theorem targetByte_not (valid : targetByte c = true) :
    c ∉ ([0, 9, 10, 32, 33, 34, 35, 36, 38, 39, 40, 41, 42, 47, 59, 60, 62, 63, 92, 96, 124, 126] : Text) := by
  intro member
  simp only [List.mem_cons, List.not_mem_nil, or_false] at member
  rcases member with rfl | rfl | rfl | rfl | rfl | rfl | rfl | rfl | rfl | rfl | rfl | rfl | rfl | rfl | rfl | rfl |
    rfl | rfl | rfl | rfl | rfl | rfl
  all_goals
    revert valid
    decide

theorem targetByte_letter (valid : targetByte c = true) : isLetter c = true ∧ (isStart c = true ∨ c = 91) := by
  have others := targetByte_not valid
  simp only [List.mem_cons, List.not_mem_nil, or_false, not_or] at others
  by_cases opens : c = 91
  · subst opens
    exact ⟨by decide, .inr rfl⟩
  · have plain : isPlain c = true := by simp [isPlain, isBlank, others, opens]
    exact ⟨by rw [isLetter, plain, Bool.true_or], .inl (by simp [isStart, plain, others])⟩

structure Checked (l : Login) : Prop where
  target : ∀ c ∈ l.endpoint.target, targetByte c = true
  given : l.endpoint.target ≠ []
  port : 1 ≤ l.endpoint.port

theorem login_checked {s : State} {session : Text} {args : SshArgs} (accepted : login s session args = some l) :
    Checked l := by
  unfold login at accepted
  dsimp only at accepted
  split at accepted
  · cases accepted
  obtain ⟨host, isHost, rest⟩ := Option.bind_eq_some_iff.mp accepted
  split at rest
  · rename_i valid
    obtain rfl := Option.some.inj rest
    obtain ⟨anyHost, allUser, -, -, port, -⟩ := decide_eq_true_eq.mp valid
    rw [isHost] at anyHost
    obtain ⟨some_byte, bytes⟩ := decide_eq_true_eq.mp anyHost
    have hostBytes : ∀ c ∈ host, targetByte c = true := by
      intro c member
      have := List.all_eq_true.mp bytes c member
      rw [decide_eq_true_eq] at this
      rw [targetByte, Bool.or_eq_true, decide_eq_true_eq]
      exact this
    refine ⟨?_, ?_, port⟩
    · simp only [Endpoint.target]
      split
      · rename_i user isUser
        rw [isUser] at allUser
        obtain ⟨-, -, bytes⟩ := decide_eq_true_eq.mp allUser
        intro c member
        rcases List.mem_append.mp member with inUser | behind
        · have := List.all_eq_true.mp bytes c inUser
          rw [decide_eq_true_eq] at this
          rw [targetByte, Bool.or_eq_true, decide_eq_true_eq]
          rcases this with alnum | mark
          · exact .inl alnum
          · refine .inr ?_
            simp only [List.mem_cons, List.not_mem_nil, or_false] at mark
            rcases mark with rfl | rfl | rfl <;> decide
        · rcases List.mem_cons.mp behind with rfl | inHost
          · decide
          · exact hostBytes c inHost
      · exact hostBytes
    · simp only [Endpoint.target]
      split
      · simp
      · exact some_byte
  · cases rest

theorem proper_plain (some_byte : s ≠ []) (letters : ∀ c ∈ s, isLetter c = true)
    (start : ∀ c ∈ s.head?, isStart c = true ∨ c = 91) : (plainPiece s).Proper where
  letters := letters
  start := start
  something empty := absurd empty some_byte

theorem isDigit_letter (digit : isDigit c = true) : isLetter c = true ∧ isStart c = true := by
  have valid : targetByte c = true := by simp [targetByte, isAlnum, digit]
  obtain ⟨letter, start | rfl⟩ := targetByte_letter valid
  · exact ⟨letter, start⟩
  · revert digit
    decide

theorem proper_decimal (n : Nat) : (plainPiece (decimal n)).Proper :=
  proper_plain (decimal_ne_nil n) (fun _ member => (isDigit_letter (isDigit_decimal member)).1)
    fun _ member => .inl (isDigit_letter (isDigit_decimal (List.mem_of_mem_head? member))).2

structure Quiet (p : Piece) : Prop where
  proper : p.Proper
  still : (91, false) ∉ p.field

theorem quiet_plain (proper : (plainPiece s).Proper) (still : 91 ∉ s) : Quiet (plainPiece s) where
  proper := proper
  still := by simpa [Piece.field, plainPiece, bare, literal] using still

theorem quiet_constant (constant : (s ≠ [] && s.all (fun c => isPlain c) && s.head?.all isStart) = true) :
    Quiet (plainPiece s) := by
  rw [Bool.and_eq_true, Bool.and_eq_true, decide_eq_true_eq, List.all_eq_true] at constant
  obtain ⟨⟨some_byte, plain⟩, start⟩ := constant
  refine quiet_plain (proper_plain some_byte (fun c member => by rw [isLetter, plain c member, Bool.true_or])
    fun c first => ?_) fun opens => ?_
  · rw [Option.mem_def.mp first] at start
    exact .inl start
  · have := plain 91 opens
    revert this
    decide

theorem quiet_quoted {front : String} (constant : ((ascii front).all isPlain && (ascii front).head?.all isStart) = true)
    (s : Text) : Quiet (quotedPiece front s) := by
  rw [Bool.and_eq_true, List.all_eq_true] at constant
  obtain ⟨plain, start⟩ := constant
  have letters : ∀ c ∈ ascii front, isLetter c = true := fun c member => by rw [isLetter, plain c member, Bool.true_or]
  have begins : ∀ c ∈ (ascii front).head?, isStart c = true ∨ c = 91 := by
    intro c first
    rw [Option.mem_def.mp first] at start
    exact .inl start
  have still : 91 ∉ ascii front := by
    intro opens
    have := plain 91 opens
    revert this
    decide
  exact ⟨⟨letters, begins, fun _ => rfl⟩, by simpa [Piece.field, quotedPiece, bare, literal] using still⟩

theorem assignments_quiet (helper : Text) (l : Login) : ∀ p ∈ assignments helper l, Quiet p := by
  unfold assignments
  split
  · simp only [List.forall_mem_cons]
    exact ⟨quiet_quoted (by decide) helper, quiet_constant (by decide),
      quiet_constant (by decide), nofun⟩
  · nofun

theorem optionPieces_quiet (l : Login) : ∀ p ∈ optionPieces l, Quiet p := by
  have port : Quiet (plainPiece (decimal l.endpoint.port.toNat)) :=
    quiet_plain (proper_decimal _) (not_mem_decimal (by decide))
  have o : Quiet (plainPiece (ascii "-o")) := quiet_constant (by decide)
  have batch : Quiet (plainPiece (ascii (if l.password.isSome then "BatchMode=no" else "BatchMode=yes"))) := by
    cases l.password.isSome <;> exact quiet_constant (by decide)
  have value (s : Text) : Quiet (quotedPiece "" s) := quiet_quoted (by decide) s
  intro p member
  simp only [optionPieces, List.mem_append] at member
  rcases member with (((first | password) | file) | known) | proxy
  · revert p
    simp only [List.forall_mem_cons]
    exact ⟨o, batch, o, quiet_constant (by decide), o, quiet_constant (by decide), o, quiet_constant (by decide),
      quiet_constant (by decide), port, nofun⟩
  · split at password
    · revert p
      simp only [List.forall_mem_cons]
      exact ⟨o, quiet_constant (by decide), o, quiet_constant (by decide), nofun⟩
    · cases password
  · cases given : l.extras.identityFile with
    | none =>
      rw [given] at file
      cases file
    | some s =>
      rw [given, Option.elim_some] at file
      revert p
      simp only [List.forall_mem_cons]
      exact ⟨quiet_constant (by decide), value s, nofun⟩
  · cases given : l.extras.knownHosts with
    | none =>
      rw [given] at known
      cases known
    | some s =>
      rw [given, Option.elim_some] at known
      revert p
      simp only [List.forall_mem_cons]
      exact ⟨o, quiet_quoted (by decide) s, nofun⟩
  · cases given : l.extras.proxyJump with
    | none =>
      rw [given] at proxy
      cases proxy
    | some s =>
      rw [given, Option.elim_some] at proxy
      revert p
      simp only [List.forall_mem_cons]
      exact ⟨quiet_constant (by decide), value s, nofun⟩

theorem optionPieces_text (l : Login) : (optionPieces l).map (fun p => p.field.text) = options l := by
  unfold optionPieces options
  have plain (s : Text) : (plainPiece s).field.text = s := by
    simp [plainPiece, Piece.field, Marked.text, bare, literal, Function.comp_def]
  have value (front : String) (s : Text) : (quotedPiece front s).field.text = ascii front ++ s := by
    simp [quotedPiece, Piece.field, Marked.text, bare, literal, Function.comp_def]
  have nothing : ascii "" = [] := rfl
  simp only [List.map_append, List.map_cons, List.map_nil, plain]
  congr 1
  · congr 1
    · congr 1
      · congr 1
        split <;> simp only [List.map_cons, List.map_nil, plain]
      · cases l.extras.identityFile <;>
          simp only [Option.elim_none, Option.elim_some, List.map_cons, List.map_nil, plain, value, nothing,
            List.nil_append]
    · cases l.extras.knownHosts <;>
        simp only [Option.elim_none, Option.elim_some, List.map_cons, List.map_nil, plain, value]
  · cases l.extras.proxyJump <;>
      simp only [Option.elim_none, Option.elim_some, List.map_cons, List.map_nil, plain, value, nothing,
        List.nil_append]

theorem target_proper (checked : Checked l) : (plainPiece l.endpoint.target).Proper :=
  proper_plain checked.given (fun c member => (targetByte_letter (checked.target c member)).1)
    fun c first => (targetByte_letter (checked.target c (List.mem_of_mem_head? first))).2

theorem commandPieces_proper (checked : Checked l) (command : Text) : ∀ p ∈ commandPieces l command, p.Proper := by
  intro p member
  simp only [commandPieces, List.cons_append, List.mem_cons, List.mem_append, List.not_mem_nil, or_false] at member
  rcases member with rfl | option | rfl | rfl | rfl
  · exact (quiet_constant (by decide)).proper
  · exact (optionPieces_quiet l p option).proper
  · exact (quiet_constant (by decide)).proper
  · exact target_proper checked
  · exact (quiet_quoted (by decide) command).proper

theorem dropWhile_assignments (helper command : Text) (l : Login) :
    ((assignments helper l ++ commandPieces l command).map Piece.field).dropWhile isAssignment =
      (commandPieces l command).map Piece.field := by
  have name : isAssignment (plainPiece (ascii "ssh")).field = false := by decide
  have command' : ((commandPieces l command).map Piece.field).dropWhile isAssignment =
      (commandPieces l command).map Piece.field := by
    rw [commandPieces, List.cons_append, List.map_cons, List.dropWhile_cons_of_neg (by rw [name]; decide)]
  unfold assignments
  split
  · have helper' : isAssignment (quotedPiece "SSH_ASKPASS=" helper).field = true := rfl
    have force : isAssignment (plainPiece (ascii "SSH_ASKPASS_REQUIRE=force")).field = true := by decide
    have display : isAssignment (plainPiece (ascii "DISPLAY=1")).field = true := by decide
    rw [List.map_append, List.map_cons, List.map_cons, List.map_cons, List.cons_append, List.cons_append,
      List.cons_append, List.dropWhile_cons_of_pos helper', List.dropWhile_cons_of_pos force,
      List.dropWhile_cons_of_pos display]
    exact command'
  · exact command'

theorem arguments_sshLine {helper command line : Text} (checked : Checked l)
    (built : sshLine helper l command = some line) (rules : PatternRules) (directory : Directory) :
    arguments rules directory line =
      (expand rules directory (bare l.endpoint.target)).map fun target =>
        ascii "ssh" :: options l ++ ascii "--" :: (target ++ [command]) := by
  have proper : ∀ p ∈ assignments helper l ++ commandPieces l command, p.Proper := by
    intro p member
    rcases List.mem_append.mp member with assignment | word
    · exact (assignments_quiet helper l p assignment).proper
    · exact commandPieces_proper checked command p word
  rw [arguments, sshLine_eq checked.port built, fields_lineOf proper, Option.bind_some, dropWhile_assignments]
  have ssh : (91, false) ∉ (plainPiece (ascii "ssh")).field := (quiet_constant (by decide)).still
  have dashes : (91, false) ∉ (plainPiece (ascii "--")).field := (quiet_constant (by decide)).still
  have last : (91, false) ∉ (quotedPiece "" command).field :=
    (quiet_quoted (by decide) command).still
  have front : ∀ f ∈ (plainPiece (ascii "ssh") :: optionPieces l ++ [plainPiece (ascii "--")]).map Piece.field,
      (91, false) ∉ f := by
    intro f member
    obtain ⟨p, isPiece, rfl⟩ := List.mem_map.mp member
    simp only [List.cons_append, List.mem_cons, List.mem_append, List.not_mem_nil, or_false] at isPiece
    rcases isPiece with rfl | option | rfl
    · exact ssh
    · exact (optionPieces_quiet l p option).still
    · exact dashes
  have target : (plainPiece l.endpoint.target).field = bare l.endpoint.target := by
    simp [plainPiece, Piece.field, literal]
  have split : (commandPieces l command).map Piece.field =
      (plainPiece (ascii "ssh") :: optionPieces l ++ [plainPiece (ascii "--")]).map Piece.field ++
        [bare l.endpoint.target, (quotedPiece "" command).field] := by
    rw [commandPieces, ← target]
    simp
  have texts : ((plainPiece (ascii "ssh") :: optionPieces l ++ [plainPiece (ascii "--")]).map Piece.field).map
      (fun f => [f.text]) = (ascii "ssh" :: options l ++ [ascii "--"]).map fun word => [word] := by
    rw [← optionPieces_text]
    simp [Marked.text, plainPiece, Piece.field, bare, literal, Function.comp_def]
  have quotedText : (quotedPiece "" command).field.text = command := by
    simp [quotedPiece, Piece.field, Marked.text, bare, literal, Function.comp_def, ascii]
  have still : expand rules directory (quotedPiece "" command).field = some [command] := by
    rw [expand, if_neg last, quotedText]
  rw [split, List.mapM_append, mapM_expand rules directory front, texts, List.mapM_cons, List.mapM_cons, still]
  have joined (ws : List Text) : (ws.map fun w => [w]).flatten = ws := by
    rw [← List.flatMap_def, List.flatMap_singleton']
  cases expand rules directory (bare l.endpoint.target) with
  | none => rfl
  | some words => simp [joined]

/-- A login that is attempted: whatever the shell and the files in its directory, the line runs `ssh` with the
intended arguments, if and only if the target has no closing bracket at least two bytes behind an opening one. -/
theorem ssh_line_iff {s : State} {session : Text} {args : SshArgs} {l : Login} {helper command line : Text}
    (accepted : login s session args = some l) (given : args.command = some command)
    (built : args.command.bind (sshLine helper l) = some line) :
    (∀ rules directory, arguments rules directory line = some (intended l command)) ↔
      bracketed (bare l.endpoint.target) = false := by
  rw [given, Option.bind_some] at built
  have checked := login_checked accepted
  have bytes (c : UInt8) (member : c ∈ l.endpoint.target) := targetByte_not (checked.target c member)
  have text : (bare l.endpoint.target).text = l.endpoint.target := by simp [Marked.text, bare, Function.comp_def]
  have file : 47 ∉ (bare l.endpoint.target).text := by
    rw [text]
    exact fun member => bytes 47 member (by decide)
  constructor
  · intro always
    by_contra pattern
    rw [Bool.not_eq_false] at pattern
    have mark : (33, false) ∉ bare l.endpoint.target := by
      intro member
      obtain ⟨c, inTarget, same⟩ := List.mem_map.mp member
      cases same
      exact bytes 33 inTarget (by decide)
    have clean : 0 ∉ (bare l.endpoint.target).text := by
      rw [text]
      exact fun member => bytes 0 member (by decide)
    obtain ⟨directory, name, becomes, other⟩ := exists_expand mark clean file pattern
    have meant := always listing directory
    rw [arguments_sshLine checked built, becomes, Option.map_some, intended] at meant
    have same := Option.some.inj meant
    rw [List.append_cancel_left_eq] at same
    obtain ⟨-, tail⟩ := List.cons.inj same
    obtain ⟨isName, -⟩ := List.cons.inj tail
    exact other (isName.trans text.symm)
  · intro quiet rules directory
    rw [arguments_sshLine checked built, expand_self rules directory quiet fun _ => file, text]
    rfl

/-! ### A host in brackets -/

def bracketCall (host : String) : SshArgs where
  host := some (ascii host)
  environment := none
  user := some (ascii "u")
  command := some (ascii "id")
  port := none
  password := none

def bracketLogin (host : String) : Login where
  endpoint := { host := ascii host, user := some (ascii "u"), port := 22 }
  key := vaultHostKey { host := ascii host, user := some (ascii "u"), port := 22 }
  password := none
  extras := noExtras

theorem ssh_line_plain : ∃ line, sshLine [] (bracketLogin "db[1") (ascii "id") = some line ∧
    ∀ rules directory, arguments rules directory line = some (intended (bracketLogin "db[1") (ascii "id")) := by
  have accepted : login empty [] (bracketCall "db[1") = some (bracketLogin "db[1") := by decide +kernel
  obtain ⟨line, built⟩ := Option.isSome_iff_exists.mp
    (by decide +kernel : (sshLine [] (bracketLogin "db[1") (ascii "id")).isSome = true)
  have quiet : bracketed (bare (bracketLogin "db[1").endpoint.target) = false := by decide
  have given : (bracketCall "db[1").command = some (ascii "id") := rfl
  exact ⟨line, built, (ssh_line_iff accepted given (by rw [given, Option.bind_some, built])).mpr quiet⟩

def oneFile : Directory where
  names := [ascii "u@a"]
  distinct := by simp
  proper := by simp [ascii]

/-- With a file of the right name the login goes to another host. -/
theorem ssh_line_rewritten : ¬ ∀ (s : State) (session : Text) (args : SshArgs) (l : Login) (helper command line : Text),
    login s session args = some l → args.command = some command → args.command.bind (sshLine helper l) = some line →
      ∀ rules directory, arguments rules directory line = some (intended l command) := by
  intro always
  have accepted : login empty [] (bracketCall "[ab]") = some (bracketLogin "[ab]") := by decide +kernel
  obtain ⟨line, built⟩ := Option.isSome_iff_exists.mp
    (by decide +kernel : (sshLine [] (bracketLogin "[ab]") (ascii "id")).isSome = true)
  have given : (bracketCall "[ab]").command = some (ascii "id") := rfl
  have meant := always empty [] _ _ [] _ line accepted given (by rw [given, Option.bind_some, built]) listing oneFile
  rw [arguments_sshLine (login_checked accepted) built] at meant
  have becomes : expand listing oneFile (bare (bracketLogin "[ab]").endpoint.target) = some [ascii "u@a"] := by
    decide +kernel
  rw [becomes, Option.map_some, intended] at meant
  have same := Option.some.inj meant
  rw [List.append_cancel_left_eq] at same
  obtain ⟨-, tail⟩ := List.cons.inj same
  exact absurd (List.cons.inj tail).1 (by decide)

end CognitiveOs.Action.Ssh
