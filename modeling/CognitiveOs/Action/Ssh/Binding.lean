import CognitiveOs.Action.Ssh.Exec

/-!
# Passwords stay with their session and endpoint

Behind every name that belongs to a session and an endpoint, the vault has what was staged or
confirmed for just these.
-/

namespace CognitiveOs.Action.Ssh

open Foundation Infra

/-! ### Names of the vault -/

variable {e : Endpoint} {session name : Text}

def Plain (e : Endpoint) : Prop :=
  124 ∉ e.host ∧ ∀ u, e.user = some u → u ≠ [] ∧ 124 ∉ u

theorem split_bar {front front' rest rest' : Text} (bare : 124 ∉ front) (bare' : 124 ∉ front')
    (same : front ++ 124 :: rest = front' ++ 124 :: rest') : front = front' ∧ rest = rest' := by
  have stops {t r : Text} (absent : (124 : UInt8) ∉ t) : (t ++ 124 :: r).takeWhile (· ≠ 124) = t := by
    rw [List.takeWhile_append_of_pos]
    · rw [List.takeWhile_cons_of_neg (by decide), List.append_nil]
    · intro c member
      exact decide_eq_true fun bar => absent (bar ▸ member)
  have fronts : front = front' := by
    rw [← stops bare (r := rest), same, stops bare']
  rw [fronts] at same
  exact ⟨fronts, (List.cons.inj (List.append_cancel_left same)).2⟩

theorem decimal_inj {m n : Nat} (same : decimal m = decimal n) : m = n := by
  rw [← digitsValue_decimal m, same, digitsValue_decimal]

theorem Endpoint.text_inj {e' : Endpoint} (plain : Plain e) (plain' : Plain e') (port : 1 ≤ e.port)
    (port' : 1 ≤ e'.port) (same : e.text = e'.text) : e = e' := by
  have bare {e : Endpoint} (plain : Plain e) : 124 ∉ e.user.getD [] := by
    cases known : e.user with
    | none => exact List.not_mem_nil
    | some u => exact (plain.2 u known).2
  obtain ⟨hosts, rest⟩ := split_bar plain.1 plain'.1 same
  obtain ⟨users, ports⟩ := split_bar (bare plain) (bare plain') rest
  have samePort : e.port = e'.port := by
    have digits := decimal_inj ports
    omega
  have sameUser : e.user = e'.user := by
    cases known : e.user with
    | none =>
        cases known' : e'.user with
        | none => rfl
        | some u =>
            rw [known, known'] at users
            exact absurd users.symm (plain'.2 u known').1
    | some u =>
        cases known' : e'.user with
        | none =>
            rw [known, known'] at users
            exact absurd users (plain.2 u known).1
        | some v =>
            rw [known, known'] at users
            exact congrArg some users
  cases e
  cases e'
  simp_all

theorem sessionVaultKey_eq_some {key : Text} (known : sessionVaultKey session e = some key) :
    1 ≤ e.port ∧
      key = ascii "s" ++ (hashHex (hash64 session) ++ (ascii "-" ++ (ascii "host-" ++ hashHex (hash64 e.text)))) := by
  unfold sessionVaultKey vaultHostKey at known
  split at known
  · cases known
  · obtain ⟨endpoint, given, rfl⟩ := Option.map_eq_some_iff.mp known
    split at given
    · cases given
    · rename_i fits
      obtain rfl := Option.some.inj given
      exact ⟨by omega, rfl⟩

theorem sessionVaultKey_hashes {session' key : Text} {e' : Endpoint} (known : sessionVaultKey session e = some key)
    (known' : sessionVaultKey session' e' = some key) :
    hashHex (hash64 session) = hashHex (hash64 session') ∧ hashHex (hash64 e.text) = hashHex (hash64 e'.text) := by
  have same := (sessionVaultKey_eq_some known).2.symm.trans (sessionVaultKey_eq_some known').2
  have parts := List.append_inj (List.append_cancel_left same) (by rw [length_hashHex, length_hashHex])
  exact ⟨parts.1, List.append_cancel_left (List.append_cancel_left parts.2)⟩

theorem sessionVaultKey_head {key : Text} (known : sessionVaultKey session e = some key) : key.head? = some 115 := by
  rw [(sessionVaultKey_eq_some known).2]
  rfl

theorem sessionPendingKey_eq_some {key : Text} (known : sessionPendingKey key = some name) :
    name = ascii "pending-" ++ key := by
  unfold sessionPendingKey at known
  split at known
  · exact (Option.some.inj known).symm
  · cases known

theorem sessionPendingKey_head {key : Text} (known : sessionPendingKey key = some name) : name.head? = some 112 := by
  rw [sessionPendingKey_eq_some known]
  rfl

theorem sessionPendingKey_inj {key key' : Text} (known : sessionPendingKey key = some name)
    (known' : sessionPendingKey key' = some name) : key = key' :=
  List.append_cancel_left ((sessionPendingKey_eq_some known).symm.trans (sessionPendingKey_eq_some known'))

theorem vaultHostKey_head {key : Text} (known : vaultHostKey e = some key) : key.head? = some 104 := by
  unfold vaultHostKey at known
  split at known
  · cases known
  · rw [← Option.some.inj known]
    rfl

def Derived (name : Text) : Prop :=
  ∃ session e key, sessionVaultKey session e = some key ∧ (name = key ∨ sessionPendingKey key = some name)

theorem Derived.head {name : Text} (derived : Derived name) : name.head? = some 115 ∨ name.head? = some 112 := by
  obtain ⟨session, e, key, known, rfl | pending⟩ := derived
  · exact .inl (sessionVaultKey_head known)
  · exact .inr (sessionPendingKey_head pending)

/-! ### The invariant -/

variable {s t : State}

def Binding.key (b : Binding) : Option Text :=
  sessionVaultKey b.session b.endpoint

structure Sound (s : State) : Prop where
  settled : ∀ {session e key password}, sessionVaultKey session e = some key → s.vault key = some password →
    ∃ b ∈ s.confirmed, b.key = some key ∧ b.password = password
  pending : ∀ {session e key name password}, sessionVaultKey session e = some key → sessionPendingKey key = some name →
    s.vault name = some password → ∃ b ∈ s.staged, b.key = some key ∧ b.password = password
  plain : ∀ b ∈ s.staged ++ s.confirmed, Plain b.endpoint
  apart : ∀ {name p}, s.environments name = some p → ¬ Derived name

/-- The same but for secrets that are gone, and for the files of the sessions. -/
structure Shrinks (s t : State) : Prop where
  staged : t.staged = s.staged
  confirmed : t.confirmed = s.confirmed
  environments : t.environments = s.environments
  vault : ∀ name, t.vault name = s.vault name ∨ t.vault name = none

theorem Shrinks.refl (s : State) : Shrinks s s where
  staged := rfl
  confirmed := rfl
  environments := rfl
  vault := fun _ => .inl rfl

theorem Shrinks.trans {s t u : State} (first : Shrinks s t) (second : Shrinks t u) : Shrinks s u where
  staged := second.staged.trans first.staged
  confirmed := second.confirmed.trans first.confirmed
  environments := second.environments.trans first.environments
  vault := by
    intro name
    rcases second.vault name with same | gone
    · rw [same]
      exact first.vault name
    · exact .inr gone

theorem Sound.shrinks {s t : State} (sound : Sound s) (shrinks : Shrinks s t) : Sound t where
  settled := by
    intro session e key password known there
    rw [shrinks.confirmed]
    rcases shrinks.vault key with same | gone
    · exact sound.settled known (same ▸ there)
    · rw [gone] at there
      cases there
  pending := by
    intro session e key name password known isPending there
    rw [shrinks.staged]
    rcases shrinks.vault name with same | gone
    · exact sound.pending known isPending (same ▸ there)
    · rw [gone] at there
      cases there
  plain := by
    rw [shrinks.staged, shrinks.confirmed]
    exact sound.plain
  apart := by
    rw [shrinks.environments]
    exact sound.apart

theorem setSessionFile_shrinks (s : State) (session : Text) (file : SessionFile) :
    Shrinks s (setSessionFile s session file) :=
  { Shrinks.refl s with }

theorem vaultDelete_shrinks (s : State) (name : Text) : Shrinks s (vaultDelete s name) := by
  unfold vaultDelete
  split
  · refine ⟨rfl, rfl, rfl, fun other => ?_⟩
    by_cases here : other = name
    · exact .inr (here ▸ Function.update_self ..)
    · exact .inl (Function.update_of_ne here ..)
  · exact Shrinks.refl s

theorem deletePending_shrinks (s : State) (key : Text) : Shrinks s (deletePending s key) := by
  unfold deletePending
  split
  · exact vaultDelete_shrinks s _
  · exact Shrinks.refl s

theorem profileRecordEx_shrinks {extras : Extras} {pending : Bool}
    (recorded : sessionProfileRecordEx s session e extras pending = some t) : Shrinks s t := by
  obtain ⟨key, _, rfl⟩ := Option.map_eq_some_iff.mp recorded
  dsimp only
  split
  · exact (setSessionFile_shrinks s session _).trans (deletePending_shrinks _ _)
  · exact setSessionFile_shrinks s session _

theorem profileDiscardPending_shrinks (s : State) (session key : Text) :
    Shrinks s (sessionProfileDiscardPending s session key) := by
  unfold sessionProfileDiscardPending
  dsimp only
  split
  · exact setSessionFile_shrinks s session _
  · exact Shrinks.refl s

/-! ### Puts -/

structure Puts (s t : State) (name password : Text) : Prop where
  staged : t.staged = s.staged
  confirmed : t.confirmed = s.confirmed
  environments : t.environments = s.environments
  here : t.vault name = some password
  other : ∀ n, n ≠ name → t.vault n = s.vault n

theorem vaultPut_puts {password : Text} (put : vaultPut s name password = some t) : Puts s t name password := by
  unfold vaultPut at put
  split at put
  · obtain rfl := Option.some.inj put
    exact ⟨rfl, rfl, rfl, Function.update_self .., fun n differs => Function.update_of_ne differs ..⟩
  · cases put

theorem Sound.put {u : State} (sound : Sound s) {password : Text} (puts : Puts s t name password)
    (vault : u.vault = t.vault) (environments : u.environments = t.environments) (staged : s.staged ⊆ u.staged)
    (confirmed : s.confirmed ⊆ u.confirmed) (plain : ∀ b ∈ u.staged ++ u.confirmed, Plain b.endpoint)
    (settles : ∀ session e, sessionVaultKey session e = some name →
      ∃ b ∈ u.confirmed, b.key = some name ∧ b.password = password)
    (stages : ∀ session e key, sessionVaultKey session e = some key → sessionPendingKey key = some name →
      ∃ b ∈ u.staged, b.key = some key ∧ b.password = password) : Sound u where
  settled := by
    intro session e key other known there
    rw [vault] at there
    by_cases same : key = name
    · rw [same, puts.here] at there
      rw [same] at known ⊢
      rw [← Option.some.inj there]
      exact settles session e known
    · rw [puts.other key same] at there
      obtain ⟨b, member, rest⟩ := sound.settled known there
      exact ⟨b, confirmed member, rest⟩
  pending := by
    intro session e key pending other known isPending there
    rw [vault] at there
    by_cases same : pending = name
    · rw [same, puts.here] at there
      rw [same] at isPending
      rw [← Option.some.inj there]
      exact stages session e key known isPending
    · rw [puts.other pending same] at there
      obtain ⟨b, member, rest⟩ := sound.pending known isPending there
      exact ⟨b, staged member, rest⟩
  plain := plain
  apart := by
    intro n p there
    rw [environments, puts.environments] at there
    exact sound.apart there

theorem Sound.stage (sound : Sound s) {b : Binding} {key : Text} (plain : Plain b.endpoint) (known : b.key = some key)
    (isPending : sessionPendingKey key = some name) (puts : Puts s t name b.password) :
    Sound { t with staged := t.staged ++ [b] } := by
  refine sound.put puts rfl rfl ?_ ?_ ?_ ?_ ?_
  · intro x member
    change x ∈ t.staged ++ [b]
    rw [puts.staged]
    exact List.mem_append_left _ member
  · exact fun x member => puts.confirmed ▸ member
  · intro x member
    change x ∈ (t.staged ++ [b]) ++ t.confirmed at member
    rw [puts.staged, puts.confirmed] at member
    rcases List.mem_append.mp member with staged | confirmed
    · rcases List.mem_append.mp staged with old | new
      · exact sound.plain x (List.mem_append_left _ old)
      · rw [List.mem_singleton.mp new]
        exact plain
    · exact sound.plain x (List.mem_append_right _ confirmed)
  · intro session e isKey
    have both := (sessionVaultKey_head isKey).symm.trans (sessionPendingKey_head isPending)
    exact absurd both (by decide)
  · intro session e other _ isPending'
    rw [← sessionPendingKey_inj isPending isPending']
    exact ⟨b, List.mem_append_right _ (List.mem_singleton_self b), known, rfl⟩

theorem Sound.confirm {s t : State} (sound : Sound s) {b : Binding} {name : Text} (plain : Plain b.endpoint)
    (names : b.key = some name ∨ ¬ Derived name) (puts : Puts s t name b.password) :
    Sound { t with confirmed := t.confirmed ++ [b] } := by
  refine sound.put puts rfl rfl ?_ ?_ ?_ ?_ ?_
  · exact fun x member => puts.staged ▸ member
  · intro x member
    change x ∈ t.confirmed ++ [b]
    rw [puts.confirmed]
    exact List.mem_append_left _ member
  · intro x member
    change x ∈ t.staged ++ (t.confirmed ++ [b]) at member
    rw [puts.staged, puts.confirmed, ← List.append_assoc] at member
    rcases List.mem_append.mp member with old | new
    · exact sound.plain x old
    · rw [List.mem_singleton.mp new]
      exact plain
  · intro session e isKey
    rcases names with known | foreign
    · exact ⟨b, List.mem_append_right _ (List.mem_singleton_self b), known, rfl⟩
    · exact absurd ⟨session, e, name, isKey, .inl rfl⟩ foreign
  · intro session e key isKey isPending
    rcases names with known | foreign
    · have both := (sessionVaultKey_head known).symm.trans (sessionPendingKey_head isPending)
      exact absurd both (by decide)
    · exact absurd ⟨session, e, key, isKey, .inr isPending⟩ foreign

theorem Sound.putForeign (sound : Sound s) {password : Text} (foreign : ¬ Derived name)
    (puts : Puts s t name password) : Sound t := by
  refine sound.put puts rfl rfl ?_ ?_ ?_ ?_ ?_
  · exact fun x member => puts.staged ▸ member
  · exact fun x member => puts.confirmed ▸ member
  · rw [puts.staged, puts.confirmed]
    exact sound.plain
  · exact fun session e isKey => absurd ⟨session, e, name, isKey, .inl rfl⟩ foreign
  · exact fun session e key isKey isPending => absurd ⟨session, e, key, isKey, .inr isPending⟩ foreign

/-! ### Steps -/

variable {host : Text} {args : SshArgs} {l : Login}

theorem bar_not_mem {text allowed : Text} (valid : (text.all fun c => isAlnum c ∨ c ∈ allowed) = true)
    (absent : 124 ∉ allowed) : (124 : UInt8) ∉ text := by
  intro member
  have bar := decide_eq_true_eq.mp (List.all_eq_true.mp valid 124 member)
  rcases bar with letter | listed
  · exact absurd letter (by decide)
  · exact absent listed

theorem hostTokenValid_bar (valid : hostTokenValid host = true) : (124 : UInt8) ∉ host :=
  bar_not_mem (decide_eq_true_eq.mp valid).2 (by decide)

theorem userTokenValid_bar {user : Text} (valid : userTokenValid user = true) : user ≠ [] ∧ (124 : UInt8) ∉ user :=
  ⟨(decide_eq_true_eq.mp valid).1, bar_not_mem (decide_eq_true_eq.mp valid).2 (by decide)⟩

theorem hostValid_bar (valid : hostValid host = true) : (124 : UInt8) ∉ host :=
  bar_not_mem (decide_eq_true_eq.mp valid).2 (by decide)

theorem nameValid_bar (valid : nameValid name = true) : name ≠ [] ∧ (124 : UInt8) ∉ name :=
  ⟨(decide_eq_true_eq.mp valid).1, bar_not_mem (decide_eq_true_eq.mp valid).2.2 (by decide)⟩

theorem sessionPreparePrompt_sound (sound : Sound s) (session : Text) (parsed : Parsed) :
    Sound (sessionPreparePrompt s session parsed) := by
  unfold sessionPreparePrompt
  dsimp only
  generalize (if session = [] then ascii "default" else session) = session
  split
  · exact sound
  · rename_i host known
    split
    · exact sound
    split
    · exact sound
    rename_i key isKey
    split
    · rename_i pending recorded isPending isRecorded
      have kept := sound.shrinks (profileRecordEx_shrinks isRecorded)
      split
      · exact kept
      · rename_i password given
        split
        · rename_i stored put
          refine kept.stage ⟨?_, fun u isUser => ?_⟩ isKey isPending (vaultPut_puts put)
          · exact hostTokenValid_bar (Option.filter_eq_some_iff.mp known).2
          · exact userTokenValid_bar (Option.filter_eq_some_iff.mp isUser).2
        · exact kept.shrinks (profileDiscardPending_shrinks _ _ _)
    · exact sound.shrinks (profileDiscardPending_shrinks _ _ _)

theorem Sound.editEnvironments (sound : Sound s) {p : Option SshProfile} (foreign : p.isSome → ¬ Derived name) :
    Sound { s with environments := Function.update s.environments name p } where
  settled := sound.settled
  pending := sound.pending
  plain := sound.plain
  apart := by
    intro other q there
    by_cases here : other = name
    · have same : p = some q := by
        rw [← there, here]
        exact (Function.update_self name p s.environments).symm
      rw [here]
      exact foreign (Option.isSome_of_eq_some same)
    · have before : s.environments other = some q := by
        rw [← there]
        exact (Function.update_of_ne here p s.environments).symm
      exact sound.apart before

theorem Sound.putGiven (sound : Sound s) (foreign : ¬ Derived name) (password : Option Text) :
    Sound ((password.bind (vaultPut s name)).getD s) := by
  cases put : password.bind (vaultPut s name) with
  | none => exact sound
  | some t =>
      obtain ⟨pw, _, isPut⟩ := Option.bind_eq_some_iff.mp put
      exact sound.putForeign foreign (vaultPut_puts isPut)

theorem setEnvironment_sound (sound : Sound s) (foreign : ¬ Derived name) (p : SshProfile) (password : Option Text) :
    Sound (setEnvironment s name p password) := by
  unfold setEnvironment
  split
  · exact (sound.editEnvironments fun _ => foreign).putGiven foreign password
  · exact sound

theorem deleteEnvironment_sound (sound : Sound s) (name : Text) : Sound (deleteEnvironment s name) := by
  unfold deleteEnvironment
  split
  · refine Sound.shrinks ?_ (vaultDelete_shrinks _ name)
    exact sound.editEnvironments nofun
  · exact sound

theorem snprintf_nameValid (valid : nameValid name = true) : snprintf 96 name = name := by
  have short := (decide_eq_true_eq.mp valid).2.1
  exact List.take_of_length_le (by omega)

theorem choose_direct (sound : Sound s) {p : SshProfile} (chosen : (choose s [] args).profile = some p)
    (named : args.environment = some name) : nameValid name = true ∧ ¬ Derived name := by
  have none : usableProfile s [] args = none := if_pos rfl
  unfold choose at chosen
  split at chosen
  · rename_i other q managed
    unfold managedProfile at managed
    rw [none, named] at managed
    obtain ⟨loaded, isLoaded, _⟩ := Option.map_eq_some_iff.mp managed
    unfold profileLoad at isLoaded
    split at isLoaded
    · rename_i valid
      exact ⟨valid, sound.apart isLoaded⟩
    · cases isLoaded
  · rw [none] at chosen
    cases chosen

theorem vaultKey_spec (sound : Sound s) {key : Text} (isHost : (choose s session args).host = some host)
    (valid : hostValid host = true) (known : vaultKey session args (choose s session args) = some key) :
    (session ≠ [] → sessionVaultKey session
      { host, user := (choose s session args).user, port := (choose s session args).port } = some key) ∧
      (session = [] → ¬ Derived key) := by
  have kept : (choose s session args).host.filter hostValid = some host := by
    rw [isHost]
    exact if_pos valid
  unfold vaultKey at known
  rw [kept] at known
  dsimp only at known
  by_cases direct : session = []
  · refine ⟨absurd direct, fun _ => ?_⟩
    subst direct
    rw [if_neg (not_not.mpr rfl)] at known
    split at known
    · rename_i p name chosen named
      obtain ⟨validName, foreign⟩ := choose_direct sound chosen named
      rw [snprintf_nameValid validName] at known
      rwa [← Option.some.inj known]
    · intro derived
      have head := vaultHostKey_head known
      rcases derived.head with session | pending
      · exact absurd (head.symm.trans session) (by decide)
      · exact absurd (head.symm.trans pending) (by decide)
  · rw [if_pos direct] at known
    exact ⟨fun _ => known, fun isDirect => absurd isDirect direct⟩

/-- A login goes to the endpoint that was chosen, under its key and with its password, once the host
and the user are found to be names. -/
theorem login_cases (attempted : login s session args = some l) :
    let c := choose s session args
    ∃ host, c.host = some host ∧ hostValid host = true ∧ c.user.all nameValid = true ∧
      l.endpoint = { host, user := c.user, port := c.port } ∧
      l.key = (vaultKey session args c).filter (· ≠ []) ∧ l.password = password s session args c := by
  unfold login at attempted
  dsimp only at attempted
  split at attempted
  · cases attempted
  obtain ⟨host, isHost, rest⟩ := Option.bind_eq_some_iff.mp attempted
  split at rest
  · rename_i valid
    obtain rfl := Option.some.inj rest
    obtain ⟨anyHost, allUser, _⟩ := decide_eq_true_eq.mp valid
    rw [isHost] at anyHost
    exact ⟨host, isHost, anyHost, allUser, rfl, rfl, rfl⟩
  · cases rest

/-- What is known of a login: it goes to a plain endpoint, and its key is the endpoint's own in a
session, and foreign to all sessions in a direct call. -/
theorem login_spec (sound : Sound s) (attempted : login s session args = some l) :
    Plain l.endpoint ∧ ∀ key, l.key = some key →
      (session ≠ [] → sessionVaultKey session l.endpoint = some key) ∧ (session = [] → ¬ Derived key) := by
  obtain ⟨host, isHost, anyHost, allUser, endpoint, keyed, -⟩ := login_cases attempted
  rw [endpoint, keyed]
  refine ⟨⟨hostValid_bar anyHost, fun u isUser => ?_⟩, fun key isKey => ?_⟩
  · have known : (choose s session args).user = some u := isUser
    rw [known] at allUser
    exact nameValid_bar allUser
  · exact vaultKey_spec sound isHost anyHost (Option.filter_eq_some_iff.mp isKey).1

theorem storePassword_sound (sound : Sound s) (plain : Plain l.endpoint) (names : ∀ key, l.key = some key →
      (session ≠ [] → sessionVaultKey session l.endpoint = some key) ∧ (session = [] → ¬ Derived key)) :
    Sound (storePassword s session l) := by
  unfold storePassword
  split
  · rename_i key password isKey isPassword
    split
    · rename_i stored put
      obtain ⟨own, foreign⟩ := names key isKey
      refine @Sound.confirm s stored sound { session, endpoint := l.endpoint, password } key plain ?_ (vaultPut_puts put)
      by_cases direct : session = []
      · exact .inr (foreign direct)
      · exact .inl (own direct)
    · exact sound
  · exact sound

theorem recordLogin_shrinks (s : State) (session : Text) (l : Login) : Shrinks s (recordLogin s session l) := by
  unfold recordLogin
  split
  · cases recorded : sessionProfileRecordEx s session l.endpoint l.extras false with
    | none => exact Shrinks.refl s
    | some t => exact profileRecordEx_shrinks recorded
  · exact Shrinks.refl s

theorem confirm_sound (sound : Sound s) (plain : Plain l.endpoint) (names : ∀ key, l.key = some key →
      (session ≠ [] → sessionVaultKey session l.endpoint = some key) ∧ (session = [] → ¬ Derived key)) :
    Sound (confirm s session l) := by
  have recorded := (storePassword_sound sound plain names).shrinks (recordLogin_shrinks _ session l)
  unfold confirm
  dsimp only
  split
  · exact recorded.shrinks (vaultDelete_shrinks _ _)
  · exact recorded

theorem reject_shrinks (s : State) (session : Text) (l : Login) : Shrinks s (reject s session l) := by
  unfold reject
  split
  · split
    · exact (profileDiscardPending_shrinks s session _).trans (vaultDelete_shrinks _ _)
    · exact Shrinks.refl s
  · exact Shrinks.refl s

theorem sshExec_sound (sound : Sound s) (session : Text) (args : SshArgs) (outcome : Outcome) :
    Sound (sshExec s session args outcome) := by
  unfold sshExec
  split
  · rename_i l attempted
    obtain ⟨plain, names⟩ := login_spec sound attempted
    exact confirm_sound sound plain names
  · exact sound.shrinks (reject_shrinks s session _)
  · exact sound

def NamesApart (_ : State) : Label → Prop
  | .setEnvironment name _ _ => ¬ Derived name
  | _ => True

theorem step_sound (sound : Sound s) {label : Label} (apart : NamesApart s label) : Sound (step s label) := by
  cases label with
  | prepare session parsed => exact sessionPreparePrompt_sound sound session parsed
  | setEnvironment name p password => exact setEnvironment_sound sound apart p password
  | deleteEnvironment name => exact deleteEnvironment_sound sound name
  | ssh session args outcome => exact sshExec_sound sound session args outcome

theorem empty_sound : Sound empty where
  settled := nofun
  pending := nofun
  plain := nofun
  apart := nofun

theorem sound_of_run {labels : List Label} (run : (machine.restrict NamesApart).Run empty labels s) : Sound s := by
  refine Machine.Run.invariant ?_ run empty_sound
  rintro before label after sound ⟨apart, rfl⟩
  exact step_sound sound apart

/-! ### The password of a login -/

variable {c : Choice}

/-- The hashes in the keys do not collide between this session and endpoint and those the vault has
passwords of. -/
def CollisionFree (s : State) (session : Text) (e : Endpoint) : Prop :=
  ∀ b ∈ s.staged ++ s.confirmed,
    (hashHex (hash64 b.session) = hashHex (hash64 session) → b.session = session) ∧
      (hashHex (hash64 b.endpoint.text) = hashHex (hash64 e.text) → b.endpoint.text = e.text)

def OfEnvironment (s : State) (e : Endpoint) (password : Text) : Prop :=
  ∃ name p, s.environments name = some p ∧ p.host = some e.host ∧ p.user = e.user ∧ portOf p.port = e.port ∧
    s.vault name = some password

def Bound (s : State) (session : Text) (e : Endpoint) (password : Text) : Prop :=
  { session, endpoint := e, password } ∈ s.staged ++ s.confirmed ∨ OfEnvironment s e password

theorem vaultGet_eq_some {password : Text} (found : vaultGet s name = some password) :
    s.vault name = some password := by
  unfold vaultGet at found
  split at found
  · exact found
  · cases found

theorem namedPassword_ofEnvironment {password : Text} (isHost : c.host = some host)
    (found : namedPassword s c name = some password) :
    OfEnvironment s { host, user := c.user, port := c.port } password := by
  obtain ⟨p, loaded, rest⟩ := Option.bind_eq_some_iff.mp found
  unfold profileLoad at loaded
  split at loaded
  · split at rest
    · rename_i same
      exact ⟨name, p, loaded, same.2.1.trans isHost, same.2.2.1, same.2.2.2, vaultGet_eq_some rest⟩
    · cases rest
  · cases loaded

theorem bound_of_key (sound : Sound s) {key password : Text} (plain : Plain e) (free : CollisionFree s session e)
    (known : sessionVaultKey session e = some key) {b : Binding} (member : b ∈ s.staged ++ s.confirmed)
    (isKey : b.key = some key) (same : b.password = password) : Bound s session e password := by
  obtain ⟨sessions, endpoints⟩ := sessionVaultKey_hashes isKey known
  obtain ⟨freeSession, freeEndpoint⟩ := free b member
  have endpoint : b.endpoint = e :=
    Endpoint.text_inj (sound.plain b member) plain (sessionVaultKey_eq_some isKey).1 (sessionVaultKey_eq_some known).1
      (freeEndpoint endpoints)
  refine .inl ?_
  rw [← freeSession sessions, ← endpoint, ← same]
  exact member

theorem storedPassword_bound (sound : Sound s) {key password : Text} (isHost : c.host = some host)
    (plain : Plain { host, user := c.user, port := c.port })
    (free : CollisionFree s session { host, user := c.user, port := c.port })
    (known : sessionVaultKey session { host, user := c.user, port := c.port } = some key)
    (found : storedPassword s session c key = some password) :
    Bound s session { host, user := c.user, port := c.port } password := by
  unfold storedPassword at found
  rcases Option.or_eq_some_iff.mp found with staged | ⟨_, found⟩
  · obtain ⟨name, isName, there⟩ := Option.bind_eq_some_iff.mp staged
    unfold pendingName at isName
    split at isName
    · obtain ⟨b, member, isKey, same⟩ := sound.pending known isName (vaultGet_eq_some there)
      exact bound_of_key sound plain free known (List.mem_append_left _ member) isKey same
    · cases isName
  rcases Option.or_eq_some_iff.mp found with current | ⟨_, found⟩
  · split at current
    · obtain ⟨name, _, named⟩ := Option.bind_eq_some_iff.mp current
      exact .inr (namedPassword_ofEnvironment isHost named)
    · cases current
  rcases Option.or_eq_some_iff.mp found with settled | ⟨_, named⟩
  · obtain ⟨b, member, isKey, same⟩ := sound.settled known (vaultGet_eq_some settled)
    exact bound_of_key sound plain free known (List.mem_append_right _ member) isKey same
  · obtain ⟨name, _, named⟩ := Option.bind_eq_some_iff.mp named
    exact .inr (namedPassword_ofEnvironment isHost named)

theorem password_of_session {pw : Text} (chat : session ≠ []) (given : password s session args c = some pw) :
    ∃ key, vaultKey session args c = some key ∧ storedPassword s session c key = some pw := by
  unfold password at given
  rw [if_neg chat] at given
  obtain ⟨key, isKey, stored⟩ := Option.bind_eq_some_iff.mp ((Option.or_none).symm.trans given)
  exact ⟨key, (Option.filter_eq_some_iff.mp isKey).1, stored⟩

theorem login_ignores_password (s : State) (chat : session ≠ []) (args : SshArgs) (other : Option Text) :
    login s session { args with password := other } = login s session args := by
  have same (c : Choice) : password s session { args with password := other } c = password s session args c := by
    unfold password
    rw [if_neg chat, if_neg chat]
    rfl
  unfold login
  dsimp only
  rw [same]
  rfl

/-- The password of a session's login was staged or confirmed for this session and endpoint, or is
that of a named environment with this endpoint; it is never one from the arguments. -/
theorem password_bound {labels : List Label} {s : State} (run : (machine.restrict NamesApart).Run empty labels s)
    {session : Text} (chat : session ≠ []) {args : SshArgs} {l : Login} (attempted : login s session args = some l)
    (free : CollisionFree s session l.endpoint) :
    (∀ password, l.password = some password → Bound s session l.endpoint password) ∧
      ∀ other, login s session { args with password := other } = some l := by
  have sound := sound_of_run run
  refine ⟨fun pw given => ?_, fun other => (login_ignores_password s chat args other).trans attempted⟩
  have plain := (login_spec sound attempted).1
  obtain ⟨host, isHost, anyHost, -, endpoint, -, own⟩ := login_cases attempted
  rw [endpoint] at plain free ⊢
  obtain ⟨key, isKey, stored⟩ := password_of_session chat (own.symm.trans given)
  have known := (vaultKey_spec sound isHost anyHost isKey).1 chat
  exact storedPassword_bound sound isHost plain free known stored

/-! ### A prompt and the call behind it -/

def rootPrompt : Parsed where
  host := some (ascii "10.0.0.8")
  user := some (ascii "root")
  environment := none
  password := some (ascii "hunter22")
  port := 22
  invalidTarget := false

def uptimeCall : SshArgs where
  host := none
  environment := none
  user := none
  command := some (ascii "uptime")
  port := none
  password := some (ascii "guessed1")

def rootEndpoint : Endpoint where
  host := ascii "10.0.0.8"
  user := some (ascii "root")
  port := 22

theorem password_bound_prompt :
    Bound (sessionPreparePrompt empty (ascii "chat") rootPrompt) (ascii "chat") rootEndpoint (ascii "hunter22") := by
  have attempted : login (sessionPreparePrompt empty (ascii "chat") rootPrompt) (ascii "chat") uptimeCall =
      some
        { endpoint := rootEndpoint, key := sessionVaultKey (ascii "chat") rootEndpoint
          password := some (ascii "hunter22"), extras := noExtras } := by decide +kernel
  have staged : (sessionPreparePrompt empty (ascii "chat") rootPrompt).staged ++
      (sessionPreparePrompt empty (ascii "chat") rootPrompt).confirmed =
      [{ session := ascii "chat", endpoint := rootEndpoint, password := ascii "hunter22" }] := by decide +kernel
  have run : (machine.restrict NamesApart).Run empty [.prepare (ascii "chat") rootPrompt]
      (sessionPreparePrompt empty (ascii "chat") rootPrompt) := Machine.Run.single ⟨trivial, rfl⟩
  have free : CollisionFree (sessionPreparePrompt empty (ascii "chat") rootPrompt) (ascii "chat") rootEndpoint := by
    intro b member
    rw [staged] at member
    rw [List.mem_singleton.mp member]
    exact ⟨fun _ => rfl, fun _ => rfl⟩
  exact (password_bound run (by decide) attempted free).1 (ascii "hunter22") rfl

end CognitiveOs.Action.Ssh
