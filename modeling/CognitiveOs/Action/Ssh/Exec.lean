import CognitiveOs.Action.Ssh.Vault
import CognitiveOs.Foundation.Machine

/-!
# The SSH tool

`ssh_exec` of `action/tool_shell.c`: the endpoint of a call, the password it is given, and what a
login leaves in the vault; and the edits of the named environments in `api/api_rest.c`.
-/

namespace CognitiveOs.Action.Ssh

open Foundation Infra

structure SshArgs where
  host : Option Text
  environment : Option Text
  user : Option Text
  command : Option Text
  port : Option Int
  password : Option Text

/-- `ssh_host_valid`. -/
def hostValid (s : Text) : Bool :=
  s ≠ [] ∧ s.all fun c => isAlnum c ∨ c ∈ ascii ".-_@:[]"

/-- `ssh_path_valid`. -/
def pathValid (s : Text) : Bool :=
  s ≠ [] ∧ s.all fun c => isAlnum c ∨ c ∈ ascii "._-/\\: "

/-- `ssh_profile_load`. -/
def profileLoad (s : State) (name : Text) : Option SshProfile :=
  if nameValid name then s.environments name else none

/-- `ssh_profile_parse` of a saved profile. -/
def profileParse (p : SavedProfile) : SshProfile where
  host := some p.host
  user := p.user
  identityFile := p.identityFile
  proxyJump := p.proxyJump
  knownHosts := p.knownHosts
  port := some p.port

def portOf (port : Option Int) : Int :=
  port.getD 22

/-- `user@host` with one `@` and something on both its sides. -/
def splitUser (host : Text) : Option (Text × Text) :=
  let user := host.takeWhile (· ≠ 64)
  let rest := (host.dropWhile (· ≠ 64)).drop 1
  if user ≠ [] ∧ rest ≠ [] ∧ 64 ∉ rest then some (user, rest) else none

structure Choice where
  host : Option Text
  user : Option Text
  port : Int
  profile : Option SshProfile
  /-- The named environment whose secret may be used. -/
  managed : Option Text
  /-- The profile is the environment's own. -/
  current : Bool

def argsTarget (args : SshArgs) : Option Text × Option Text :=
  match args.host.bind splitUser with
  | some (user, host) => (some host, some user)
  | none => (args.host, args.user)

def usableProfile (s : State) (session : Text) (args : SshArgs) : Option SavedProfile :=
  if session = [] then none
  else
    (sessionProfileGet s session args.environment).filter fun p =>
      (argsTarget args).1.isNone ∨ (argsTarget args).1 = some p.host ∨ p.pending

def managedProfile (s : State) (session : Text) (args : SshArgs) : Option (Text × SshProfile) :=
  if (usableProfile s session args).any SavedProfile.pending then none
  else args.environment.bind fun name => (profileLoad s name).map fun p => (name, p)

def choose (s : State) (session : Text) (args : SshArgs) : Choice :=
  match managedProfile s session args with
  | some (name, p) =>
    { host := p.host, user := p.user, port := portOf p.port, profile := some p, managed := some name, current := true }
  | none =>
    match usableProfile s session args with
    | some p =>
      { host := some p.host, user := p.user, port := p.port, profile := some (profileParse p), managed := p.environment
        current := false }
    | none =>
      { host := (argsTarget args).1, user := (argsTarget args).2, port := portOf args.port, profile := none
        managed := none, current := false }

def conflicting (session : Text) (args : SshArgs) : Bool :=
  session = [] ∧ (args.host.bind splitUser).any fun split => args.user.any (· ≠ split.1)

def vaultKey (session : Text) (args : SshArgs) (c : Choice) : Option Text :=
  match c.host.filter hostValid, args.environment with
  | some host, environment =>
    if session ≠ [] then sessionVaultKey session { host, user := c.user, port := c.port }
    else
      match c.profile, environment with
      | some _, some name => some (snprintf 96 name)
      | _, _ => vaultHostKey { host, user := c.user, port := c.port }
  | none, some name => if c.profile.isSome then some (snprintf 96 name) else none
  | none, none => none

/-- `ssh_named_password`: only for the environment's own endpoint. -/
def namedPassword (s : State) (c : Choice) (name : Text) : Option Text :=
  (profileLoad s name).bind fun p =>
    if p.host.isSome ∧ p.host = c.host ∧ p.user = c.user ∧ portOf p.port = c.port then vaultGet s name else none

def pendingName (session key : Text) : Option Text :=
  if session ≠ [] then sessionPendingKey key else none

def storedPassword (s : State) (session : Text) (c : Choice) (key : Text) : Option Text :=
  let pending := (pendingName session key).bind (vaultGet s)
  let current := if c.current then c.managed.bind (namedPassword s c) else none
  pending.or (current.or ((vaultGet s key).or (c.managed.bind (namedPassword s c))))

def plainPassword (password : Text) : Bool :=
  (strstr (ascii "[REDACTED:") password).isNone ∧ (strstr (ascii "[LOCAL_SSH_PASSWORD]") password).isNone

def password (s : State) (session : Text) (args : SshArgs) (c : Choice) : Option Text :=
  let stored := ((vaultKey session args c).filter (· ≠ [])).bind (storedPassword s session c)
  stored.or (if session = [] then args.password.filter plainPassword else none)

def oneLine (s : Text) : Bool :=
  10 ∉ s ∧ 13 ∉ s

def callValid (args : SshArgs) (c : Choice) (password : Option Text) : Bool :=
  c.host.any hostValid ∧ c.user.all nameValid ∧ password.all oneLine ∧ args.command.any oneLine ∧
    1 ≤ c.port ∧ c.port ≤ 65535 ∧
    c.profile.all fun p => p.identityFile.all pathValid ∧ p.knownHosts.all pathValid ∧ p.proxyJump.all hostValid

/-- A login that is attempted: where, under which name of the vault, and with which password. -/
structure Login where
  endpoint : Endpoint
  key : Option Text
  password : Option Text
  extras : Extras
  deriving DecidableEq

/-- `ssh_exec` up to the command; `none` when it fails before. -/
def login (s : State) (session : Text) (args : SshArgs) : Option Login :=
  let c := choose s session args
  if conflicting session args ∨ (c.profile.isNone ∧ args.environment.isSome) then none
  else
    let given := password s session args c
    c.host.bind fun host =>
      if callValid args c given then
        some
          { endpoint := { host, user := c.user, port := c.port }
            key := (vaultKey session args c).filter (· ≠ [])
            password := given
            extras :=
              { environment := args.environment
                identityFile := c.profile.bind SshProfile.identityFile
                proxyJump := c.profile.bind SshProfile.proxyJump
                knownHosts := c.profile.bind SshProfile.knownHosts } }
      else none

def storePassword (s : State) (session : Text) (l : Login) : State :=
  match l.key, l.password with
  | some key, some password =>
    match vaultPut s key password with
    | some stored => { stored with confirmed := stored.confirmed ++ [{ session, endpoint := l.endpoint, password }] }
    | none => s
  | _, _ => s

def recordLogin (s : State) (session : Text) (l : Login) : State :=
  if session ≠ [] then (sessionProfileRecordEx s session l.endpoint l.extras false).getD s else s

def confirm (s : State) (session : Text) (l : Login) : State :=
  let recorded := recordLogin (storePassword s session l) session l
  match l.key.bind (pendingName session) with
  | some pending => vaultDelete recorded pending
  | none => recorded

/-- A login that failed: with a verified profile to go back to, the staged one is dropped. -/
def reject (s : State) (session : Text) (l : Login) : State :=
  match l.key, l.key.bind (pendingName session) with
  | some key, some pending =>
    if sessionHasVerifiedProfile s session then vaultDelete (sessionProfileDiscardPending s session key) pending else s
  | _, _ => s

inductive Outcome where
  | unsent
  | succeeded
  | failed
  deriving DecidableEq

def sshExec (s : State) (session : Text) (args : SshArgs) (outcome : Outcome) : State :=
  match login s session args, outcome with
  | some l, .succeeded => confirm s session l
  | some l, .failed => reject s session l
  | _, _ => s

/-- `ssh_profile_field_valid`. -/
def fieldValid (allowed s : Text) : Bool :=
  s ≠ [] ∧ s.length ≤ 512 ∧ s.all fun c => isAlnum c ∨ c ∈ allowed

def given (field : Option Text) : Option Text :=
  field.filter (· ≠ [])

/-- The checks of `h_ssh_environments`. -/
def environmentValid (name : Text) (p : SshProfile) (password : Option Text) : Bool :=
  nameValid name ∧ p.host.any (fieldValid (ascii "._-:@[]")) ∧ p.user.all nameValid ∧
    1 ≤ portOf p.port ∧ portOf p.port ≤ 65535 ∧
    (given p.identityFile).all (fieldValid (ascii "._-/\\: ")) ∧
    (given p.knownHosts).all (fieldValid (ascii "._-/\\: ")) ∧ (given p.proxyJump).all (fieldValid (ascii "._-:@[]")) ∧
    password.all fun pw => pw ≠ [] ∧ pw.length ≤ 1024 ∧ oneLine pw

/-- `h_ssh_environments`: the profile is replaced, and its secret if a password is given. -/
def setEnvironment (s : State) (name : Text) (p : SshProfile) (password : Option Text) : State :=
  if environmentValid name p password then
    let profile : SshProfile :=
      { p with
        identityFile := given p.identityFile, proxyJump := given p.proxyJump, knownHosts := given p.knownHosts
        port := some (portOf p.port) }
    let edited := { s with environments := Function.update s.environments name (some profile) }
    (password.bind (vaultPut edited name)).getD edited
  else s

/-- `h_ssh_environment_delete`. -/
def deleteEnvironment (s : State) (name : Text) : State :=
  if nameValid name then vaultDelete { s with environments := Function.update s.environments name none } name else s

inductive Label where
  | prepare (session : Text) (parsed : Parsed)
  | setEnvironment (name : Text) (p : SshProfile) (password : Option Text)
  | deleteEnvironment (name : Text)
  | ssh (session : Text) (args : SshArgs) (outcome : Outcome)

def step (s : State) : Label → State
  | .prepare session parsed => sessionPreparePrompt s session parsed
  | .setEnvironment name p password => setEnvironment s name p password
  | .deleteEnvironment name => deleteEnvironment s name
  | .ssh session args outcome => sshExec s session args outcome

abbrev machine : Machine State Label :=
  Machine.ofFun step

end CognitiveOs.Action.Ssh
