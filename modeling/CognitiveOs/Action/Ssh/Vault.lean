import CognitiveOs.Infra.Scan

/-!
# The SSH vault and the profiles of a chat

`action/ssh_vault.c`: secrets under names, the names a session and an endpoint have, the file of a
session's profiles, and what a prompt stages. File operations succeed.
-/

namespace CognitiveOs.Action.Ssh

open Infra

/-! ### Names -/

/-- `ssh_vault_name_valid`. -/
def nameValid (name : Text) : Bool :=
  name ≠ [] ∧ name.length ≤ 80 ∧ name.all fun c => isAlnum c ∨ c ∈ [95, 45, 46]

structure Endpoint where
  host : Text
  user : Option Text
  port : Int
  deriving DecidableEq

/-- `host|user|port`, which the key hashes. -/
def Endpoint.text (e : Endpoint) : Text :=
  e.host ++ 124 :: (e.user.getD [] ++ 124 :: decimal e.port.toNat)

/-- `ssh_vault_host_key`. -/
def vaultHostKey (e : Endpoint) : Option Text :=
  if e.host = [] ∨ e.port < 1 ∨ 65535 < e.port ∨ 1024 ≤ e.text.length then none
  else some (ascii "host-" ++ hashHex (hash64 e.text))

/-- `ssh_session_vault_key`. -/
def sessionVaultKey (session : Text) (e : Endpoint) : Option Text :=
  if session = [] then none
  else (vaultHostKey e).map fun endpoint => ascii "s" ++ (hashHex (hash64 session) ++ (ascii "-" ++ endpoint))

/-- `ssh_session_pending_key`. -/
def sessionPendingKey (key : Text) : Option Text :=
  if nameValid key then some (ascii "pending-" ++ key) else none

/-! ### State -/

structure SavedProfile where
  key : Text
  host : Text
  user : Option Text
  port : Int
  verified : Bool
  pending : Bool
  environment : Option Text
  identityFile : Option Text
  proxyJump : Option Text
  knownHosts : Option Text
  deriving DecidableEq

structure SessionFile where
  profiles : List SavedProfile
  pendingKey : Option Text
  lastKey : Option Text
  deriving DecidableEq

structure SshProfile where
  host : Option Text
  user : Option Text
  identityFile : Option Text
  proxyJump : Option Text
  knownHosts : Option Text
  port : Option Int
  deriving DecidableEq

structure Binding where
  session : Text
  endpoint : Endpoint
  password : Text
  deriving DecidableEq

structure State where
  vault : Text → Option Text
  environments : Text → Option SshProfile
  /-- The files of the sessions by their names. -/
  sessions : Text → SessionFile
  /-- What prompts have staged. -/
  staged : List Binding
  /-- What logins have confirmed. -/
  confirmed : List Binding

def empty : State where
  vault := fun _ => none
  environments := fun _ => none
  sessions := fun _ => { profiles := [], pendingKey := none, lastKey := none }
  staged := []
  confirmed := []

/-! ### The vault -/

/-- `ssh_vault_get`. -/
def vaultGet (s : State) (name : Text) : Option Text :=
  if nameValid name then s.vault name else none

/-- `ssh_vault_put`, and whether the password is one. -/
def vaultPut (s : State) (name password : Text) : Option State :=
  if nameValid name ∧ password ≠ [] ∧ password.length ≤ 1024 then
    some { s with vault := Function.update s.vault name (some password) }
  else none

/-- `ssh_vault_delete`. -/
def vaultDelete (s : State) (name : Text) : State :=
  if nameValid name then { s with vault := Function.update s.vault name none } else s

def deletePending (s : State) (key : Text) : State :=
  match sessionPendingKey key with
  | some pending => vaultDelete s pending
  | none => s

/-! ### The file of a session -/

/-- The name of `ssh_session_path`. -/
def sessionPath (session : Text) : Text :=
  hashHex (hash64 session)

def sessionFile (s : State) (session : Text) : SessionFile :=
  s.sessions (sessionPath session)

def setSessionFile (s : State) (session : Text) (file : SessionFile) : State :=
  { s with sessions := Function.update s.sessions (sessionPath session) file }

/-- `ssh_session_profile_get`: the last profile with the name, or with the pending or last key. -/
def sessionProfileGet (s : State) (session : Text) (environment : Option Text) : Option SavedProfile :=
  let file := sessionFile s session
  match environment with
  | some name => file.profiles.reverse.find? fun p => p.environment = some name
  | none =>
    match file.pendingKey.or file.lastKey with
    | some key => file.profiles.reverse.find? fun p => p.key = key
    | none => file.profiles.getLast?

/-- `ssh_session_has_verified_profile`. -/
def sessionHasVerifiedProfile (s : State) (session : Text) : Bool :=
  let file := sessionFile s session
  file.profiles.any fun p => file.lastKey = some p.key ∧ p.verified

structure Extras where
  environment : Option Text
  identityFile : Option Text
  proxyJump : Option Text
  knownHosts : Option Text
  deriving DecidableEq

def noExtras : Extras where
  environment := none
  identityFile := none
  proxyJump := none
  knownHosts := none

def orOld (given old : Option Text) : Option Text :=
  (given.filter (· ≠ [])).or old

/-- `ssh_session_profile_record_ex`; a key has one profile in a file. -/
def sessionProfileRecordEx (s : State) (session : Text) (e : Endpoint) (extras : Extras) (pending : Bool) : Option State :=
  (sessionVaultKey session e).map fun key =>
    let file := sessionFile s session
    let obsolete := if pending then file.pendingKey.filter (· ≠ key) else none
    let old := file.profiles.find? fun p => p.key = key
    let kept := file.profiles.filter fun p => p.key ≠ key ∧ ¬ (obsolete = some p.key ∧ ¬ p.verified)
    let profile : SavedProfile :=
      { key
        host := e.host
        user := e.user.filter (· ≠ [])
        port := e.port
        verified := ¬ pending ∨ old.any SavedProfile.verified
        pending
        environment := orOld extras.environment (old.bind SavedProfile.environment)
        identityFile := orOld extras.identityFile (old.bind SavedProfile.identityFile)
        proxyJump := orOld extras.proxyJump (old.bind SavedProfile.proxyJump)
        knownHosts := orOld extras.knownHosts (old.bind SavedProfile.knownHosts) }
    let written := setSessionFile s session
      { profiles := kept ++ [profile]
        pendingKey := if pending then some key else none
        lastKey := if pending then file.lastKey else some key }
    match obsolete with
    | some oldKey => deletePending written oldKey
    | none => written

/-- `ssh_session_profile_discard_pending`. -/
def sessionProfileDiscardPending (s : State) (session key : Text) : State :=
  let file := sessionFile s session
  if file.pendingKey = some key then
    setSessionFile s session
      { file with
        profiles := (file.profiles.filter fun p => p.key ≠ key ∨ p.verified).map fun p =>
          if p.key = key then { p with pending := false } else p
        pendingKey := none }
  else s

/-! ### Prompts -/

/-- What `ssh_session_prepare_prompt` finds in a prompt. -/
structure Parsed where
  host : Option Text
  user : Option Text
  environment : Option Text
  password : Option Text
  port : Int
  invalidTarget : Bool

/-- `ssh_endpoint_token_valid` for a host. -/
def hostTokenValid (s : Text) : Bool :=
  s ≠ [] ∧ s.all fun c => isAlnum c ∨ c ∈ ascii "._-:[]"

/-- `ssh_endpoint_token_valid` for a user. -/
def userTokenValid (s : Text) : Bool :=
  s ≠ [] ∧ s.all fun c => isAlnum c ∨ c ∈ ascii "-_."

structure Target where
  host : Option Text
  user : Option Text
  port : Int
  extras : Extras

def Target.fromSaved (t : Target) (p : SavedProfile) : Target where
  host := some p.host
  user := t.user.or p.user
  port := p.port
  extras :=
    { t.extras with
      identityFile := p.identityFile.or t.extras.identityFile
      proxyJump := p.proxyJump.or t.extras.proxyJump
      knownHosts := p.knownHosts.or t.extras.knownHosts }

def Target.fromEnvironment (t : Target) (p : SshProfile) : Target where
  host := p.host.or t.host
  user := t.user.or p.user
  port := p.port.getD t.port
  extras :=
    { t.extras with
      identityFile := p.identityFile.or t.extras.identityFile
      proxyJump := p.proxyJump.or t.extras.proxyJump
      knownHosts := p.knownHosts.or t.extras.knownHosts }

def Target.open (t : Target) (password : Option Text) : Bool :=
  t.host.isNone ∧ (password.isSome ∨ t.user.isSome ∨ t.extras.environment.isSome)

/-- The saved profile of the chat, unless it is a settled one under the name the prompt gives. -/
def Target.fillSaved (t : Target) (s : State) (session : Text) (password : Option Text) : Target :=
  if t.open password then
    match sessionProfileGet s session t.extras.environment with
    | some p =>
      if t.extras.environment.isNone ∨ p.pending then
        { t.fromSaved p with
          extras := { (t.fromSaved p).extras with environment := t.extras.environment.or p.environment } }
      else t
    | none => t
  else t

def Target.fillEnvironment (t : Target) (s : State) : Target :=
  if t.host.isNone then
    match t.extras.environment.bind s.environments with
    | some p => t.fromEnvironment p
    | none => t
  else t

def Target.fillLast (t : Target) (s : State) (session : Text) (password : Option Text) : Target :=
  if t.open password then
    match sessionProfileGet s session t.extras.environment with
    | some p => t.fromSaved p
    | none => t
  else t

def Target.fillDotted (t : Target) : Target :=
  match t.host, t.extras.environment with
  | none, some name =>
    if hostTokenValid name ∧ 46 ∈ name then { t with host := some name, extras := { t.extras with environment := none } }
    else t
  | _, _ => t

def promptTarget (s : State) (session : Text) (parsed : Parsed) : Target :=
  let found : Target :=
    { host := parsed.host.filter hostTokenValid
      user := parsed.user.filter userTokenValid
      port := parsed.port
      extras := { noExtras with environment := parsed.environment.filter nameValid } }
  let t := (((found.fillSaved s session parsed.password).fillEnvironment s).fillLast s session parsed.password).fillDotted
  { t with host := t.host.filter hostTokenValid, user := t.user.filter userTokenValid }

def invalidTarget (parsed : Parsed) : Bool :=
  parsed.invalidTarget ∨ parsed.host.any (fun h => ¬ hostTokenValid h) ∨ parsed.user.any fun u => ¬ userTokenValid u

/-- `ssh_session_prepare_prompt` behind the recognition of the fields: the endpoint is staged, and
its password under the pending key. -/
def sessionPreparePrompt (s : State) (session : Text) (parsed : Parsed) : State :=
  let session := if session = [] then ascii "default" else session
  let t := promptTarget s session parsed
  match t.host with
  | none => s
  | some host =>
    if invalidTarget parsed then s
    else
      let e : Endpoint := { host, user := t.user, port := t.port }
      match sessionVaultKey session e with
      | none => s
      | some key =>
        match sessionPendingKey key, sessionProfileRecordEx s session e t.extras true with
        | some pending, some recorded =>
          match parsed.password with
          | none => recorded
          | some password =>
            match vaultPut recorded pending password with
            | some stored => { stored with staged := stored.staged ++ [{ session, endpoint := e, password }] }
            | none => sessionProfileDiscardPending recorded session key
        | _, _ => sessionProfileDiscardPending s session key

end CognitiveOs.Action.Ssh
