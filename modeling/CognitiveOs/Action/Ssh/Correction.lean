import CognitiveOs.Action.Ssh.Session

/-!
# A correction that fails

A prompt stages an endpoint, the login fails and the pending profile is discarded: what is left of
the profiles that were verified before.
-/

namespace CognitiveOs.Action.Ssh.Session

open Foundation Infra

/-! ### The keys of reachable files -/

variable {session key : Text} {e : Endpoint} {file : SessionFile} {s : State}

/-- Each key has one profile, and no key is the name of a pending secret. -/
structure Keyed (file : SessionFile) : Prop where
  keys : (file.profiles.map SavedProfile.key).Nodup
  names : ∀ p ∈ file.profiles, p.key.head? = some 115

theorem head_sessionVaultKey (known : sessionVaultKey session e = some key) : key.head? = some 115 := by
  unfold sessionVaultKey at known
  split at known
  · cases known
  · obtain ⟨endpoint, -, rfl⟩ := Option.map_eq_some_iff.mp known
    rfl

theorem Keyed.recorded (keyed : Keyed file) (known : sessionVaultKey session e = some key) (extras : Extras)
    (pending : Bool) :
    Keyed (recorded file key e extras pending) where
  keys := keys_recorded keyed.keys key e extras pending
  names := by
    intro p member
    rcases mem_recorded member with ⟨before, -⟩ | ⟨rfl, -⟩
    · exact keyed.names p before
    · exact head_sessionVaultKey known

theorem Keyed.discarded (keyed : Keyed file) (key : Text) : Keyed (discarded file key) where
  keys := keys_discarded keyed.keys key
  names := by
    intro p member
    obtain ⟨q, before, same, -⟩ := mem_discarded member
    exact same ▸ keyed.names q before

theorem Keyed.forgotten (keyed : Keyed file) (key : Text) : Keyed (forgotten file key) where
  keys := keyed.keys.sublist (List.filter_sublist.map _)
  names _ member := keyed.names _ (mem_forgotten.mp member).1

theorem keyed_step (keyed : ∀ session, Keyed (sessionFile s session)) (label : Label) (session : Text) :
    Keyed (sessionFile (step s label) session) := by
  rcases step_cases s label with ⟨same, -⟩ | ⟨here, file, written, what⟩
  · rw [same]
    exact keyed session
  · rw [sessionFile_of_sessions written]
    split
    · rcases what with ⟨e, extras, pending, key, -, known, rfl⟩ | ⟨key, -, rfl, -⟩ | ⟨key, rfl, -⟩ | ⟨rfl, -⟩
      · exact (keyed here).recorded known extras pending
      · exact (keyed here).discarded key
      · exact (keyed here).forgotten key
      · exact ⟨List.nodup_nil, fun _ member => absurd member List.not_mem_nil⟩
    · exact keyed session

def Reachable (s : State) : Prop :=
  ∃ labels t, sessions.Run empty labels t ∧ s.sessions = t.sessions

theorem Reachable.keyed (reachable : Reachable s) (session : Text) : Keyed (sessionFile s session) := by
  obtain ⟨labels, t, run, same⟩ := reachable
  have all : ∀ session, Keyed (sessionFile t session) := by
    refine @Machine.Run.invariant _ _ _ (fun s => ∀ session, Keyed (sessionFile s session)) ?_ _ _ _ run ?_
    · rintro s label _ before rfl
      exact keyed_step before label
    · exact fun session => ⟨List.nodup_nil, fun _ member => absurd member List.not_mem_nil⟩
  rw [sessionFile, same]
  exact all session

/-! ### Staging and discarding -/

/-- `ssh_session_profile_stage`, and `ssh_session_profile_discard_pending` of its key. -/
def failedCorrection (s : State) (session key : Text) (e : Endpoint) (extras : Extras) : State :=
  sessionProfileDiscardPending ((sessionProfileRecordEx s session e extras true).getD s) session key

def SavedProfile.SameFields (p q : SavedProfile) : Prop :=
  q.environment = p.environment ∧ q.identityFile = p.identityFile ∧ q.proxyJump = p.proxyJump ∧
    q.knownHosts = p.knownHosts

/-- What was verified is as it was: the profiles of the session, its last key and the passwords. -/
structure Untouched (s s' : State) (session : Text) : Prop where
  profiles : ∀ p ∈ (sessionFile s session).profiles, p.verified = true →
    ∃ q ∈ (sessionFile s' session).profiles, q.key = p.key ∧ q.verified = true ∧ SavedProfile.SameFields p q
  last : (sessionFile s' session).lastKey = (sessionFile s session).lastKey
  passwords : ∀ other, ∀ p ∈ (sessionFile s other).profiles, p.verified = true → s'.vault p.key = s.vault p.key

def Repeats (file : SessionFile) (key : Text) (extras : Extras) : Prop :=
  ∀ p ∈ file.profiles, p.key = key → p.verified = true →
    orOld extras.environment p.environment = p.environment ∧ orOld extras.identityFile p.identityFile = p.identityFile ∧
      orOld extras.proxyJump p.proxyJump = p.proxyJump ∧ orOld extras.knownHosts p.knownHosts = p.knownHosts

theorem sessionFile_staged (known : sessionVaultKey session e = some key) (extras : Extras) :
    sessionFile ((sessionProfileRecordEx s session e extras true).getD s) session =
      recorded (sessionFile s session) key e extras true := by
  rcases step_cases s (.record session e extras true) with ⟨-, unnamed⟩ | ⟨here, file, written, what⟩
  · rw [unnamed session e extras true rfl] at known
    cases known
  · have place := sessionFile_of_sessions written session
    rcases what with ⟨e', extras', pending, key', same, known', rfl⟩ | ⟨_, _, _, other⟩ | ⟨_, _, other⟩ | ⟨_, other⟩
    · obtain ⟨rfl, rfl, rfl, rfl⟩ := Label.record.inj same
      obtain rfl := Option.some.inj (known.symm.trans known')
      rw [if_pos rfl] at place
      exact place
    all_goals cases other

theorem sessionFile_failed (known : sessionVaultKey session e = some key) (extras : Extras) :
    sessionFile (failedCorrection s session key e extras) session =
      discarded (recorded (sessionFile s session) key e extras true) key := by
  have staged := sessionFile_staged (s := s) known extras
  have isPending : (recorded (sessionFile s session) key e extras true).pendingKey = some key := by
    simp [recorded]
  unfold failedCorrection sessionProfileDiscardPending
  simp only [staged, isPending, if_true]
  simp [sessionFile, setSessionFile, discarded]

theorem vault_failed (s : State) (session key : Text) (e : Endpoint) (extras : Extras) {name : Text}
    (start : name.head? = some 115) : (failedCorrection s session key e extras).vault name = s.vault name := by
  have deleted (s : State) (key : Text) : (deletePending s key).vault name = s.vault name := by
    unfold deletePending sessionPendingKey
    split
    · next pending named =>
      split at named
      · obtain rfl := Option.some.inj named
        unfold vaultDelete
        split
        · apply Function.update_of_ne
          rintro rfl
          exact absurd start (by simp [ascii])
        · rfl
      · cases named
    · rfl
  have discards (s : State) : (sessionProfileDiscardPending s session key).vault = s.vault := by
    simp only [sessionProfileDiscardPending]
    split <;> rfl
  unfold failedCorrection
  rw [discards]
  unfold sessionProfileRecordEx
  cases sessionVaultKey session e with
  | none => rfl
  | some key =>
    simp only [Option.map_some, Option.getD_some]
    split
    · exact deleted _ _
    · rfl

theorem corrected_profile (keyed : Keyed file) {p : SavedProfile} (member : p ∈ file.profiles) (here : p.key = key)
    (verified : p.verified = true) (e : Endpoint) (extras : Extras) {q : SavedProfile} :
    q ∈ (discarded (recorded file key e extras true) key).profiles ∧ q.key = key ↔
      q = { key, host := e.host, user := e.user.filter (· ≠ []), port := e.port, verified := true, pending := false
            environment := orOld extras.environment p.environment
            identityFile := orOld extras.identityFile p.identityFile
            proxyJump := orOld extras.proxyJump p.proxyJump
            knownHosts := orOld extras.knownHosts p.knownHosts } := by
  have found : file.profiles.find? (fun p => p.key = key) = some p := by
    obtain ⟨q, found⟩ : ∃ q, file.profiles.find? (fun q => q.key = key) = some q :=
      Option.isSome_iff_exists.mp (List.find?_isSome.mpr ⟨p, member, by simpa using here⟩)
    have same : q.key = key := by simpa using List.find?_some found
    have unique := List.inj_on_of_nodup_map keyed.keys (List.mem_of_find?_eq_some found) member (same.trans here.symm)
    rw [found, unique]
  simp only [discarded, recorded, List.mem_map, List.mem_filter, List.mem_append, List.mem_singleton, found,
    Option.bind_some, Option.any_some, verified, not_true_eq_false, or_true, decide_true]
  constructor
  · rintro ⟨⟨r, ⟨⟨-, other⟩ | rfl, -⟩, rfl⟩, isKey⟩
    · have apart : r.key ≠ key := by
        simp only [decide_eq_true_eq] at other
        exact other.1
      rw [if_neg apart] at isKey
      exact absurd isKey apart
    · simp
  · rintro rfl
    refine ⟨⟨_, ⟨.inr rfl, ?_⟩, ?_⟩, rfl⟩
    · simp
    · simp

/-- A failed correction leaves everything verified as it was exactly when the values given for a
verified endpoint are those it has. -/
theorem untouched_iff {s : State} (reachable : Reachable s) {session key : Text} {e : Endpoint}
    (known : sessionVaultKey session e = some key) (extras : Extras) :
    Untouched s (failedCorrection s session key e extras) session ↔
      Repeats (sessionFile s session) key extras := by
  have keyed := reachable.keyed session
  constructor
  · intro untouched p member here verified
    obtain ⟨q, present, same, -, fields⟩ := untouched.profiles p member verified
    rw [sessionFile_failed known] at present
    have corrected := (corrected_profile keyed member here verified e extras).mp ⟨present, same.trans here⟩
    subst corrected
    exact fields
  · intro repeats
    constructor
    · intro p member verified
      rw [sessionFile_failed known]
      by_cases here : p.key = key
      · obtain ⟨present, isKey⟩ := (corrected_profile keyed member here verified e extras).mpr rfl
        exact ⟨_, present, here.symm, rfl, repeats p member here verified⟩
      · refine ⟨p, ?_, rfl, verified, rfl, rfl, rfl, rfl⟩
        have staged : p ∈ (recorded (sessionFile s session) key e extras true).profiles :=
          kept_recorded member here (.inr verified)
        refine List.mem_map.mpr ⟨p, List.mem_filter.mpr ⟨staged, by simp [verified]⟩, ?_⟩
        rw [if_neg here]
    · rw [sessionFile_failed known]
      simp [discarded, recorded]
    · intro other p member _
      exact vault_failed s session key e extras ((reachable.keyed other).names p member)

def loginFirst : Label :=
  .record (ascii "chat") first { noExtras with identityFile := some (ascii "id_a") } false

def recordedFirst : State :=
  step empty loginFirst

theorem reachable_recordedFirst : Reachable recordedFirst :=
  ⟨[loginFirst], recordedFirst, Machine.run_ofFun_iff.mpr rfl, rfl⟩

def firstKey : Text :=
  (sessionVaultKey (ascii "chat") first).getD []

theorem known_firstKey : sessionVaultKey (ascii "chat") first = some firstKey := by
  rfl

/-- A failed correction of the second host. -/
theorem untouched_iff_second :
    Untouched recordedFirst (failedCorrection recordedFirst (ascii "chat")
        ((sessionVaultKey (ascii "chat") second).getD []) second noExtras) (ascii "chat") ↔
      Repeats (sessionFile recordedFirst (ascii "chat")) ((sessionVaultKey (ascii "chat") second).getD []) noExtras :=
  untouched_iff reachable_recordedFirst rfl noExtras

/-- A failed correction of the first host with another identity file leaves the new file in the verified
profile. -/
theorem identity_kept : Reachable recordedFirst ∧ sessionVaultKey (ascii "chat") first = some firstKey ∧
    ¬ Untouched recordedFirst (failedCorrection recordedFirst (ascii "chat") firstKey first
      { noExtras with identityFile := some (ascii "id_b") }) (ascii "chat") := by
  refine ⟨reachable_recordedFirst, known_firstKey, fun untouched => ?_⟩
  have all : ∀ p ∈ (sessionFile recordedFirst (ascii "chat")).profiles, p.verified = true ∧
      p.identityFile = some (ascii "id_a") := by decide
  have after : ∀ q ∈ (sessionFile (failedCorrection recordedFirst (ascii "chat") firstKey first
      { noExtras with identityFile := some (ascii "id_b") }) (ascii "chat")).profiles,
      q.identityFile = some (ascii "id_b") := by decide
  have some_profile : (sessionFile recordedFirst (ascii "chat")).profiles ≠ [] := by decide
  obtain ⟨p, member⟩ := List.exists_mem_of_ne_nil _ some_profile
  obtain ⟨verified, identity⟩ := all p member
  obtain ⟨q, present, -, -, -, same, -⟩ := untouched.profiles p member verified
  rw [after q present, identity] at same
  exact absurd same (by decide)

end CognitiveOs.Action.Ssh.Session
