import CognitiveOs.Action.Ssh.Vault
import CognitiveOs.Foundation.Machine
import Mathlib.Data.List.Nodup

/-!
# The fields of a session's file

`action/ssh_vault.c`: staging, recording, discarding and forgetting, each as what it makes of the
session's file, and what stays consistent between the profiles, the pending key and the last key.
-/

namespace CognitiveOs.Action.Ssh

open Foundation Infra

/-- `ssh_session_profile_forget`, with `none` for a key that no profile has. -/
def sessionProfileForget (s : State) (session key : Text) : Option State :=
  let file := sessionFile s session
  if nameValid key ∧ (file.profiles.any fun p => p.key = key) then
    let profiles := file.profiles.filter fun p => p.key ≠ key
    let written := setSessionFile s session
      { profiles
        pendingKey := if file.pendingKey = some key then none else file.pendingKey
        lastKey :=
          if file.lastKey = some key then (profiles.reverse.find? SavedProfile.verified).map SavedProfile.key
          else file.lastKey }
    some (deletePending (vaultDelete written key) key)
  else none

namespace Session

inductive Label where
  /-- `ssh_session_profile_stage` when `pending`, else `ssh_session_profile_record`. -/
  | record (session : Text) (e : Endpoint) (extras : Extras) (pending : Bool)
  | discard (session key : Text)
  | forget (session key : Text)
  /-- A write went wrong, and the file is no object any more. -/
  | unreadable (session : Text)
  deriving DecidableEq

def step (s : State) : Label → State
  | .record session e extras pending => (sessionProfileRecordEx s session e extras pending).getD s
  | .discard session key => sessionProfileDiscardPending s session key
  | .forget session key => (sessionProfileForget s session key).getD s
  | .unreadable session => setSessionFile s session (sessionFile empty session)

def sessions : Machine State Label :=
  .ofFun step

/-! ### What each operation makes of the file -/

def recorded (file : SessionFile) (key : Text) (e : Endpoint) (extras : Extras) (pending : Bool) : SessionFile :=
  let obsolete := if pending then file.pendingKey.filter (· ≠ key) else none
  let old := file.profiles.find? fun p => p.key = key
  let kept := file.profiles.filter fun p => p.key ≠ key ∧ ¬ (obsolete = some p.key ∧ ¬ p.verified)
  let profile : SavedProfile :=
    { key
      host := e.host
      user := e.user.filter (· ≠ [])
      port := e.port
      verified := ¬ pending ∨ old.any SavedProfile.verified
      pending
      environment := orOld extras.environment (old.bind SavedProfile.environment)
      identityFile := orOld extras.identityFile (old.bind SavedProfile.identityFile)
      proxyJump := orOld extras.proxyJump (old.bind SavedProfile.proxyJump)
      knownHosts := orOld extras.knownHosts (old.bind SavedProfile.knownHosts) }
  { profiles := kept ++ [profile]
    pendingKey := if pending then some key else none
    lastKey := if pending then file.lastKey else some key }

def discarded (file : SessionFile) (key : Text) : SessionFile :=
  { file with
    profiles := (file.profiles.filter fun p => p.key ≠ key ∨ p.verified).map fun p =>
      if p.key = key then { p with pending := false } else p
    pendingKey := none }

def forgotten (file : SessionFile) (key : Text) : SessionFile :=
  let profiles := file.profiles.filter fun p => p.key ≠ key
  { profiles
    pendingKey := if file.pendingKey = some key then none else file.pendingKey
    lastKey :=
      if file.lastKey = some key then (profiles.reverse.find? SavedProfile.verified).map SavedProfile.key
      else file.lastKey }

@[simp] theorem sessions_vaultDelete (s : State) (name : Text) : (vaultDelete s name).sessions = s.sessions := by
  unfold vaultDelete
  split <;> rfl

@[simp] theorem sessions_deletePending (s : State) (key : Text) : (deletePending s key).sessions = s.sessions := by
  unfold deletePending
  split
  · exact sessions_vaultDelete s _
  · rfl

theorem step_cases (s : State) (label : Label) :
    (step s label = s ∧ ∀ session e extras pending, label = .record session e extras pending →
        sessionVaultKey session e = none) ∨ ∃ session file, (step s label).sessions = (setSessionFile s session file).sessions ∧
      ((∃ e extras pending key, label = .record session e extras pending ∧ sessionVaultKey session e = some key ∧
          file = recorded (sessionFile s session) key e extras pending) ∨
        (∃ key, (sessionFile s session).pendingKey = some key ∧ file = discarded (sessionFile s session) key ∧
          label = .discard session key) ∨
        (∃ key, file = forgotten (sessionFile s session) key ∧ label = .forget session key) ∨
        (file = sessionFile empty session ∧ label = .unreadable session)) := by
  cases label with
  | record session e extras pending =>
    cases known : sessionVaultKey session e with
    | none =>
      refine .inl ⟨by simp [step, sessionProfileRecordEx, known], ?_⟩
      rintro _ _ _ _ ⟨⟩
      exact known
    | some key =>
      refine .inr ⟨session, recorded (sessionFile s session) key e extras pending, ?_,
        .inl ⟨e, extras, pending, key, rfl, known, rfl⟩⟩
      simp only [step, sessionProfileRecordEx, known, Option.map_some, Option.getD_some]
      split
      · exact sessions_deletePending _ _
      · rfl
  | discard session key =>
    simp only [step, sessionProfileDiscardPending]
    split
    · rename_i named
      exact .inr ⟨session, discarded (sessionFile s session) key, rfl, .inr (.inl ⟨key, named, rfl, rfl⟩)⟩
    · exact .inl ⟨rfl, by simp⟩
  | forget session key =>
    simp only [step, sessionProfileForget]
    split
    · refine .inr ⟨session, forgotten (sessionFile s session) key, ?_, .inr (.inr (.inl ⟨key, rfl, rfl⟩))⟩
      simp only [Option.getD_some, sessions_deletePending, sessions_vaultDelete]
      rfl
    · exact .inl ⟨rfl, by simp⟩
  | unreadable session => exact .inr ⟨session, sessionFile empty session, rfl, .inr (.inr (.inr ⟨rfl, rfl⟩))⟩

/-! ### The invariant of a file -/

variable {file : SessionFile} {p : SavedProfile} {key : Text} {e : Endpoint} {pending : Bool}

structure Consistent (file : SessionFile) : Prop where
  keys : (file.profiles.map SavedProfile.key).Nodup
  flagged : ∀ p ∈ file.profiles, p.pending = true → file.pendingKey = some p.key
  named : ∀ key, file.pendingKey = some key → ∃ p ∈ file.profiles, p.key = key ∧ p.pending = true
  last : ∀ key, file.lastKey = some key → ∃ p ∈ file.profiles, p.key = key ∧ p.verified = true

theorem consistent_empty (session : Text) : Consistent (sessionFile empty session) := by
  constructor <;> simp [sessionFile, empty]

theorem Consistent.unique (consistent : Consistent file) {q : SavedProfile} (left : p ∈ file.profiles)
    (right : q ∈ file.profiles) (same : p.key = q.key) : p = q :=
  List.inj_on_of_nodup_map consistent.keys left right same

def Replaces (file : SessionFile) (key : Text) (pending : Bool) : Prop :=
  ∀ held, file.pendingKey = some held →
    held = key ∨ (pending = true ∧ ∀ p ∈ file.profiles, p.key = held → p.verified = false)

theorem mem_recorded {extras : Extras} (member : p ∈ (recorded file key e extras pending).profiles) :
    (p ∈ file.profiles ∧ p.key ≠ key ∧ ¬ (pending = true ∧ file.pendingKey = some p.key ∧ p.verified = false)) ∨
      (p.key = key ∧ p.pending = pending ∧
        p.verified = (!pending || (file.profiles.find? fun p => p.key = key).any SavedProfile.verified)) := by
  simp only [recorded, List.mem_append, List.mem_filter, List.mem_singleton] at member
  rcases member with ⟨before, kept⟩ | new
  · left
    obtain ⟨other, stays⟩ := of_decide_eq_true kept
    refine ⟨before, other, ?_⟩
    rintro ⟨rfl, held, unverified⟩
    exact stays ⟨by simp [held, other], by simp [unverified]⟩
  · right
    subst new
    refine ⟨rfl, rfl, ?_⟩
    cases pending <;> simp

theorem kept_recorded {extras : Extras} (member : p ∈ file.profiles) (other : p.key ≠ key)
    (stays : pending = false ∨ p.verified = true) : p ∈ (recorded file key e extras pending).profiles := by
  refine List.mem_append_left _ (List.mem_filter.mpr ⟨member, ?_⟩)
  rcases stays with recording | verified
  · simp [recording, other]
  · simp [verified, other]

theorem exists_recorded (file : SessionFile) (key : Text) (e : Endpoint) (extras : Extras) (pending : Bool) :
    ∃ p ∈ (recorded file key e extras pending).profiles, p.key = key ∧ p.pending = pending ∧
      p.verified = (!pending || (file.profiles.find? fun p => p.key = key).any SavedProfile.verified) := by
  refine ⟨_, List.mem_append_right _ (List.mem_singleton_self _), rfl, rfl, ?_⟩
  cases pending <;> simp

theorem keys_recorded (keys : (file.profiles.map SavedProfile.key).Nodup) (key : Text) (e : Endpoint)
    (extras : Extras) (pending : Bool) :
    ((recorded file key e extras pending).profiles.map SavedProfile.key).Nodup := by
  have kept := keys.sublist
    ((List.filter_sublist (p := fun p => decide (p.key ≠ key ∧
      ¬ ((if pending then file.pendingKey.filter (· ≠ key) else none) = some p.key ∧ ¬ p.verified)))).map
      SavedProfile.key)
  simp only [recorded, List.map_append, List.map_cons, List.map_nil]
  refine kept.append (List.nodup_singleton _) ?_
  intro name left right
  obtain ⟨p, member, rfl⟩ := List.mem_map.mp left
  have other := (of_decide_eq_true (List.mem_filter.mp member).2).1
  exact other (List.mem_singleton.mp right)

theorem Consistent.recorded (consistent : Consistent file) (e : Endpoint) (extras : Extras)
    (replaces : Replaces file key pending) :
    Consistent (recorded file key e extras pending) where
  keys := keys_recorded consistent.keys key e extras pending
  flagged := by
    intro p member flag
    rcases mem_recorded member with ⟨before, other, kept⟩ | ⟨rfl, same, -⟩
    · have held := consistent.flagged p before flag
      rcases replaces _ held with here | ⟨staging, unverified⟩
      · exact absurd here other
      · exact absurd ⟨staging, held, unverified p before rfl⟩ kept
    · rw [same] at flag
      simp [Session.recorded, flag]
  named := by
    intro name isPending
    cases pending with
    | false => simp [Session.recorded] at isPending
    | true =>
      obtain ⟨p, member, isKey, flag, -⟩ := exists_recorded file key e extras true
      simp only [Session.recorded, if_true, Option.some.injEq] at isPending
      exact ⟨p, member, isKey.trans isPending, flag⟩
  last := by
    intro name isLast
    obtain ⟨new, member, isKey, -, isVerified⟩ := exists_recorded file key e extras pending
    cases pending with
    | false =>
      simp only [Session.recorded, Bool.false_eq_true, if_false, Option.some.injEq] at isLast
      exact ⟨new, member, isKey.trans isLast, by simpa using isVerified⟩
    | true =>
      obtain ⟨p, before, rfl, verified⟩ := consistent.last name (by simpa [Session.recorded] using isLast)
      by_cases here : p.key = key
      · refine ⟨new, member, isKey.trans here.symm, ?_⟩
        obtain ⟨q, found⟩ : ∃ q, file.profiles.find? (fun q => q.key = key) = some q := by
          refine Option.isSome_iff_exists.mp (List.find?_isSome.mpr ⟨p, before, by simpa using here⟩)
        have sameKey : q.key = key := by simpa using List.find?_some found
        obtain rfl := consistent.unique (List.mem_of_find?_eq_some found) before (sameKey.trans here.symm)
        simpa [found, verified] using isVerified
      · exact ⟨p, kept_recorded before here (.inr verified), rfl, verified⟩

theorem keys_discarded (keys : (file.profiles.map SavedProfile.key).Nodup) (key : Text) :
    ((discarded file key).profiles.map SavedProfile.key).Nodup := by
  have same : ∀ p : SavedProfile,
      (SavedProfile.key ∘ fun p => if p.key = key then { p with pending := false } else p) p = p.key := by
    intro p
    simp only [Function.comp]
    split <;> rfl
  simp only [discarded, List.map_map, List.map_congr_left fun p _ => same p]
  exact keys.sublist (List.filter_sublist.map _)

theorem mem_discarded (member : p ∈ (discarded file key).profiles) :
    ∃ q ∈ file.profiles, q.key = p.key ∧ q.verified = p.verified ∧
      (p.key = key ∧ p.pending = false ∨ p.key ≠ key ∧ p = q) := by
  simp only [discarded, List.mem_map, List.mem_filter] at member
  obtain ⟨q, ⟨before, -⟩, rfl⟩ := member
  refine ⟨q, before, ?_⟩
  split <;> simp_all

theorem Consistent.discarded (consistent : Consistent file) (isPending : file.pendingKey = some key) :
    Consistent (discarded file key) where
  keys := keys_discarded consistent.keys key
  flagged := by
    intro p member flag
    obtain ⟨q, before, -, -, ⟨-, off⟩ | ⟨other, rfl⟩⟩ := mem_discarded member
    · simp [off] at flag
    · have held := consistent.flagged p before flag
      rw [isPending, Option.some.injEq] at held
      exact absurd held.symm other
  named := by simp [Session.discarded]
  last := by
    intro name isLast
    obtain ⟨p, before, rfl, verified⟩ := consistent.last name isLast
    refine ⟨if p.key = key then { p with pending := false } else p, ?_, ?_, ?_⟩
    · exact List.mem_map.mpr ⟨p, List.mem_filter.mpr ⟨before, by simp [verified]⟩, rfl⟩
    · split <;> rfl
    · split <;> exact verified

theorem mem_forgotten : p ∈ (forgotten file key).profiles ↔ p ∈ file.profiles ∧ p.key ≠ key := by
  simp [forgotten]

theorem Consistent.forgotten (consistent : Consistent file) (key : Text) :
    Consistent (forgotten file key) where
  keys := consistent.keys.sublist (List.filter_sublist.map _)
  flagged := by
    intro p member flag
    obtain ⟨before, other⟩ := mem_forgotten.mp member
    have held := consistent.flagged p before flag
    simp [Session.forgotten, held, other]
  named := by
    intro name isPending
    have elsewhere : file.pendingKey = some name ∧ name ≠ key := by
      simp only [Session.forgotten] at isPending
      split at isPending
      · cases isPending
      · rename_i differs
        exact ⟨isPending, fun same => differs (same ▸ isPending)⟩
    obtain ⟨p, before, isKey, flag⟩ := consistent.named name elsewhere.1
    exact ⟨p, mem_forgotten.mpr ⟨before, isKey ▸ elsewhere.2⟩, isKey, flag⟩
  last := by
    intro name isLast
    simp only [Session.forgotten] at isLast
    split at isLast
    · -- the last verified profile that is left takes its place
      obtain ⟨p, found, rfl⟩ := Option.map_eq_some_iff.mp isLast
      have member : p ∈ (Session.forgotten file key).profiles :=
        List.mem_reverse.mp (List.mem_of_find?_eq_some found)
      exact ⟨p, member, rfl, by simpa using List.find?_some found⟩
    · rename_i differs
      obtain ⟨p, before, isKey, verified⟩ := consistent.last name isLast
      have other : p.key ≠ key := fun same => differs (by rw [isLast, ← isKey, same])
      exact ⟨p, mem_forgotten.mpr ⟨before, other⟩, isKey, verified⟩

/-! ### Runs -/

variable {s : State}

/-- A prompt or a login for another endpoint meets no pending profile that it would leave flagged. -/
def Allowed (s : State) : Label → Prop
  | .record session e _ pending =>
    ∀ key, sessionVaultKey session e = some key → Replaces (sessionFile s session) key pending
  | _ => True

theorem not_consistent_of_left (consistent : Consistent file) (e : Endpoint) (extras : Extras)
    (leaves : ¬ Replaces file key pending) : ¬ Consistent (recorded file key e extras pending) := by
  intro after
  simp only [Replaces, not_forall, not_or, not_and] at leaves
  obtain ⟨held, isPending, other, verified⟩ := leaves
  obtain ⟨p, before, rfl, flag⟩ := consistent.named held isPending
  have stays : pending = false ∨ p.verified = true := by
    cases pending with
    | false => exact .inl rfl
    | true =>
      obtain ⟨q, member, same, isVerified⟩ := verified rfl
      obtain rfl := consistent.unique member before same
      exact .inr (by simpa using isVerified)
  have wrong := after.flagged p (kept_recorded before other stays) flag
  cases pending with
  | false => simp [recorded] at wrong
  | true =>
    simp only [recorded, if_true, Option.some.injEq] at wrong
    exact other wrong.symm

theorem sessionFile_of_sessions {t : State} {session : Text}
    (written : t.sessions = (setSessionFile s session file).sessions) (other : Text) :
    sessionFile t other = if sessionPath other = sessionPath session then file else sessionFile s other := by
  simp only [sessionFile, written, setSessionFile, Function.update_apply]

theorem consistent_step_iff (consistent : ∀ session, Consistent (sessionFile s session)) (label : Label) :
    (∀ session, Consistent (sessionFile (step s label) session)) ↔ Allowed s label := by
  rcases step_cases s label with ⟨same, unnamed⟩ | ⟨session, file, written, what⟩
  · rw [same]
    refine ⟨fun _ => ?_, fun _ => consistent⟩
    cases label with
    | record session e extras pending =>
      intro key known
      rw [unnamed session e extras pending rfl] at known
      cases known
    | discard | forget | unreadable => trivial
  · have here := sessionFile_of_sessions written
    have iff_file : (∀ other, Consistent (sessionFile (step s label) other)) ↔ Consistent file := by
      refine ⟨fun all => by simpa [here] using all session, fun good other => ?_⟩
      rw [here]
      split
      · exact good
      · exact consistent other
    rw [iff_file]
    rcases what with ⟨e, extras, pending, key, rfl, known, rfl⟩ | ⟨key, isPending, rfl, rfl⟩ | ⟨key, rfl, rfl⟩ |
      ⟨rfl, rfl⟩
    · have allowed : Allowed s (.record session e extras pending) ↔ Replaces (sessionFile s session) key pending := by
        simp [Allowed, known]
      rw [allowed]
      exact ⟨fun good => by_contra fun leaves => not_consistent_of_left (consistent session) e extras leaves good,
        fun replaces => (consistent session).recorded e extras replaces⟩
    · exact iff_of_true ((consistent session).discarded isPending) trivial
    · exact iff_of_true ((consistent session).forgotten key) trivial
    · exact iff_of_true (consistent_empty session) trivial

/-- In a run of allowed steps every file has the fields it should have, and from every state of such
a run a step leaves them so when it is allowed and only then. -/
theorem session_fields {labels : List Label} {s : State} (run : (sessions.restrict Allowed).Run empty labels s) :
    (∀ session, ((sessionFile s session).profiles.map SavedProfile.key).Nodup ∧
      (∀ p ∈ (sessionFile s session).profiles, ∀ q ∈ (sessionFile s session).profiles,
        p.pending = true → q.pending = true → p = q) ∧
      (∀ p ∈ (sessionFile s session).profiles, p.pending = true → (sessionFile s session).pendingKey = some p.key) ∧
      ∀ key, (sessionFile s session).lastKey = some key →
        ∃ p ∈ (sessionFile s session).profiles, p.key = key ∧ p.verified = true) ∧
      ∀ label, (∀ session, Consistent (sessionFile (step s label) session)) ↔ Allowed s label := by
  have consistent : ∀ session, Consistent (sessionFile s session) := by
    refine @Machine.Run.invariant _ _ _ (fun s => ∀ session, Consistent (sessionFile s session))
      ?_ _ _ _ run consistent_empty
    rintro s label _ before ⟨allowed, rfl⟩
    exact (consistent_step_iff before label).mpr allowed
  refine ⟨fun session => ⟨(consistent session).keys, ?_, (consistent session).flagged, (consistent session).last⟩,
    consistent_step_iff consistent⟩
  intro p left q right flagP flagQ
  have same := ((consistent session).flagged p left flagP).symm.trans ((consistent session).flagged q right flagQ)
  exact (consistent session).unique left right (Option.some.inj same)

/-! ### Two hosts -/

def first : Endpoint where
  host := ascii "10.0.0.8"
  user := some (ascii "root")
  port := 22

def second : Endpoint where
  host := ascii "10.0.0.9"
  user := some (ascii "root")
  port := 22

def elsewhere : List Label :=
  [.record (ascii "chat") first noExtras true, .record (ascii "chat") second noExtras false]

/-- The profile of the first host keeps its flag. -/
theorem session_fields_elsewhere :
    ∃ labels s, sessions.Run empty labels s ∧ ∃ session, ∃ p ∈ (sessionFile s session).profiles,
      p.pending = true ∧ (sessionFile s session).pendingKey ≠ some p.key :=
  ⟨elsewhere, _, Machine.run_ofFun_iff.mpr rfl, ascii "chat", by decide⟩

theorem allowed_again {session : Text} (extras : Extras) (pending : Bool)
    (same : (sessionFile s session).pendingKey = sessionVaultKey session e ∨ (sessionFile s session).pendingKey = none) :
    Allowed s (.record session e extras pending) := by
  intro key known held isPending
  rcases same with same | nothing
  · rw [known, isPending] at same
    exact .inl (Option.some.inj same)
  · simp [nothing] at isPending

/-- A host is staged, logged in on and staged again with a new password. -/
theorem session_fields_again :
    ∃ s : State, (sessions.restrict Allowed).Run empty
        [.record (ascii "chat") first noExtras true, .record (ascii "chat") first noExtras false,
          .record (ascii "chat") first noExtras true] s ∧
      ((sessionFile s (ascii "chat")).profiles.map SavedProfile.key).Nodup :=
  have run := Machine.Run.cons
    ⟨allowed_again noExtras true (.inr rfl), rfl⟩
    (Machine.Run.cons ⟨allowed_again noExtras false (.inl (by decide)), rfl⟩
      (Machine.Run.single ⟨allowed_again noExtras true (.inr (by decide)), rfl⟩))
  ⟨_, run, ((session_fields run).1 (ascii "chat")).1⟩

end Session

end CognitiveOs.Action.Ssh
