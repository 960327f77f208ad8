import CognitiveOs.Cognition.Run

/-!
# Repaired failures

The table of unresolved failures over rounds that commit or roll back. Actions resolve
failures one by one; nothing puts a resolved failure back when the round is undone.
-/

namespace CognitiveOs.Cognition

open Infra Os Foundation

variable (c : Config)

def Done.key (d : Done) : Text × Text :=
  (d.action.tool, failureScope c.workspace d.after d.action.tool d.action.args)

structure Repairs (r : Reasoning) (d : Done) (f : Failure) : Prop where
  succeeded : d.succeeded = true
  member : f ∈ (foundFailures c r d).entries
  resolved : resolves c.workspace d.after d.action.tool (d.key c).2 f = true

section Step

variable {c : Config} {r : Reasoning} {d : Done} {key : Text × Text}

theorem foundFailures_keys :
    (foundFailures c r d).keys = r.failures.keys ∧
      (foundFailures c r d).overflow = r.failures.overflow := by
  unfold foundFailures
  split
  · exact recordDiscoveredReadPaths_keys
  · exact ⟨rfl, rfl⟩

theorem perform_keys (noted : key ∈ r.failures.keys) :
    key ∈ (perform c r d).failures.keys ∨ ∃ f, f.key = key ∧ Repairs c r d f := by
  rw [perform_failures]
  cases succeeded : d.succeeded with
  | true =>
    have found : key ∈ (foundFailures c r d).keys := foundFailures_keys.1 ▸ noted
    rcases List.mem_map.mp found with ⟨f, member, rfl⟩
    cases resolved : resolves c.workspace d.after d.action.tool (d.key c).2 f with
    | true => exact Or.inr ⟨f, rfl, succeeded, member, resolved⟩
    | false => exact Or.inl (resolveFailedTool_keys member (Or.inr resolved))
  | false =>
    apply Or.inl
    simp only [Bool.false_eq_true, if_false]
    split
    · exact noteFailedTool_keys noted
    · exact noted

theorem perform_overflow (full : r.failures.overflow = true) :
    (perform c r d).failures.overflow = true := by
  rw [perform_failures]
  split
  · rw [resolveFailedTool_overflow, foundFailures_keys.2]
    exact full
  · split
    · exact noteFailedTool_overflow full
    · exact full

theorem perform_notes (failed : d.failed = true) (mutation : isFileMutation d.action.tool = true) :
    d.key c ∈ (perform c r d).failures.keys ∨ (perform c r d).failures.overflow = true := by
  have unsuccessful : d.succeeded = false := by
    unfold Done.failed at failed
    unfold Done.succeeded
    split at failed
    · simp_all
    · simp_all
    · cases failed
  rw [perform_failures, unsuccessful, failed]
  simp only [Bool.false_eq_true, if_false, if_true]
  rcases isFileMutation_iff.mp mutation with same | same
  all_goals
    apply noteFailedTool_notes
    · rw [same]; decide
    · rw [same]; decide

theorem foldl_keys (ds : List Done) (noted : key ∈ r.failures.keys) :
    key ∈ (ds.foldl (perform c) r).failures.keys ∨
      ∃ before d after, ds = before ++ d :: after ∧
        ∃ f, f.key = key ∧ Repairs c (before.foldl (perform c) r) d f := by
  induction ds generalizing r with
  | nil => exact Or.inl noted
  | cons d ds ih =>
    rcases perform_keys (d := d) noted with noted | ⟨f, same, repairs⟩
    · rcases ih noted with noted | ⟨before, d', after, rfl, repaired⟩
      · exact Or.inl noted
      · exact Or.inr ⟨d :: before, d', after, rfl, repaired⟩
    · exact Or.inr ⟨[], d, ds, rfl, f, same, repairs⟩

theorem foldl_overflow {ds : List Done} (full : r.failures.overflow = true) :
    (ds.foldl (perform c) r).failures.overflow = true := by
  induction ds generalizing r with
  | nil => exact full
  | cons d ds ih => exact ih (perform_overflow full)

end Step

/-! ### Rounds -/

/-- A round that is rolled back repairs no failure from before it, and no write or edit. -/
def Careful (t : Traced) : Label → Prop
  | .act round =>
    rollsBack c t.now round = true →
      ∀ before d after, donesOf c (beginRound t.now) round.actions = before ++ d :: after →
        ∀ f, Repairs c (before.foldl (perform c) (beginRound t.now)) d f →
          f.key ∉ t.now.failures.keys ∧ isFileMutation f.tool = false
  | _ => True

def Kept : List Event → Prop
  | .done _ :: rest => Kept rest
  | .finished :: _ => True
  | .committed _ _ :: _ => True
  | _ => False

/-- A later success of the same tool on the same path, in a round that was not rolled back. -/
def MadeGood (d : Done) (rest : List Event) : Prop :=
  ∃ between repair after, rest = between ++ .done repair :: after ∧ Kept after ∧
    repair.succeeded = true ∧ repair.action.tool = d.action.tool ∧
    scopeNow c.workspace repair.after (d.key c).2 = (repair.key c).2

def Accounted (t : Traced) : Prop :=
  ∀ before d rest, t.past = before ++ .done d :: rest → d.failed = true →
    isFileMutation d.action.tool = true →
    d.key c ∈ t.now.failures.keys ∨ t.now.failures.overflow = true ∨ MadeGood c d rest

section Round

variable {c : Config}

theorem Kept.append {events more : List Event} (kept : Kept events) : Kept (events ++ more) := by
  induction events with
  | nil => cases kept
  | cons event events ih =>
    cases event with
    | done d => exact ih kept
    | finished => trivial
    | committed before after => trivial
    | rolledBack before after => cases kept
    | closed completed => cases kept

theorem kept_dones {ds : List Done} {event : Event} (kept : Kept [event]) :
    Kept (ds.map Event.done ++ [event]) := by
  induction ds with
  | nil => exact kept
  | cons d ds ih => exact ih

theorem MadeGood.append {d : Done} {rest more : List Event} (good : MadeGood c d rest) :
    MadeGood c d (rest ++ more) := by
  rcases good with ⟨between, repair, after, rfl, kept, facts⟩
  exact ⟨between, repair, after ++ more, by simp, kept.append, facts⟩

theorem MadeGood.prepend {d : Done} {rest more : List Event} (good : MadeGood c d rest) :
    MadeGood c d (more ++ rest) := by
  rcases good with ⟨between, repair, after, rfl, facts⟩
  exact ⟨more ++ between, repair, after, by simp, facts⟩

theorem madeGood_of_repairs {r : Reasoning} {d repair : Done} {f : Failure} {before after : List Done}
    {event : Event} (mutation : isFileMutation d.action.tool = true) (same : f.key = d.key c)
    (repairs : Repairs c r repair f) (kept : Kept [event]) :
    MadeGood c d ((before ++ repair :: after).map Event.done ++ [event]) := by
  have toolSame : f.tool = d.action.tool := congrArg Prod.fst same
  have scopeSame : f.scope = (d.key c).2 := congrArg Prod.snd same
  have retry := resolves_mutation c.workspace repair.after (toolSame ▸ mutation) repairs.resolved
  refine ⟨before.map Event.done, repair, after.map Event.done ++ [event], by simp,
    kept_dones kept, repairs.succeeded, ?_, ?_⟩
  · rw [← retry.1, toolSame]
  · rw [← scopeSame, retry.2]

theorem round_accounts {r : Reasoning} {d : Done} {ds : List Done} {event : Event}
    (mutation : isFileMutation d.action.tool = true)
    (noted : d.key c ∈ r.failures.keys ∨ r.failures.overflow = true)
    (careful : ¬ Kept [event] → ∀ before repair after, ds = before ++ repair :: after →
      ∀ f, Repairs c (before.foldl (perform c) r) repair f → isFileMutation f.tool = false) :
    d.key c ∈ (ds.foldl (perform c) r).failures.keys ∨
      (ds.foldl (perform c) r).failures.overflow = true ∨
      MadeGood c d (ds.map Event.done ++ [event]) := by
  rcases noted with noted | full
  · rcases foldl_keys ds noted with noted | ⟨before, repair, after, rfl, f, same, repairs⟩
    · exact Or.inl noted
    · by_cases kept : Kept [event]
      · exact Or.inr (Or.inr (madeGood_of_repairs mutation same repairs kept))
      · have other := careful kept before repair after rfl f repairs
        rw [show f.tool = d.action.tool from congrArg Prod.fst same, mutation] at other
        cases other
  · exact Or.inr (Or.inl (foldl_overflow full))

theorem rolledBack_of_not_kept {r : Reasoning} {round : Round} (undone : ¬ Kept [ending c r round]) :
    rollsBack c r round = true := by
  unfold ending at undone
  split at undone
  · assumption
  · split at undone
    · exact absurd trivial undone
    · exact absurd trivial undone

theorem hAct_failures (r : Reasoning) (round : Round) :
    (hAct c r round).failures = (acted c r round).failures := by
  unfold hAct
  split <;> rfl

theorem rolledBack_keeps {t : Traced} {round : Round} (careful : Careful c t (.act round))
    (undone : rollsBack c t.now round = true) {key : Text × Text} (noted : key ∈ t.now.failures.keys) :
    key ∈ (hAct c t.now round).failures.keys := by
  rw [hAct_failures]
  rcases foldl_keys (c := c) (r := beginRound t.now)
    (donesOf c (beginRound t.now) round.actions) noted with noted | ⟨before, d, after, split, f, rfl, repairs⟩
  · exact noted
  · exact absurd noted (careful undone before d after split f repairs).1

theorem round_cases {ds : List Done} {event : Event} {before rest : List Event} {d : Done}
    (open' : ∀ d, event ≠ .done d) (split : ds.map Event.done ++ [event] = before ++ .done d :: rest) :
    ∃ first later, ds = first ++ d :: later ∧ rest = later.map Event.done ++ [event] := by
  rcases past_cases split with ⟨rest', inRound, rfl⟩ | ⟨before', last⟩
  · rcases List.map_eq_append_iff.mp inRound with ⟨first, later, rfl, -, tail⟩
    rcases List.map_eq_cons_iff.mp tail with ⟨d', later, rfl, same, rfl⟩
    cases same
    exact ⟨first, later, rfl, rfl⟩
  · rcases List.append_eq_cons_iff.mp last.symm with ⟨-, single⟩ | ⟨_, -, impossible⟩
    · exact absurd (List.cons.inj single).1.symm (open' d)
    · simp at impossible

theorem act_accounts {t : Traced} {round : Round} (careful : Careful c t (.act round))
    (accounted : Accounted c t) : Accounted c (step c t (.act round)) := by
  intro before d rest split failed mutation
  show d.key c ∈ (hAct c t.now round).failures.keys ∨ (hAct c t.now round).failures.overflow = true ∨ _
  rw [hAct_failures]
  have careful' : ¬ Kept [ending c t.now round] → ∀ before repair after,
      donesOf c (beginRound t.now) round.actions = before ++ repair :: after →
        ∀ f, Repairs c (before.foldl (perform c) (beginRound t.now)) repair f →
          isFileMutation f.tool = false := by
    intro undone before repair after split f repairs
    exact (careful (rolledBack_of_not_kept undone) before repair after split f repairs).2
  rcases past_cases split with ⟨rest', earlier, rfl⟩ | ⟨before', inRound⟩
  · rcases accounted before d rest' earlier failed mutation with noted | full | good
    · rcases round_accounts (r := beginRound t.now) mutation (Or.inl noted) careful' with noted | full | good
      · exact Or.inl noted
      · exact Or.inr (Or.inl full)
      · exact Or.inr (Or.inr good.prepend)
    · exact Or.inr (Or.inl (foldl_overflow full))
    · exact Or.inr (Or.inr good.append)
  · rcases round_cases (ending_ne_done t.now round) inRound with ⟨first, later, inside, rfl⟩
    have noted := perform_notes (c := c) (r := first.foldl (perform c) (beginRound t.now)) failed
      mutation
    have rest : ¬ Kept [ending c t.now round] → ∀ before repair after,
        later = before ++ repair :: after → ∀ f,
        Repairs c (before.foldl (perform c)
          (perform c (first.foldl (perform c) (beginRound t.now)) d)) repair f →
        isFileMutation f.tool = false := by
      rintro undone before repair after rfl f repairs
      apply careful' undone (first ++ d :: before) repair after
      · simpa using inside
      · simpa using repairs
    have accounts := round_accounts mutation noted rest
    unfold acted
    rw [inside]
    simpa using accounts

end Round

/-! ### Decisions -/

section Decisions

variable {c : Config} {w : World} {key : Text × Text}

def KeepsMutations (before after : Failures) : Prop :=
  (∀ key ∈ before.keys, isFileMutation key.1 = true → key ∈ after.keys) ∧
    (before.overflow = true → after.overflow = true)

theorem KeepsMutations.refl (t : Failures) : KeepsMutations t t :=
  ⟨fun _ noted _ => noted, id⟩

theorem KeepsMutations.trans {a b d : Failures} (first : KeepsMutations a b)
    (second : KeepsMutations b d) : KeepsMutations a d :=
  ⟨fun key noted mutation => second.1 key (first.1 key noted mutation) mutation,
    fun full => second.2 (first.2 full)⟩

theorem resolveOptional_keeps (steps : List RunStep) (t : Failures) (entry : Json) :
    KeepsMutations t (resolveOptional c w steps t entry) := by
  have resolved (args : Option Json) :
      KeepsMutations t (resolveFailedTool c.workspace w t (ascii "file_read") args) := by
    constructor
    · intro key noted mutation
      rcases List.mem_map.mp noted with ⟨f, member, rfl⟩
      apply resolveFailedTool_keys member
      apply Or.inr
      cases resolved : resolves c.workspace w (ascii "file_read")
        (failureScope c.workspace w (ascii "file_read") args) f with
      | false => rfl
      | true =>
        have same : f.tool = ascii "file_read" := (resolves_mutation _ _ mutation resolved).1
        rw [Failure.key, same] at mutation
        exact absurd mutation (show ¬ isFileMutation (ascii "file_read") = true by decide)
    · intro full
      rwa [resolveFailedTool_overflow]
  unfold resolveOptional
  split
  · simp only
    split
    · exact KeepsMutations.refl t
    · split
      · exact KeepsMutations.refl t
      · split
        · exact resolved _
        · exact KeepsMutations.refl t
  · exact KeepsMutations.refl t

theorem resolveOptionals_keeps (steps : List RunStep) (entries : List Json) (t : Failures) :
    KeepsMutations t (entries.foldl (resolveOptional c w steps) t) := by
  induction entries generalizing t with
  | nil => exact KeepsMutations.refl t
  | cons entry entries ih => exact (resolveOptional_keeps steps t entry).trans (ih _)

theorem resolveOptionalMissingReads_keeps (r : Reasoning) (decision : Json) :
    KeepsMutations r.failures (resolveOptionalMissingReads c w r decision).failures := by
  unfold resolveOptionalMissingReads
  simp only
  split
  · exact resolveOptionals_keeps r.registry.steps _ r.failures
  · exact KeepsMutations.refl r.failures

theorem hReason_keeps (r : Reasoning) (d : Decision) :
    KeepsMutations r.failures (hReason c r d).failures := by
  have first : (declareContract c r d).1.failures = r.failures := by
    unfold declareContract
    split <;> rfl
  rw [← first]
  unfold hReason
  generalize declareContract c r d = decided
  rcases decided with ⟨r, planned⟩
  cases planned with
  | true =>
    cases d.completion with
    | none => exact KeepsMutations.refl r.failures
    | some completion => exact resolveOptionalMissingReads_keeps r completion
  | false =>
    show KeepsMutations r.failures (noteRejected c r d).failures
    unfold noteRejected
    split
    · exact KeepsMutations.refl r.failures
    · simp only
      split
      · exact KeepsMutations.refl r.failures
      · exact ⟨fun _ noted _ => noteFailedTool_keys noted, noteFailedTool_overflow⟩

end Decisions

/-! ### Runs -/

section Runs

variable {c : Config}

theorem Accounted.of_keeps {t u : Traced} {events : List Event} (accounted : Accounted c t)
    (kept : KeepsMutations t.now.failures u.now.failures) (past : u.past = t.past ++ events)
    (idle : ∀ d, .done d ∉ events) : Accounted c u := by
  intro before d rest split failed mutation
  rw [past] at split
  rcases past_cases split with ⟨rest', earlier, rfl⟩ | ⟨before', here⟩
  · rcases accounted before d rest' earlier failed mutation with noted | full | good
    · exact Or.inl (kept.1 (d.key c) noted mutation)
    · exact Or.inr (Or.inl (kept.2 full))
    · exact Or.inr (Or.inr good.append)
  · exact absurd (here ▸ by simp) (idle d)

theorem step_accounts {t u : Traced} {l : Label} (accounted : Accounted c t)
    (taken : (loop c).restrict (Careful c) t l u) : Accounted c u := by
  rcases taken with ⟨careful, taken⟩
  obtain rfl : step c t l = u := taken
  cases l with
  | act round => exact act_accounts careful accounted
  | contract w input =>
    exact accounted.of_keeps (KeepsMutations.refl _) (List.append_nil _).symm (by simp)
  | reason d =>
    exact accounted.of_keeps (hReason_keeps t.now d) (List.append_nil _).symm (by simp)
  | fold => exact accounted.of_keeps (KeepsMutations.refl _) (List.append_nil _).symm (by simp)
  | steer => exact accounted.of_keeps (KeepsMutations.refl _) (List.append_nil _).symm (by simp)
  | close g =>
    have same := gateVerified_failures (c := c) t.now g
    refine accounted.of_keeps ?_ rfl (by simp)
    show KeepsMutations t.now.failures (gateVerified c t.now g).failures
    rw [same]
    exact KeepsMutations.refl _

theorem run_accounts {t : Traced} {ls : List Label}
    (run : ((loop c).restrict (Careful c)).Run {} ls t) : Accounted c t := by
  apply run.invariant (fun _ _ _ accounted taken => step_accounts accounted taken)
  intro before d rest split
  simp at split

end Runs

/-- In every run whose rolled back rounds repair nothing, such a round leaves every earlier
failure unresolved, and a completed run has made good every failed write and edit in a
round that was kept. -/
theorem rollback_repairs_nothing (c : Config) {ls : List Label} {t : Traced}
    (run : ((loop c).restrict (Careful c)).Run {} ls t) :
    (∀ round, Careful c t (.act round) → rollsBack c t.now round = true →
      ∀ key ∈ t.now.failures.keys, key ∈ (hAct c t.now round).failures.keys) ∧
    ∀ g, completes c t.now g = true → ∀ before d rest, t.past = before ++ .done d :: rest →
      d.failed = true → isFileMutation d.action.tool = true → MadeGood c d rest := by
  constructor
  · intro round careful undone key noted
    exact rolledBack_keeps careful undone noted
  · intro g completed before d rest split failed mutation
    have same := gateVerified_failures (c := c) t.now g
    rcases completes_iff c |>.mp completed with ⟨-, -, -, -, -, -, -, -, resolved, room⟩
    rw [same] at resolved room
    rcases run_accounts run before d rest split failed mutation with noted | full | good
    · simp [Failures.keys, resolved] at noted
    · rw [room] at full
      cases full
    · exact good

/-! ### A retry in a round that is undone -/

def editA : PlannedAction :=
  { tool := ascii "file_edit", args := some (.object [(ascii "path", .string (ascii "a"))]) }

def failingEdit : Round :=
  { actions := [(editA, quietly false)], validates := false, before := oneFile 3 1, after := oneFile 3 1 }

def undoneRetry : Round :=
  { actions := [(editA, quietly true), (shellMake, quietly false)], validates := false
    before := oneFile 3 1, after := oneFile 3 1 }

def laterSuccess : Round :=
  { actions := [(shellMake, quietly true)], before := oneFile 3 1, after := oneFile 3 1 }

def failingShell : Round :=
  { actions := [(shellMake, quietly false)], validates := false, before := oneFile 3 1, after := oneFile 3 1 }

theorem careful_of_failing {c : Config} {t : Traced} {round : Round}
    (failing : (donesOf c (beginRound t.now) round.actions).all (fun d => !d.succeeded) = true) :
    Careful c t (.act round) := by
  intro _ before d after split f repairs
  have unsuccessful := List.all_eq_true.mp failing d (by rw [split]; simp)
  rw [repairs.succeeded] at unsuccessful
  cases unsuccessful

/-- The failed edit is still unresolved after another round was rolled back. -/
theorem rollback_repairs_nothing_edit :
    (ascii "file_edit", ascii "/w/a") ∈
      (hAct transactional (step transactional {} (.act failingEdit)).now failingShell).failures.keys := by
  have first : Careful transactional {} (.act failingEdit) := careful_of_failing (by decide)
  have run := Machine.Run.single
    (show ((loop transactional).restrict (Careful transactional)) {} (.act failingEdit)
      (step transactional {} (.act failingEdit)) from ⟨first, rfl⟩)
  apply (rollback_repairs_nothing transactional run).1 failingShell
  · exact careful_of_failing (by decide)
  · decide
  · decide

/-- The edit fails, its retry is rolled back with the failing command after it, the command
succeeds: the run completes without the edit. -/
theorem rollback_repairs_nothing_fails :
    ∃ t u, (loop transactional).Run {} [.act failingEdit] t ∧
      rollsBack transactional t.now undoneRetry = true ∧
      (ascii "file_edit", ascii "/w/a") ∈ t.now.failures.keys ∧
      (ascii "file_edit", ascii "/w/a") ∉ (hAct transactional t.now undoneRetry).failures.keys ∧
      (loop transactional).Run t [.act undoneRetry, .act laterSuccess] u ∧
      completes transactional u.now { world := oneFile 3 1 } = true := by
  refine ⟨_, _, Machine.Run.single rfl, ?_, ?_, ?_, Machine.Run.cons rfl (Machine.Run.single rfl), ?_⟩
  · decide
  · decide
  · decide
  · decide

end CognitiveOs.Cognition
