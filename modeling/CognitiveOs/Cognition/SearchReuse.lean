import CognitiveOs.Cognition.Run

/-!
# Reused searches

A `glob` or `grep` is answered from an earlier run of it. The signatures of the earlier
runs are dropped when a tool may have changed the files; what else changes them is the
condition of the results below.
-/

namespace CognitiveOs.Cognition

open Infra Os Foundation

def isLookup (tool : Text) : Bool :=
  tool = ascii "glob" || tool = ascii "grep"

def SameSearch (a b : PlannedAction) : Prop :=
  a.tool = b.tool ∧
    match a.args, b.args with
    | some x, some y => x.Same y
    | none, none => a.argsJson = b.argsJson
    | _, _ => False

def Event.Changes : Event → Prop
  | .done d => d.changes
  | .committed before after => before ≠ after
  | .rolledBack before after => before ≠ after
  | _ => False

def RanSince (found : Done → Prop) (past : List Event) : Prop :=
  ∃ before d between, past = before ++ .done d :: between ∧ found d ∧ d.outcome = .executed ∧
    d.env.ok = true ∧ isLookup d.action.tool = true ∧ ¬ d.changes ∧ ∀ e ∈ between, ¬ e.Changes

variable (c : Config)

/-- What the reuse of searches rests on, for one action: a read, a search or a probe changes
nothing while searches are remembered, and only equal searches have equal signatures. -/
structure Undisturbed (t : Traced) (d : Done) : Prop where
  quiet : d.changes → (isSearch d.action.tool || probeOnly d.action) = true →
    t.now.searches.searchSeen = [] ∧ ¬ (isLookup d.action.tool = true ∧ d.env.ok = true)
  distinct : isLookup d.action.tool = true → ∀ e, .done e ∈ t.past → e.outcome = .executed →
    e.env.ok = true → isLookup e.action.tool = true →
    semanticActionSignature c.number e.action = semanticActionSignature c.number d.action →
    SameSearch e.action d.action

/-- The same for the steps of the loop; the end of a transaction, too, changes nothing while
searches are remembered. -/
def Settled (t : Traced) : Label → Prop
  | .act round =>
    (∀ before d after, donesOf c t.opened.now round.actions = before ++ d :: after →
      Undisturbed c (before.foldl (tracedStep c) t.opened) d) ∧
    (c.useTransaction = true → round.before ≠ round.after →
      (acted c t.now round).searches.searchSeen = [])
  | _ => True

/-- Every remembered signature belongs to such a lookup, and so does every answer so far. -/
structure Valid (t : Traced) : Prop where
  remembered : ∀ sig ∈ t.now.searches.searchSeen,
    RanSince (fun d => semanticActionSignature c.number d.action = sig) t.past
  answered : ∀ before d rest, t.past = before ++ .done d :: rest → d.outcome = .reused →
    isLookup d.action.tool = true → RanSince (fun e => SameSearch e.action d.action) before

section Step

variable {c : Config}

theorem RanSince.snoc {found : Done → Prop} {past : List Event} {event : Event}
    (ran : RanSince found past) (still : ¬ event.Changes) : RanSince found (past ++ [event]) := by
  rcases ran with ⟨before, d, between, rfl, same, executed, ok, lookup, quiet, unchanged⟩
  refine ⟨before, d, between ++ [event], by simp, same, executed, ok, lookup, quiet, ?_⟩
  intro e member
  rcases List.mem_append.mp member with earlier | last
  · exact unchanged e earlier
  · rw [List.mem_singleton.mp last]
    exact still

theorem isLookup_iff {tool : Text} :
    isLookup tool = true ↔ isSearch tool = true ∧ isVersioned tool = false := by
  constructor
  · intro lookup
    simp only [isLookup, Bool.or_eq_true, decide_eq_true_eq] at lookup
    rcases lookup with rfl | rfl <;> decide
  · rintro ⟨search, unversioned⟩
    simp only [isSearch, Bool.or_eq_true, decide_eq_true_eq] at search
    rcases search with ((rfl | rfl) | rfl) | rfl
    · decide
    · decide
    · cases unversioned
    · cases unversioned

theorem searchSignature_lookup {a : PlannedAction} {w : World} (lookup : isLookup a.tool = true) :
    searchSignature c.number c.workspace w a = semanticActionSignature c.number a := by
  have unversioned := (isLookup_iff.mp lookup).2
  simp only [isVersioned, Bool.or_eq_false_iff, decide_eq_false_iff_not] at unversioned
  unfold searchSignature
  rw [if_neg unversioned.1, if_neg unversioned.2]

theorem mem_pushSeen {seen : List UInt64} {sig new : UInt64} (member : sig ∈ pushSeen seen new) :
    sig ∈ seen ∨ sig = new := by
  unfold pushSeen at member
  rcases List.mem_append.mp member with old | last
  · split at old
    · exact Or.inl (List.mem_of_mem_drop old)
    · exact Or.inl old
  · exact Or.inr (List.mem_singleton.mp last)

theorem not_changes_of_idle {d : Done} (idle : d.outcome ≠ .executed) : ¬ d.changes := by
  unfold Done.changes Done.after
  split
  · exact absurd ‹d.outcome = .executed› idle
  · exact fun differs => differs rfl

/-- What running a tool leaves of the searches: the old ones, unless a tool that may change the
files dropped them, and the new one when it is a lookup. -/
theorem searchesAfter_cases {s : Searches} {a : PlannedAction} {env : ActEnv} {sig : UInt64}
    (member : sig ∈ (searchesAfter c s a env).searchSeen) :
    ((isSearch a.tool || probeOnly a) = true ∧ sig ∈ s.searchSeen) ∨
      (isLookup a.tool = true ∧ env.ok = true ∧ sig = semanticActionSignature c.number a) := by
  have kept (member : sig ∈ (if isSearch a.tool || probeOnly a then s
      else { s with searchSeen := [] } : Searches).searchSeen) :
      (isSearch a.tool || probeOnly a) = true ∧ sig ∈ s.searchSeen := by
    split at member
    · exact ⟨‹_›, member⟩
    · cases member
  unfold searchesAfter at member
  simp only at member
  split at member
  · rename_i recorded
    rcases Bool.and_eq_true_iff.mp recorded with ⟨ok, search⟩
    unfold Searches.record at member
    split at member
    · exact Or.inl (kept member)
    · rename_i unversioned
      have lookup : isLookup a.tool = true := isLookup_iff.mpr ⟨search, by simpa using unversioned⟩
      rcases mem_pushSeen member with member | rfl
      · exact Or.inl (kept member)
      · exact Or.inr ⟨lookup, ok, searchSignature_lookup lookup⟩
  · exact Or.inl (kept member)

variable {x : PlannedAction × ActEnv}

theorem tracedStep_remembered {t : Traced} (undisturbed : Undisturbed c t (doneOf c t.now x)) (valid : Valid c t) :
    ∀ sig ∈ (tracedStep c t (doneOf c t.now x)).now.searches.searchSeen,
      RanSince (fun d => semanticActionSignature c.number d.action = sig)
        (tracedStep c t (doneOf c t.now x)).past := by
  intro sig member
  generalize doneOf c t.now x = d at undisturbed member ⊢
  simp only [tracedStep, perform_searches] at member ⊢
  split at member
  · rename_i executed
    rcases searchesAfter_cases member with ⟨kept, member⟩ | ⟨lookup, ok, rfl⟩
    · apply (valid.remembered sig member).snoc
      intro changes
      rw [(undisturbed.quiet changes kept).1] at member
      cases member
    · refine ⟨t.past, d, [], rfl, rfl, executed, ok, lookup, ?_, by simp⟩
      intro changes
      have searching : (isSearch d.action.tool || probeOnly d.action) = true := by
        simp [(isLookup_iff.mp lookup).1]
      exact (undisturbed.quiet changes searching).2 ⟨lookup, ok⟩
  · rename_i idle
    exact (valid.remembered sig member).snoc (not_changes_of_idle idle)

theorem reused_remembered {r : Reasoning} (reused : (doneOf c r x).outcome = .reused)
    (lookup : isLookup x.1.tool = true) : semanticActionSignature c.number x.1 ∈ r.searches.searchSeen := by
  have repeated : r.searches.repeated x.1.tool
      (searchSignature c.number c.workspace x.2.before x.1) = true := by
    simp only [doneOf, outcomeOf] at reused
    split at reused
    · cases reused
    · split at reused
      · cases reused
      · split at reused
        · rename_i found
          exact (Bool.and_eq_true_iff.mp found).2
        · cases reused
  rw [searchSignature_lookup lookup] at repeated
  simpa [Searches.repeated, Searches.of, (isLookup_iff.mp lookup).2] using
    (Bool.and_eq_true_iff.mp repeated).2

theorem tracedStep_valid {t : Traced} (undisturbed : Undisturbed c t (doneOf c t.now x)) (valid : Valid c t) :
    Valid c (tracedStep c t (doneOf c t.now x)) := by
  constructor
  · exact tracedStep_remembered undisturbed valid
  · intro before d rest split reused lookup
    rcases past_cases split with ⟨rest', earlier, -⟩ | ⟨before', last⟩
    · exact valid.answered before d rest' earlier reused lookup
    · rcases List.append_eq_cons_iff.mp last.symm with ⟨rfl, single⟩ | ⟨_, -, impossible⟩
      · cases single
        rcases valid.remembered _ (reused_remembered reused lookup) with
          ⟨earlier, e, between, past, same, executed, ok, found, quiet, unchanged⟩
        have before_eq : before = t.past := by
          simpa [tracedStep] using split.symm
        rw [before_eq, past]
        refine ⟨earlier, e, between, rfl, ?_, executed, ok, found, quiet, unchanged⟩
        exact undisturbed.distinct lookup e (by simp [past]) executed ok found same
      · simp at impossible

end Step

section Runs

variable {c : Config}

variable {t u : Traced}

theorem Valid.snoc {event : Event} (valid : Valid c t)
    (searches : u.now.searches.searchSeen = t.now.searches.searchSeen) (past : u.past = t.past ++ [event])
    (other : ∀ d, event ≠ .done d) (still : event.Changes → t.now.searches.searchSeen = []) : Valid c u := by
  constructor
  · intro sig member
    rw [searches] at member
    rw [past]
    apply (valid.remembered sig member).snoc
    intro changes
    rw [still changes] at member
    cases member
  · intro before d rest split reused lookup
    rw [past] at split
    rcases past_cases split with ⟨rest', earlier, -⟩ | ⟨before', last⟩
    · exact valid.answered before d rest' earlier reused lookup
    · rcases List.append_eq_cons_iff.mp last.symm with ⟨-, single⟩ | ⟨_, -, impossible⟩
      · exact absurd (List.cons.inj single).1.symm (other d)
      · simp at impossible

theorem Valid.of_subset (valid : Valid c t) (searches : u.now.searches.searchSeen ⊆ t.now.searches.searchSeen)
    (past : u.past = t.past) : Valid c u := by
  constructor
  · intro sig member
    rw [past]
    exact valid.remembered sig (searches member)
  · rw [past]
    exact valid.answered

theorem act_valid {round : Round} (settled : Settled c t (.act round)) (valid : Valid c t) :
    Valid c (step c t (.act round)) := by
  have opened : Valid c t.opened := valid.of_subset (List.Subset.refl _) rfl
  have acts : Valid c ((donesOf c t.opened.now round.actions).foldl (tracedStep c) t.opened) :=
    dones_invariant (fun t x => tracedStep_valid) round.actions settled.1 opened
  rcases step_act (c := c) t round with ⟨ended, past, now⟩
  have same : ((donesOf c t.opened.now round.actions).foldl (tracedStep c) t.opened).now =
      acted c t.now round := by
    rw [foldl_tracedStep]
    rfl
  refine acts.snoc ?_ past (ending_ne_done t.now round) ?_
  · rw [now, same]
  · intro changes
    rw [same]
    unfold ending at changes
    split at changes
    · rename_i undone
      exact settled.2 (Bool.and_eq_true_iff.mp undone).1 changes
    · split at changes
      · exact settled.2 ‹_› changes
      · cases changes

theorem step_valid {l : Label} (valid : Valid c t) (taken : (loop c).restrict (Settled c) t l u) : Valid c u := by
  rcases taken with ⟨settled, taken⟩
  obtain rfl : step c t l = u := taken
  cases l with
  | act round => exact act_valid settled valid
  | contract w input => exact valid.of_subset (List.Subset.refl _) rfl
  | reason d =>
    rcases hReason_frame (c := c) t.now d with ⟨acceptance, failures, fileChecks, same⟩
    refine valid.of_subset ?_ rfl
    show (hReason c t.now d).searches.searchSeen ⊆ _
    rw [same]
    exact List.Subset.refl _
  | fold => exact valid.of_subset (List.nil_subset _) rfl
  | steer => exact valid.of_subset (List.nil_subset _) rfl
  | close g =>
    rcases gateVerified_frame (c := c) t.now g with ⟨acceptance, fileChecks, same⟩
    refine valid.snoc ?_ rfl (by simp) (fun changes => changes.elim)
    show (gateVerified c t.now g).searches.searchSeen = _
    rw [same]

end Runs

/-- In every run in which reads, searches, probes and ended transactions change nothing while
searches are remembered, a lookup is answered from memory only when it ran successfully
earlier and nothing has changed the files since. -/
theorem reused_search_valid (c : Config) {ls : List Label} {t : Traced}
    (run : ((loop c).restrict (Settled c)).Run {} ls t) :
    ∀ before d rest, t.past = before ++ .done d :: rest → d.outcome = .reused →
      isLookup d.action.tool = true → RanSince (fun e => SameSearch e.action d.action) before := by
  have initial : Valid c {} := ⟨by simp, by intro before d rest split; simp at split⟩
  exact (run.invariant (fun _ _ _ valid taken => step_valid valid taken) initial).answered

theorem not_ranSince {found : Done → Prop} {past : List Event} {event : Event}
    (other : ∀ d, event ≠ .done d) (changes : event.Changes) : ¬ RanSince found (past ++ [event]) := by
  rintro ⟨before, d, between, split, -, -, -, -, -, unchanged⟩
  rcases past_cases split with ⟨rest', -, rfl⟩ | ⟨before', last⟩
  · exact unchanged event (by simp) changes
  · rcases List.append_eq_cons_iff.mp last.symm with ⟨-, single⟩ | ⟨_, -, impossible⟩
    · exact other d (List.cons.inj single).1.symm
    · simp at impossible

def grepX : PlannedAction :=
  { tool := ascii "grep", args := some (.object [(ascii "pattern", .string (ascii "x"))]) }

def searchTwice : Round :=
  { actions := [(grepX, quietly true), (grepX, quietly true)]
    before := oneFile 3 1
    after := oneFile 3 1 }

theorem settled_searchTwice : Settled transactional {} (.act searchTwice) := by
  refine ⟨?_, fun _ differs => absurd rfl differs⟩
  intro before d after split
  have only {e : Done} (member : e ∈ before ++ d :: after) :
      e.action = grepX ∧ e.env = quietly true := by
    rw [← split] at member
    simpa [searchTwice] using mem_donesOf transactional member
  have here : d.action = grepX ∧ d.env = quietly true := only (by simp)
  constructor
  · intro changes
    unfold Done.changes Done.after at changes
    rw [here.2] at changes
    split at changes <;> exact absurd rfl changes
  · intro _ e earlier _ _ _ _
    rw [foldl_tracedStep] at earlier
    have inRound : e ∈ before := by simpa [Traced.opened] using earlier
    rw [(only (List.mem_append_left _ inRound)).1, here.1]
    exact ⟨rfl, Json.Same.refl _⟩

/-- The second of two equal searches is answered from the first. -/
theorem reused_search_valid_twice :
    RanSince (fun e => SameSearch e.action grepX)
      [.done (doneOf transactional (beginRound {}) (grepX, quietly true))] := by
  have run := Machine.Run.single
    (show ((loop transactional).restrict (Settled transactional)) {} (.act searchTwice)
      (step transactional {} (.act searchTwice)) from ⟨settled_searchTwice, rfl⟩)
  let first := doneOf transactional (beginRound {}) (grepX, quietly true)
  apply reused_search_valid transactional run _
    (doneOf transactional (perform transactional (beginRound {}) first) (grepX, quietly true))
    [ending transactional {} searchTwice] rfl
  · decide
  · decide

def searchedWrite : Round :=
  { actions :=
      [({ tool := ascii "file_write", args := some (.object [(ascii "path", .string (ascii "a"))]) },
        { before := oneFile 3 1, after := oneFile 4 2 }),
      (grepX, { before := oneFile 4 2, after := oneFile 4 2 }),
      ({ tool := ascii "file_read", args := some (.object [(ascii "path", .string (ascii "b"))]) },
        { before := oneFile 4 2, after := oneFile 4 2, ok := false })]
    validates := false
    before := oneFile 4 2
    after := oneFile 3 3 }

def searchAgain : Round :=
  { actions := [(grepX, { before := oneFile 3 3, after := oneFile 3 3 })]
    before := oneFile 3 3
    after := oneFile 3 3 }

/-- The rollback takes the write back, and the search is still answered from memory. -/
theorem reused_search_valid_fails :
    ∃ before d rest, (step transactional (step transactional {} (.act searchedWrite))
        (.act searchAgain)).past = before ++ .done d :: rest ∧ d.outcome = .reused ∧
      isLookup d.action.tool = true ∧ ¬ RanSince (fun e => SameSearch e.action d.action) before := by
  let t := step transactional {} (.act searchedWrite)
  refine ⟨t.past, doneOf transactional (beginRound t.now) (grepX, _),
    [ending transactional t.now searchAgain], rfl, ?_, ?_, ?_⟩
  · decide
  · decide
  · have undone : rollsBack transactional {} searchedWrite = true := by decide
    show ¬ RanSince _ ((donesOf transactional (beginRound {}) searchedWrite.actions).map Event.done ++
      [ending transactional {} searchedWrite])
    apply not_ranSince (ending_ne_done {} searchedWrite)
    unfold ending
    rw [if_pos undone]
    intro same
    have sizes := congrArg (fun w => (w.stat (ascii "/w/a")).map Stat.size) same
    revert sizes
    decide

end CognitiveOs.Cognition
