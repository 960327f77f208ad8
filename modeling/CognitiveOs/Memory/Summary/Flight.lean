import CognitiveOs.Memory.Summary.Jobs

/-!
# One summary at a time

In runs whose cancellations are marked in time, at most one job is active, and what is answered
as the summary is the whole result of a job that succeeded, never of an older one.
-/

namespace CognitiveOs.Memory.Summary

open Foundation Infra Summaries

/-! ### What every step keeps -/

structure Fits (s : Summaries) (id : Nat) (job : Job) : Prop where
  single : job.active → s.jobFile = some id
  known : id < s.nextId
  result : ∀ r, job.work.result = some r → r ∈ s.succeeded ∧ r.id = id
  passed : ∀ r ∈ s.succeeded, r.id = id → job.work.result = some r
  flag : job.cancelFlag = true ↔ id ∈ s.accepted
  status : job.work.result ≠ none → job.status ≠ .failed ∧ job.status ≠ .cancelled
  idle : job.status = .queued → job.work.result = none
  journal : ∀ e, s.journal id = some e → e = (.running, none)

structure Entered (s : Summaries) (id : Nat) (e : Status × Option Result) : Prop where
  known : id < s.nextId
  result : ∀ r, e.2 = some r → r ∈ s.succeeded ∧ r.id = id
  passed : ∀ r ∈ s.succeeded, r.id = id → e.1 ≠ .failed ∧ e.1 ≠ .cancelled

structure Kept (s : Summaries) : Prop where
  tasks : ∀ id job, s.tasks id = some job → Fits s id job
  journal : ∀ id e, s.journal id = some e → Entered s id e
  succeeded : ∀ r ∈ s.succeeded, r.id < s.nextId ∧ r.id ∉ s.accepted
  accepted : ∀ id ∈ s.accepted, id < s.nextId
  jobFile : ∀ id, s.jobFile = some id → id < s.nextId

namespace Kept

variable {s : Summaries} {id : Nat} {job : Job}

theorem setTask (kept : Kept s) (fits : Fits s id job) : Kept (s.setTask id (some job)) where
  tasks := by
    intro other job' there
    unfold Summaries.setTask at there
    simp only [Function.update_apply] at there
    split at there
    · rename_i same
      subst same
      cases there
      exact { fits with }
    · exact { kept.tasks other job' there with }
  journal := fun id e there => { kept.journal id e there with }
  succeeded := kept.succeeded
  accepted := kept.accepted
  jobFile := kept.jobFile

theorem answer (kept : Kept s) (file : Text) (returned : List (Option Json)) (starters : Nat) (cancelling : Option Nat) :
    Kept { s with file := file, returned := returned, starters := starters, cancelling := cancelling } where
  tasks := fun id job there => { kept.tasks id job there with }
  journal := fun id e there => { kept.journal id e there with }
  succeeded := kept.succeeded
  accepted := kept.accepted
  jobFile := kept.jobFile

theorem restart (kept : Kept s) : Kept s.restart where
  tasks := by
    intro id job there
    cases there
  journal := by
    intro id e there
    obtain ⟨old, before, rfl⟩ := Option.map_eq_some_iff.mp there
    have entered := kept.journal id old before
    exact
      { known := entered.known
        result := entered.result
        passed := by
          intro r member named
          have passed := entered.passed r member named
          dsimp only
          split
          · exact ⟨nofun, nofun⟩
          · exact passed }
  succeeded := kept.succeeded
  accepted := kept.accepted
  jobFile := kept.jobFile

theorem forget (kept : Kept s) : Kept { s.restart with jobFile := none } where
  tasks := by
    intro id job there
    cases there
  journal := fun id e there => { kept.restart.journal id e there with }
  succeeded := kept.succeeded
  accepted := kept.accepted
  jobFile := by
    intro id there
    cases there

theorem submit (kept : Kept s) (idle : ∀ id job, s.tasks id = some job → job.active = false) :
    Kept
      { { s with nextId := s.nextId + 1 }.setTask s.nextId
          (some { status := .queued, cancelFlag := false, work := .waiting }) with jobFile := some s.nextId } where
  tasks := by
    intro other job there
    simp only [Summaries.setTask, Function.update_apply] at there
    split at there
    · rename_i same
      subst same
      cases there
      exact
        { single := fun _ => rfl
          known := Nat.lt_succ_self _
          result := nofun
          passed := by
            intro r member named
            have old := (kept.succeeded r member).1
            omega
          flag := by
            refine iff_of_false nofun ?_
            intro member
            exact Nat.lt_irrefl _ (kept.accepted _ member)
          status := fun some => absurd rfl some
          idle := fun _ => rfl
          journal := by
            intro e there
            exact absurd (kept.journal _ e there).known (Nat.lt_irrefl _) }
    · have fits := kept.tasks other job there
      exact
        { fits with
          single := by
            intro active
            rw [idle other job there] at active
            cases active
          known := Nat.lt_succ_of_lt fits.known }
  journal := by
    intro id e there
    have entered := kept.journal id e there
    exact { entered with known := Nat.lt_succ_of_lt entered.known }
  succeeded := by
    intro r member
    have old := kept.succeeded r member
    exact ⟨Nat.lt_succ_of_lt old.1, old.2⟩
  accepted := fun id member => Nat.lt_succ_of_lt (kept.accepted id member)
  jobFile := by
    intro id there
    cases there
    exact Nat.lt_succ_self _

theorem check (kept : Kept s) (there : s.tasks id = some job) (asking : job.work.result = none)
    (running : job.status = .running) {result : Option Result}
    (good : ∀ r ∈ result, r.id = id ∧ job.cancelFlag = false) :
    Kept ({ s with succeeded := s.succeeded ++ result.toList }.setTask id (some { job with work := .checked result })) := by
  have fits := kept.tasks id job there
  have unknown : ∀ r ∈ s.succeeded, r.id ≠ id := by
    intro r member named
    rw [fits.passed r member named] at asking
    cases asking
  have member {r : Result} : r ∈ s.succeeded ++ result.toList ↔ r ∈ s.succeeded ∨ result = some r := by
    rw [List.mem_append, Option.mem_toList]
  exact
    { tasks := by
        intro other job' there'
        simp only [Summaries.setTask, Function.update_apply] at there'
        split at there'
        · rename_i same
          subst same
          cases there'
          exact
            { single := fits.single
              known := fits.known
              result := by
                intro r there
                exact ⟨member.mpr (.inr there), (good r there).1⟩
              passed := by
                intro r new named
                obtain old | new := member.mp new
                · exact absurd named (unknown r old)
                · exact new
              flag := fits.flag
              status := by
                intro _
                dsimp only
                rw [running]
                exact ⟨nofun, nofun⟩
              idle := by
                intro queued
                exact absurd (running.symm.trans queued) nofun
              journal := fits.journal }
        · rename_i away
          have fits' := kept.tasks other job' there'
          exact
            { fits' with
              result := by
                intro r there
                have old := fits'.result r there
                exact ⟨member.mpr (.inl old.1), old.2⟩
              passed := by
                intro r new named
                obtain old | new := member.mp new
                · exact fits'.passed r old named
                · exact absurd (named.symm.trans (good r new).1) away }
      journal := by
        intro other e there'
        have entered := kept.journal other e there'
        exact
          { known := entered.known
            result := by
              intro r there
              have old := entered.result r there
              exact ⟨member.mpr (.inl old.1), old.2⟩
            passed := by
              intro r new named
              obtain old | new := member.mp new
              · exact entered.passed r old named
              · obtain rfl : id = other := (good r new).1.symm.trans named
                rw [fits.journal e there']
                exact ⟨nofun, nofun⟩ }
      succeeded := by
        intro r new
        obtain old | new := member.mp new
        · exact kept.succeeded r old
        · obtain ⟨named, unmarked⟩ := good r new
          rw [named]
          refine ⟨fits.known, ?_⟩
          intro accepted
          rw [fits.flag.mpr accepted] at unmarked
          cases unmarked
      accepted := kept.accepted
      jobFile := kept.jobFile }

theorem mark (kept : Kept s) (there : s.tasks id = some job) (early : job.work.result = none) :
    Kept { s.setTask id (some { job with cancelFlag := true }) with accepted := s.accepted ++ [id] } := by
  have fits := kept.tasks id job there
  exact
    { tasks := by
        intro other job' there'
        simp only [Summaries.setTask, Function.update_apply] at there'
        split at there'
        · rename_i same
          subst same
          cases there'
          exact { fits with flag := iff_of_true rfl (List.mem_append_right _ (List.mem_singleton_self _)) }
        · rename_i away
          have fits' := kept.tasks other job' there'
          exact
            { fits' with
              flag := by
                rw [fits'.flag, List.mem_append, List.mem_singleton]
                exact (or_iff_left away).symm }
      journal := fun id e there => { kept.journal id e there with }
      succeeded := by
        intro r member
        have old := kept.succeeded r member
        refine ⟨old.1, ?_⟩
        rw [List.mem_append, List.mem_singleton, not_or]
        refine ⟨old.2, ?_⟩
        intro named
        rw [fits.passed r member named] at early
        cases early
      accepted := by
        intro other member
        obtain old | rfl := (List.mem_append.trans (or_congr_right List.mem_singleton)).mp member
        · exact kept.accepted other old
        · exact fits.known
      jobFile := kept.jobFile }

theorem note (kept : Kept s) {e : Status × Option Result} (entered : Entered s id e)
    (beginning : e = (.running, none) ∨ s.tasks id = none) (journaled : Bool) : Kept (s.note id e journaled) := by
  unfold Summaries.note
  cases journaled with
  | false => exact kept
  | true =>
    exact
      { tasks := by
          intro other job there
          have fits := kept.tasks other job there
          exact
            { fits with
              journal := by
                intro e' entry
                simp only [if_true, Function.update_apply] at entry
                split at entry
                · rename_i same
                  subst same
                  cases entry
                  obtain first | gone := beginning
                  · exact first
                  · exact absurd (gone.symm.trans there) nofun
                · exact fits.journal e' entry }
        journal := by
          intro other e' entry
          simp only [if_true, Function.update_apply] at entry
          split at entry
          · rename_i same
            subst same
            cases entry
            exact { entered with }
          · exact { kept.journal other e' entry with }
        succeeded := kept.succeeded
        accepted := kept.accepted
        jobFile := kept.jobFile }

theorem removeTask (kept : Kept s) : Kept (s.setTask id none) where
  tasks := by
    intro other job there
    simp only [Summaries.setTask, Function.update_apply] at there
    split at there
    · cases there
    · exact { kept.tasks other job there with }
  journal := fun id e there => { kept.journal id e there with }
  succeeded := kept.succeeded
  accepted := kept.accepted
  jobFile := kept.jobFile

theorem settle (kept : Kept s) (there : s.tasks id = some job) (journaled : Bool) :
    Kept ((s.setTask id none).note id (job.status, job.work.result) journaled) := by
  have fits := kept.tasks id job there
  refine kept.removeTask.note ?_ (.inr (Function.update_self ..)) journaled
  exact
    { known := fits.known
      result := fits.result
      passed := by
        intro r member named
        apply fits.status
        rw [fits.passed r member named]
        exact Option.some_ne_none r }

theorem begin (kept : Kept s) (there : s.tasks id = some job) (queued : job.status = .queued) (journaled : Bool) :
    Kept ((s.note id (.running, none) journaled).setTask id (some { job with status := .running, work := .asking })) := by
  have fits := kept.tasks id job there
  have entered : Entered s id (.running, none) :=
    { known := fits.known
      result := nofun
      passed := fun _ _ _ => ⟨nofun, nofun⟩ }
  have noted := kept.note entered (.inl rfl) journaled
  have fits' : Fits (s.note id (.running, none) journaled) id job := by
    apply noted.tasks
    unfold Summaries.note
    split <;> exact there
  apply noted.setTask
  exact
    { fits' with
      single := by
        intro _
        apply fits'.single
        unfold Job.active
        simp [queued]
      result := nofun
      passed := by
        intro r member named
        have waiting := fits'.idle queued
        rw [fits'.passed r member named] at waiting
        cases waiting
      status := fun _ => ⟨nofun, nofun⟩
      idle := nofun }

theorem finish (kept : Kept s) (there : s.tasks id = some job) {result : Option Result}
    (saved : job.work = .saved result) :
    Kept (s.setTask id (some { job with status := finalStatus job result })) := by
  have fits := kept.tasks id job there
  have same : job.work.result = result := by
    rw [saved]
    rfl
  apply kept.setTask
  exact
    { fits with
      single := by
        intro active
        unfold Job.active finalStatus at active
        simp only at active
        split_ifs at active <;> simp at active
      status := by
        intro some
        obtain ⟨r, there⟩ := Option.ne_none_iff_exists'.mp some
        have known := fits.result r there
        have unmarked : job.cancelFlag = false := by
          rw [Bool.eq_false_iff]
          intro flag
          apply (kept.succeeded r known.1).2
          rw [known.2]
          exact fits.flag.mp flag
        rw [same] at there
        unfold finalStatus
        rw [unmarked, there]
        exact ⟨nofun, nofun⟩
      idle := by
        intro queued
        unfold finalStatus at queued
        simp only at queued
        split_ifs at queued }

theorem retry (kept : Kept s) {r : Result} (missing : s.retry = some r) : r ∈ s.succeeded ∧ s.jobFile = some r.id := by
  obtain ⟨id, there, taken⟩ := Option.bind_eq_some_iff.mp missing
  rw [Option.ite_none_right_eq_some] at taken
  obtain ⟨-, output⟩ := taken
  have known : r ∈ s.succeeded ∧ r.id = id := by
    unfold jobOutput at output
    split at output
    · rename_i job task
      split at output
      · cases output
      · exact (kept.tasks id job task).result r output
    · obtain ⟨e, entry, result⟩ := Option.bind_eq_some_iff.mp output
      exact (kept.journal id e entry).result r result
  exact ⟨known.1, there.trans (congrArg some known.2.symm)⟩

end Kept

/-- The file has appends of succeeded jobs in order, and the answers follow it. -/
structure Filed (s : Summaries) : Prop where
  results : ∃ results, Appended s.file results ∧ (∀ r ∈ results, r ∈ s.succeeded) ∧
    (results.Pairwise fun r r' => r.id ≤ r'.id) ∧ ∀ r ∈ results, ∀ id, s.jobFile = some id → r.id ≤ id
  chain : s.returned.Pairwise NotOlder
  answered : ∀ o ∈ s.returned, NotOlder o (readLatest s.file)
  whole : ∀ json, some json ∈ s.returned → ∃ r ∈ s.succeeded, json = r.json

namespace Filed

variable {s s' : Summaries}

theorem mono (filed : Filed s) (file : s'.file = s.file) (returned : s'.returned = s.returned)
    (succeeded : s.succeeded ⊆ s'.succeeded)
    (jobFile : ∀ r ∈ s.succeeded, ∀ id, s'.jobFile = some id → s.jobFile = some id ∨ r.id ≤ id) : Filed s' where
  results := by
    obtain ⟨results, appended, known, sorted, latest⟩ := filed.results
    refine ⟨results, file ▸ appended, fun r member => succeeded (known r member), sorted, ?_⟩
    intro r member id there
    obtain old | le := jobFile r (known r member) id there
    · exact latest r member id old
    · exact le
  chain := returned ▸ filed.chain
  answered := by
    rw [file, returned]
    exact filed.answered
  whole := by
    intro json member
    rw [returned] at member
    obtain ⟨r, known, same⟩ := filed.whole json member
    exact ⟨r, succeeded known, same⟩

theorem same (filed : Filed s) (file : s'.file = s.file) (returned : s'.returned = s.returned)
    (succeeded : s'.succeeded = s.succeeded) (jobFile : s'.jobFile = s.jobFile) : Filed s' := by
  apply filed.mono file returned (succeeded ▸ List.Subset.refl _)
  intro r _ id there
  rw [jobFile] at there
  exact .inl there

theorem note (filed : Filed s) (id : Nat) (entry : Status × Option Result) (journaled : Bool) :
    Filed (s.note id entry journaled) := by
  cases journaled with
  | false => exact filed
  | true => exact filed.same rfl rfl rfl rfl

theorem append (filed : Filed s) {r : Result} {cut : Text} (known : r ∈ s.succeeded) (newest : s.jobFile = some r.id)
    (within : cut <+: r.line) : Filed (s.append cut) := by
  obtain ⟨results, appended, members, sorted, latest⟩ := filed.results
  have longer := appended.append within
  have order : (results ++ [r]).Pairwise fun r r' => r.id ≤ r'.id := by
    rw [List.pairwise_append]
    refine ⟨sorted, List.pairwise_singleton _ _, ?_⟩
    intro old member new last
    obtain rfl := List.mem_singleton.mp last
    exact latest old member _ newest
  exact
    { results := by
        refine ⟨results ++ [r], longer, ?_, order, ?_⟩
        · intro r' member
          obtain old | last := List.mem_append.mp member
          · exact members r' old
          · rw [List.mem_singleton.mp last]
            exact known
        · intro r' member id there
          obtain old | last := List.mem_append.mp member
          · exact latest r' old id there
          · rw [List.mem_singleton.mp last]
            exact Nat.le_of_eq (Option.some.inj (newest.symm.trans there))
      chain := filed.chain
      answered := by
        intro o member
        exact (filed.answered o member).trans (longer.notOlder order)
      whole := filed.whole }

theorem answer (filed : Filed s) {o : Option Json} (new : ∀ o' ∈ s.returned, NotOlder o' o)
    (file : NotOlder o (readLatest s.file)) (whole : ∀ json, o = some json → ∃ r ∈ s.succeeded, json = r.json) :
    Filed { s with returned := s.returned ++ [o] } where
  results := filed.results
  chain := by
    rw [List.pairwise_append]
    refine ⟨filed.chain, List.pairwise_singleton _ _, ?_⟩
    intro o' member last there
    obtain rfl := List.mem_singleton.mp there
    exact new o' member
  answered := by
    intro o' member
    obtain old | last := List.mem_append.mp member
    · exact filed.answered o' old
    · rw [List.mem_singleton.mp last]
      exact file
  whole := by
    intro json member
    obtain old | last := List.mem_append.mp member
    · exact filed.whole json old
    · exact whole json (List.mem_singleton.mp last).symm

theorem latest (filed : Filed s) {json : Json} (read : readLatest s.file = some json) : ∃ r ∈ s.succeeded, json = r.json := by
  obtain ⟨results, appended, members, -, -⟩ := filed.results
  obtain ⟨r, member, same⟩ := appended.latest_mem read
  exact ⟨r, members r member, same⟩

theorem latest_self (filed : Filed s) : NotOlder (readLatest s.file) (readLatest s.file) := by
  obtain ⟨results, appended, -, sorted, -⟩ := filed.results
  have same := (List.append_nil s.file).symm ▸ appended
  simpa using Appended.notOlder (t := []) same sorted

end Filed

structure Sound (s : Summaries) : Prop where
  kept : Kept s
  filed : Filed s

namespace Sound

variable {s s' : Summaries} {id : Nat} {job : Job} {cut : Text}

theorem empty : Sound empty where
  kept :=
    { tasks := by
        intro id job there
        cases there
      journal := by
        intro id e there
        cases there
      succeeded := by
        intro r member
        cases member
      accepted := by
        intro id member
        cases member
      jobFile := by
        intro id there
        cases there }
  filed :=
    { results := by
        refine ⟨[], .nil, ?_, List.Pairwise.nil, ?_⟩
        · intro r member
          cases member
        · intro r member
          cases member
      chain := List.Pairwise.nil
      answered := by
        intro o member
        cases member
      whole := by
        intro json member
        cases member }

theorem get {ok good : Bool} (sound : Sound s) (taken : s.memorySummaryGet cut ok = some (s', good)) : Sound s' := by
  unfold memorySummaryGet at taken
  rw [Option.ite_none_left_eq_some] at taken
  obtain ⟨-, taken⟩ := taken
  split at taken
  · rename_i r missing
    rw [Option.ite_none_right_eq_some] at taken
    obtain ⟨⟨within, whole⟩, same⟩ := taken
    cases same
    obtain ⟨known, newest⟩ := sound.kept.retry missing
    refine ⟨sound.kept.answer _ _ _ _, ?_⟩
    cases ok with
    | true =>
      obtain rfl := whole rfl
      have written := sound.filed.append known newest within
      have read : readLatest (s.append r.line).file = some r.json := by
        obtain ⟨results, appended, -⟩ := sound.filed.results
        exact appended.readLatest r
      refine written.answer ?_ ?_ ?_
      · intro o member
        have old := written.answered o member
        rw [read] at old
        exact old
      · have same := written.latest_self
        rw [read] at same ⊢
        exact same
      · intro json same
        cases same
        exact ⟨r, known, rfl⟩
    | false =>
      have answered := sound.filed.answer sound.filed.answered sound.filed.latest_self fun _ => sound.filed.latest
      exact answered.append known newest within
  · cases taken
    refine ⟨sound.kept.answer _ _ _ _, ?_⟩
    exact sound.filed.answer sound.filed.answered sound.filed.latest_self fun _ => sound.filed.latest

theorem restart (sound : Sound s) : Sound s.restart where
  kept := sound.kept.restart
  filed := sound.filed.same rfl rfl rfl rfl

theorem append {r : Result} (sound : Sound s) (there : s.tasks id = some job) (running : job.status = .running)
    (result : job.work.result = some r) (within : cut <+: r.line) : Sound (s.append cut) := by
  have fits := sound.kept.tasks id job there
  obtain ⟨known, named⟩ := fits.result r result
  refine ⟨sound.kept.answer _ _ _ _, sound.filed.append known ?_ within⟩
  rw [named]
  apply fits.single
  unfold Job.active
  simp [running]

theorem crash {torn : Torn} (sound : Sound s) (taken : s.crash torn = some s') : Sound s' := by
  cases torn with
  | nothing =>
    cases taken
    exact sound.restart
  | save id cut =>
    simp only [Summaries.crash] at taken
    split at taken
    · rename_i flag r there
      rw [Option.ite_none_right_eq_some] at taken
      obtain ⟨⟨-, within⟩, same⟩ := taken
      cases same
      exact (sound.append there rfl rfl within).restart
    · cases taken
  | retry cut =>
    simp only [Summaries.crash] at taken
    split at taken
    · rename_i r missing
      rw [Option.ite_none_right_eq_some] at taken
      obtain ⟨⟨-, within⟩, same⟩ := taken
      cases same
      obtain ⟨known, newest⟩ := sound.kept.retry missing
      exact restart ⟨sound.kept.answer _ _ _ _, sound.filed.append known newest within⟩
    · cases taken
  | jobFile =>
    simp only [Summaries.crash, Option.ite_none_right_eq_some] at taken
    obtain ⟨-, same⟩ := taken
    cases same
    exact ⟨sound.kept.forget, sound.filed.mono rfl rfl (List.Subset.refl _) nofun⟩

theorem submit (sound : Sound s) : Sound (s.submitJob .whole) := by
  have fewer : Sound { s with starters := s.starters - 1 } :=
    ⟨sound.kept.answer _ _ _ _, sound.filed.same rfl rfl rfl rfl⟩
  unfold submitJob
  simp only
  split
  · exact fewer
  · rename_i inactive
    refine ⟨fewer.kept.submit ?_, ?_⟩
    · intro id job there
      rw [Bool.eq_false_iff]
      intro active
      apply inactive
      have newest := (sound.kept.tasks id job there).single active
      have status : s.jobStatus id = some job.status := by
        unfold jobStatus
        rw [show s.tasks id = some job from there]
      unfold Job.active at active
      have found : ({ s with starters := s.starters - 1 } : Summaries).jobFile.bind
          ({ s with starters := s.starters - 1 } : Summaries).jobStatus = some job.status := by
        rw [show ({ s with starters := s.starters - 1 } : Summaries).jobFile = some id from newest]
        exact status
      rw [found]
      rcases of_decide_eq_true active with queued | running
      · right
        rw [queued]
      · left
        rw [running]
    · refine sound.filed.mono rfl rfl (List.Subset.refl _) ?_
      intro r member id there
      cases there
      exact .inr (Nat.le_of_lt (sound.kept.succeeded r member).1)

theorem jobStep {act : Act} (sound : Sound s) (there : s.tasks id = some job) (taken : s.jobStep id job act = some s') :
    Sound s' := by
  have kept := sound.kept
  have fits := kept.tasks id job there
  cases act with
  | begin _ journaled =>
    simp only [Summaries.jobStep, Option.ite_none_right_eq_some] at taken
    obtain ⟨queued, same⟩ := taken
    cases same
    exact ⟨kept.begin there queued journaled, (sound.filed.note id (.running, none) journaled).same rfl rfl rfl rfl⟩
  | refuse _ =>
    simp only [Summaries.jobStep, Option.ite_none_right_eq_some] at taken
    obtain ⟨queued, same⟩ := taken
    cases same
    refine ⟨kept.setTask ?_, sound.filed.same rfl rfl rfl rfl⟩
    exact
      { fits with
        single := nofun
        result := nofun
        passed := by
          intro r member named
          have waiting := fits.idle queued
          rw [fits.passed r member named] at waiting
          cases waiting
        status := fun some => absurd rfl some
        idle := nofun }
  | check _ result =>
    simp only [Summaries.jobStep] at taken
    split at taken
    · rename_i running asking
      rw [Option.ite_none_right_eq_some] at taken
      obtain ⟨good, same⟩ := taken
      cases same
      have early : job.work.result = none := by
        rw [asking]
        rfl
      refine ⟨kept.check there early running good, ?_⟩
      exact sound.filed.mono rfl rfl (List.subset_append_left _ _) fun _ _ _ there => .inl there
    · cases taken
  | save _ cut =>
    simp only [Summaries.jobStep] at taken
    split at taken
    · rename_i r running checked
      rw [Option.ite_none_right_eq_some] at taken
      obtain ⟨⟨-, within⟩, same⟩ := taken
      cases same
      have result : job.work.result = some r := by
        rw [checked]
        rfl
      have appended := sound.append there running result within
      refine ⟨appended.kept.setTask ?_, appended.filed.same rfl rfl rfl rfl⟩
      have fits' := appended.kept.tasks id job there
      obtain ⟨status, flag, work⟩ := job
      obtain rfl : work = .checked (some r) := checked
      exact { fits' with }
    · rename_i running checked
      cases taken
      refine ⟨kept.setTask ?_, sound.filed.same rfl rfl rfl rfl⟩
      obtain ⟨status, flag, work⟩ := job
      obtain rfl : work = .checked none := checked
      exact { fits with }
    · cases taken
  | finish _ =>
    simp only [Summaries.jobStep] at taken
    split at taken
    · rename_i result running saved
      cases taken
      exact ⟨kept.finish there saved, sound.filed.same rfl rfl rfl rfl⟩
    · cases taken
  | settle _ journaled =>
    simp only [Summaries.jobStep, Option.ite_none_left_eq_some] at taken
    obtain ⟨-, same⟩ := taken
    cases same
    have gone : Filed (s.setTask id none) := sound.filed.same rfl rfl rfl rfl
    exact ⟨kept.settle there journaled, gone.note id _ journaled⟩
  | _ => cases taken

theorem step {act : Act} (sound : Sound s) (timely : Timely s act) (taken : s.step act = some s') : Sound s' := by
  have more (starters : Nat) (cancelling : Option Nat) {s : Summaries} (sound : Sound s) :
      Sound { s with starters := starters, cancelling := cancelling } :=
    ⟨sound.kept.answer _ _ _ _, sound.filed.same rfl rfl rfl rfl⟩
  cases act with
  | get cut ok =>
    obtain ⟨⟨s₁, good⟩, got, rfl⟩ := Option.map_eq_some_iff.mp taken
    exact sound.get got
  | start cut ok =>
    obtain ⟨⟨s₁, good⟩, got, rfl⟩ := Option.map_eq_some_iff.mp taken
    have answered := sound.get got
    dsimp only
    split
    · exact more _ _ answered
    · exact answered
  | submit write =>
    simp only [Summaries.step, Option.ite_none_right_eq_some] at taken
    obtain ⟨-, same⟩ := taken
    cases same
    rw [show write = .whole from timely]
    exact sound.submit
  | decline =>
    simp only [Summaries.step, Option.ite_none_right_eq_some] at taken
    obtain ⟨-, same⟩ := taken
    cases same
    exact more _ _ sound
  | cancelRead =>
    simp only [Summaries.step, Option.ite_none_right_eq_some] at taken
    obtain ⟨-, taken⟩ := taken
    split at taken
    · split at taken
      · split at taken
        · cases taken
          exact more _ _ sound
        · cases taken
          exact sound
      · cases taken
        exact sound
    · cases taken
      exact sound
  | cancelSet =>
    simp only [Summaries.step] at taken
    split at taken
    · rename_i id pending
      split at taken
      · rename_i job there
        cases taken
        have early := timely id job pending there
        have marked : Sound { s.setTask id (some { job with cancelFlag := true }) with accepted := s.accepted ++ [id] } :=
          ⟨sound.kept.mark there early, sound.filed.same rfl rfl rfl rfl⟩
        exact more _ none marked
      · cases taken
    · cases taken
  | crash torn => exact sound.crash taken
  | begin id journaled =>
    obtain ⟨job, there, taken⟩ := Option.bind_eq_some_iff.mp taken
    exact sound.jobStep there taken
  | refuse id =>
    obtain ⟨job, there, taken⟩ := Option.bind_eq_some_iff.mp taken
    exact sound.jobStep there taken
  | check id result =>
    obtain ⟨job, there, taken⟩ := Option.bind_eq_some_iff.mp taken
    exact sound.jobStep there taken
  | save id cut =>
    obtain ⟨job, there, taken⟩ := Option.bind_eq_some_iff.mp taken
    exact sound.jobStep there taken
  | finish id =>
    obtain ⟨job, there, taken⟩ := Option.bind_eq_some_iff.mp taken
    exact sound.jobStep there taken
  | settle id journaled =>
    obtain ⟨job, there, taken⟩ := Option.bind_eq_some_iff.mp taken
    exact sound.jobStep there taken

end Sound

/-- At most one job is active, and every answer was the whole result of a job that succeeded and
was not cancelled, in the order of the jobs. -/
structure Truthful (s : Summaries) : Prop where
  single : ∀ id id' job job', s.tasks id = some job → job.active → s.tasks id' = some job' → job'.active → id = id'
  whole : ∀ json, some json ∈ s.returned → ∃ r ∈ s.succeeded, json = r.json ∧ r.id ∉ s.accepted ∧
    s.jobStatus r.id ≠ some .failed ∧ s.jobStatus r.id ≠ some .cancelled
  ordered : s.returned.Pairwise NotOlder

theorem truthful_of_sound {s : Summaries} (sound : Sound s) : Truthful s where
  single := by
    intro id id' job job' there active there' active'
    have first := (sound.kept.tasks id job there).single active
    have second := (sound.kept.tasks id' job' there').single active'
    exact Option.some.inj (first.symm.trans second)
  whole := by
    intro json member
    obtain ⟨r, known, same⟩ := sound.filed.whole json member
    refine ⟨r, known, same, (sound.kept.succeeded r known).2, ?_⟩
    unfold jobStatus
    split
    · rename_i job there
      have fits := sound.kept.tasks _ job there
      have passed := fits.status (by rw [fits.passed r known rfl]; exact Option.some_ne_none r)
      exact ⟨fun same => passed.1 (Option.some.inj same), fun same => passed.2 (Option.some.inj same)⟩
    · cases entry : s.journal r.id with
      | none => exact ⟨nofun, nofun⟩
      | some e =>
        have passed := (sound.kept.journal _ e entry).passed r known rfl
        exact ⟨fun same => passed.1 (Option.some.inj same), fun same => passed.2 (Option.some.inj same)⟩
  ordered := sound.filed.chain

/-- In every run in which cancellations are marked before a job's last check has found it in
order, the summary is single-flight and does not go back. -/
theorem truthful_of_run {acts : List Act} {s : Summaries} (run : (machine.restrict Timely).Run empty acts s) :
    Truthful s :=
  truthful_of_sound (run.invariant (fun _ _ _ sound taken => sound.step taken.1 taken.2) Sound.empty)

/-! ### A cancellation after the last check -/

def noteRow : Text :=
  ascii "\x7b\"task_id\":0,\"text\":\"n\"\x7d"

def noteMembers : List (Text × Json) :=
  match Cjson.parse noteRow with
  | some (.object members) => members
  | _ => []

theorem parse_noteRow : Cjson.parse noteRow = some (.object noteMembers) := by
  have object : (match Cjson.parse noteRow with | some (.object _) => true | _ => false) = true := by decide +kernel
  unfold noteMembers
  split at object
  · rename_i members read
    rw [read]
  · cases object

def note : Result where
  id := 0
  row := noteRow
  members := noteMembers
  clean := by decide
  printed := parse_noteRow
  named := by decide +kernel
  summary := by decide +kernel

def oneJob : List Act :=
  [.start [] true, .submit .whole, .begin 0 true, .check 0 (some note), .save 0 note.line, .finish 0, .get [] true]

theorem truthful_oneJob : ∃ s, Truthful s ∧ s.returned.map Option.isSome = [false, true] := by
  have done : (Machine.exec step empty oneJob).map (fun s => s.returned.map Option.isSome) = some [false, true] := by
    decide +kernel
  obtain ⟨s, executed, returned⟩ := Option.map_eq_some_iff.mp done
  have timely : ∀ act ∈ oneJob, ∀ s, Timely s act := by
    simp [oneJob, Timely]
  exact ⟨s, truthful_of_run (Machine.run_restrict_of_exec timely executed), returned⟩

def lateCancel : List Act :=
  [.start [] true, .submit .whole, .begin 0 true, .check 0 (some note), .cancelRead, .cancelSet, .save 0 note.line,
   .finish 0, .get [] true]

/-- The cancelled job's text is the summary. -/
theorem lateCancel_returned : ∃ s, machine.Run empty lateCancel s ∧ ¬ Truthful s := by
  have done : (Machine.exec step empty lateCancel).map
      (fun s => (s.returned.map Option.isSome, s.succeeded.map Result.id, s.accepted)) =
      some ([false, true], [0], [0]) := by
    decide +kernel
  obtain ⟨s, executed, state⟩ := Option.map_eq_some_iff.mp done
  obtain ⟨returned, succeeded, accepted⟩ : _ ∧ _ ∧ _ := by simpa only [Prod.mk.injEq] using state
  refine ⟨s, Machine.run_ofPartial_of_exec executed, ?_⟩
  intro truthful
  have some' : true ∈ s.returned.map Option.isSome := by
    rw [returned]
    decide
  obtain ⟨o, member, there⟩ := List.mem_map.mp some'
  obtain ⟨json, rfl⟩ := Option.isSome_iff_exists.mp there
  obtain ⟨r, known, -, unmarked, -⟩ := truthful.whole json member
  have zero : r.id ∈ s.succeeded.map Result.id := List.mem_map_of_mem known
  rw [succeeded] at zero
  rw [accepted] at unmarked
  exact unmarked zero

end CognitiveOs.Memory.Summary
