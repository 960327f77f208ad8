import CognitiveOs.Foundation.Machine
import CognitiveOs.Infra.Follow
import Mathlib.Data.List.Sublists

/-!
# The file of summaries

The bytes of `memory/summaries.jsonl` as `memory/summary.c` writes and reads them. Every append
begins a line of its own, so a torn one cannot join the next.
-/

namespace CognitiveOs.Memory.Summary

open Infra Cjson

/-- The members that `read_latest` asks for. -/
def isSummary (json : Json) : Bool :=
  match json, json.get? (ascii "text"), json.get? (ascii "task_id") with
  | .object _, some (.string _), some (.number _) => true
  | _, _, _ => false

/-- The number under `task_id`, as `job_id` reads it. -/
def jobId (json : Json) : Option Rat :=
  match json.get? (ascii "task_id") with
  | some (.number id) => some id
  | _ => none

/-- The result of a job that succeeded, with the row it is printed as. -/
structure Result where
  id : Nat
  row : Text
  members : List (Text × Json)
  clean : 0 ∉ row ∧ 10 ∉ row
  printed : parse row = some (.object members)
  named : jobId (.object members) = some (id : Rat)
  summary : isSummary (.object members) = true

def Result.json (r : Result) : Json :=
  .object r.members

def Result.line (r : Result) : Text :=
  10 :: (r.row ++ [10])

/-- The lines of a text that end in a newline; `line` has been read of the first. -/
def fullLines : Text → Text → List Text
  | [], _ => []
  | c :: rest, line => if c = 10 then line :: fullLines rest [] else fullLines rest (line ++ [c])

def readRow (line : Text) : Option Json :=
  (parse line).filter isSummary

/-- The summaries that the loop of `read_latest` goes through. -/
def readRows (file : Text) : List Json :=
  (fullLines (cstr file) []).filterMap readRow

def readLatest (file : Text) : Option Json :=
  (readRows file).getLast?

/-- A file made by appends for these results; each may have been cut short. -/
inductive Appended : Text → List Result → Prop where
  | nil : Appended [] []
  | append {file cut : Text} {results : List Result} {r : Result} :
      Appended file results → cut <+: r.line → Appended (file ++ cut) (results ++ [r])

/-! ### Lines -/

theorem fullLines_line {line before rest : Text} (oneLine : 10 ∉ line) :
    fullLines (line ++ 10 :: rest) before = (before ++ line) :: fullLines rest [] := by
  induction line generalizing before with
  | nil =>
    rw [List.nil_append, fullLines, if_pos rfl, List.append_nil]
  | cons c line ih =>
    rw [List.mem_cons, not_or] at oneLine
    rw [List.cons_append, fullLines, if_neg (Ne.symm oneLine.1), ih oneLine.2, List.append_assoc]
    rfl

theorem fullLines_append (s t before : Text) :
    fullLines (s ++ 10 :: t) before = fullLines (s ++ [10]) before ++ fullLines t [] := by
  induction s generalizing before with
  | nil => rfl
  | cons c s ih =>
    rw [List.cons_append, List.cons_append, fullLines, fullLines]
    split
    · rw [ih, List.cons_append]
    · exact ih _

theorem fullLines_front (s t before : Text) : fullLines s before <+: fullLines (s ++ t) before := by
  induction s generalizing before with
  | nil => exact List.nil_prefix
  | cons c s ih =>
    rw [List.cons_append, fullLines, fullLines]
    split
    · exact List.cons_prefix_cons.mpr ⟨rfl, ih _⟩
    · exact ih _

theorem readRow_nil : readRow [] = none := by
  decide

theorem readRow_cut {r : Result} {cut : Text} {json : Json} (within : cut <+: r.row) (read : readRow cut = some json) :
    json = r.json := by
  obtain ⟨parsed, summary⟩ := Option.filter_eq_some_iff.mp read
  obtain ⟨rest, whole⟩ := within
  have clean := r.clean.1
  rw [← whole, List.mem_append, not_or] at clean
  cases json with
  | object members =>
    have same := parse_append parsed clean.1 clean.2
    rw [whole, r.printed] at same
    exact (Option.some.inj same).symm
  | _ => cases summary

theorem readRow_row (r : Result) : readRow r.row = some r.json := by
  unfold readRow
  rw [r.printed]
  exact Option.filter_eq_some_iff.mpr ⟨rfl, r.summary⟩

theorem jobId_json (r : Result) : jobId r.json = some (r.id : Rat) :=
  r.named

/-! ### Files of appends -/

variable {file : Text} {results : List Result}

theorem Result.line_clean (r : Result) : 0 ∉ r.line := by
  unfold Result.line
  simp [r.clean.1]

theorem Appended.clean (appended : Appended file results) : 0 ∉ file := by
  induction appended with
  | nil => exact List.not_mem_nil
  | append _ within ih =>
    rw [List.mem_append, not_or]
    exact ⟨ih, fun member => Result.line_clean _ (within.subset member)⟩

theorem readRows_eq (clean : 0 ∉ file) : readRows file = (fullLines file []).filterMap readRow := by
  unfold readRows
  rw [cstr_eq_self clean]

theorem readRows_front {s t : Text} (clean : 0 ∉ s ++ t) : readRows s <+: readRows (s ++ t) := by
  have front : 0 ∉ s := fun member => clean (List.mem_append_left t member)
  rw [readRows_eq clean, readRows_eq front]
  exact (fullLines_front s t []).filterMap readRow

theorem readRows_cut {r : Result} {cut : Text} (within : cut <+: r.row ++ [10]) :
    ((fullLines (cut ++ [10]) []).filterMap readRow).Sublist [r.json] := by
  obtain rfl | part := List.prefix_concat_iff.mp within
  · rw [List.append_assoc, List.singleton_append, fullLines_line r.clean.2]
    simp only [List.nil_append, fullLines, if_true, List.filterMap_cons, readRow_row, readRow_nil, List.filterMap_nil]
    exact List.Sublist.refl _
  · have oneLine : 10 ∉ cut := fun member => r.clean.2 (part.subset member)
    rw [fullLines_line oneLine, List.nil_append, fullLines, List.filterMap_cons, List.filterMap_nil]
    cases read : readRow cut with
    | none => exact List.nil_sublist _
    | some json => rw [readRow_cut part read]

theorem Appended.readRows (appended : Appended file results) :
    ((fullLines (file ++ [10]) []).filterMap readRow).Sublist (results.map Result.json) := by
  induction appended with
  | nil =>
    simp [fullLines, readRow_nil]
  | @append file cut results r _ within ih =>
    rw [List.map_append]
    cases cut with
    | nil =>
      rw [List.append_nil]
      exact ih.trans (List.sublist_append_left _ _)
    | cons c cut =>
      obtain ⟨rfl, inside⟩ := List.cons_prefix_cons.mp within
      rw [List.append_assoc, List.cons_append, fullLines_append, List.filterMap_append]
      exact ih.append (readRows_cut inside)

theorem Appended.sublist (appended : Appended file results) :
    (Summary.readRows file).Sublist (results.map Result.json) := by
  rw [readRows_eq appended.clean]
  have front := (fullLines_front file [10] []).filterMap readRow
  exact front.sublist.trans appended.readRows

theorem Appended.readLatest (appended : Appended file results) (r : Result) :
    Summary.readLatest (file ++ r.line) = some r.json := by
  have clean : 0 ∉ file ++ r.line := by
    rw [List.mem_append, not_or]
    exact ⟨appended.clean, r.line_clean⟩
  unfold Summary.readLatest
  rw [readRows_eq clean]
  unfold Result.line
  rw [fullLines_append, fullLines_line r.clean.2, List.filterMap_append]
  simp only [List.nil_append, fullLines, List.filterMap_cons, readRow_row, List.filterMap_nil,
    List.getLast?_append, List.getLast?_singleton]
  rfl

def NotOlder (before after : Option Json) : Prop :=
  ∀ json ∈ before, ∃ json' ∈ after, ∃ id id', jobId json = some id ∧ jobId json' = some id' ∧ id ≤ id'

theorem NotOlder.trans {a b c : Option Json} (ab : NotOlder a b) (bc : NotOlder b c) : NotOlder a c := by
  intro json there
  obtain ⟨json', there', id, id', named, named', le⟩ := ab json there
  obtain ⟨json'', there'', id₁, id'', named₁, named'', le'⟩ := bc json' there'
  obtain rfl := Option.some.inj (named'.symm.trans named₁)
  exact ⟨json'', there'', id, id'', named, named'', Rat.le_trans le le'⟩

theorem Appended.notOlder {s t : Text} (appended : Appended (s ++ t) results)
    (sorted : results.Pairwise fun r r' => r.id ≤ r'.id) :
    NotOlder (Summary.readLatest s) (Summary.readLatest (s ++ t)) := by
  intro json there
  obtain ⟨more, all⟩ := readRows_front appended.clean
  have sub := appended.sublist
  rw [← all] at sub
  have order : (Summary.readRows s ++ more).Pairwise fun j j' => ∃ id id', jobId j = some id ∧ jobId j' = some id' ∧ id ≤ id' := by
    refine List.Pairwise.sublist sub (List.pairwise_map.mpr (sorted.imp ?_))
    intro r r' le
    exact ⟨r.id, r'.id, jobId_json r, jobId_json r', by exact_mod_cast le⟩
  unfold Summary.readLatest at there ⊢
  rw [← all]
  obtain rfl | ⟨front, last, rfl⟩ := more.eq_nil_or_concat
  · rw [List.append_nil]
    have member : json ∈ results.map Result.json := by
      rw [List.append_nil] at sub
      exact sub.subset (List.mem_of_getLast? there)
    obtain ⟨r, -, rfl⟩ := List.mem_map.mp member
    exact ⟨r.json, there, r.id, r.id, jobId_json r, jobId_json r, Rat.le_refl⟩
  · refine ⟨last, ?_, ?_⟩
    · rw [List.concat_eq_append, ← List.append_assoc]
      exact List.getLast?_concat
    · exact (List.pairwise_append.mp order).2.2 json (List.mem_of_getLast? there) last (by simp)

theorem Appended.latest_mem (appended : Appended file results) {json : Json}
    (read : Summary.readLatest file = some json) : ∃ r ∈ results, json = r.json := by
  obtain ⟨r, member, same⟩ := List.mem_map.mp (appended.sublist.subset (List.mem_of_getLast? read))
  exact ⟨r, member, same.symm⟩

end CognitiveOs.Memory.Summary

/-!
## Summary jobs

`memory_summary_start`, `memory_summary_get` and `memory_summary_cancel` with the steps of the
jobs they start. What happens under `summary_lock` is one step, apart from a cancellation, whose
last look at the job's status and whose mark are two.
-/

namespace CognitiveOs.Memory.Summary

open Foundation Infra

inductive Status where
  | queued
  | running
  | done
  | failed
  | cancelled
  | interrupted
  deriving DecidableEq

/-- Where a job is in `memory_summary_run`: behind its last check, or behind its append. The
result is there when the check found the job in order. -/
inductive Work where
  | waiting
  | asking
  | checked (result : Option Result)
  | saved (result : Option Result)

def Work.result : Work → Option Result
  | waiting | asking => none
  | checked r | saved r => r

structure Job where
  status : Status
  cancelFlag : Bool
  work : Work

def Job.active (job : Job) : Bool :=
  job.status = .queued ∨ job.status = .running

/-- How the write of `summary-job.json` went. -/
inductive JobWrite where
  | whole
  | unopened
  | torn
  deriving DecidableEq

inductive Torn where
  | nothing
  | save (id : Nat) (cut : Text)
  | retry (cut : Text)
  | jobFile

/-- The files, the tasks of the scheduler, and the calls under way. `succeeded` has the results
of the jobs that passed their last check, `accepted` the jobs with an accepted cancellation and
`returned` what was answered as the summary. -/
structure Summaries where
  file : Text
  jobFile : Option Nat
  journal : Nat → Option (Status × Option Result)
  tasks : Nat → Option Job
  nextId : Nat
  starters : Nat
  cancelling : Option Nat
  succeeded : List Result
  accepted : List Nat
  returned : List (Option Json)

inductive Act where
  /-- `cut` is what a retried append writes, `ok` whether it reports success. -/
  | get (cut : Text) (ok : Bool)
  /-- The `memory_summary_get` inside `memory_summary_start`. -/
  | start (cut : Text) (ok : Bool)
  | submit (write : JobWrite)
  /-- A start is refused for another reason. -/
  | decline
  | begin (id : Nat) (journaled : Bool)
  /-- The job is cancelled or out of time before it runs. -/
  | refuse (id : Nat)
  | check (id : Nat) (result : Option Result)
  | save (id : Nat) (cut : Text)
  | finish (id : Nat)
  /-- The task is journaled and leaves the scheduler. -/
  | settle (id : Nat) (journaled : Bool)
  | cancelRead
  | cancelSet
  | crash (torn : Torn)

namespace Summaries

def empty : Summaries :=
  { file := [], jobFile := none, journal := fun _ => none, tasks := fun _ => none, nextId := 0, starters := 0,
    cancelling := none, succeeded := [], accepted := [], returned := [] }

def jobStatus (s : Summaries) (id : Nat) : Option Status :=
  match s.tasks id with
  | some job => some job.status
  | none => (s.journal id).map Prod.fst

def jobOutput (s : Summaries) (id : Nat) : Option Result :=
  match s.tasks id with
  | some job => if job.active then none else job.work.result
  | none => (s.journal id).bind Prod.snd

def retry (s : Summaries) : Option Result :=
  s.jobFile.bind fun id =>
    if s.jobStatus id = some .done ∧ (readLatest s.file).bind jobId ≠ some (id : Rat) then s.jobOutput id else none

def setTask (s : Summaries) (id : Nat) (job : Option Job) : Summaries :=
  { s with tasks := Function.update s.tasks id job }

/-- `tasklog_record_access`, when the record reaches the file. -/
def note (s : Summaries) (id : Nat) (entry : Status × Option Result) (journaled : Bool) : Summaries :=
  if journaled then { s with journal := Function.update s.journal id (some entry) } else s

def append (s : Summaries) (cut : Text) : Summaries :=
  { s with file := s.file ++ cut }

/-- `memory_summary_get`, and whether it is without a `save_error`. -/
def memorySummaryGet (s : Summaries) (cut : Text) (ok : Bool) : Option (Summaries × Bool) :=
  if s.cancelling.isSome then none
  else
    match s.retry with
    | some r =>
      if cut <+: r.line ∧ (ok → cut = r.line) then
        let latest := if ok then some r.json else readLatest s.file
        some ({ s.append cut with returned := s.returned ++ [latest] }, ok)
      else none
    | none => some ({ s with returned := s.returned ++ [readLatest s.file] }, true)

/-- The second half of `memory_summary_start`. -/
def submitJob (s : Summaries) (write : JobWrite) : Summaries :=
  let s := { s with starters := s.starters - 1 }
  let status := s.jobFile.bind s.jobStatus
  if status = some .running ∨ status = some .queued then s
  else
    let id := s.nextId
    let s := { s with nextId := s.nextId + 1 }
    match write with
    | .whole =>
      { s.setTask id (some { status := .queued, cancelFlag := false, work := .waiting }) with jobFile := some id }
    | .unopened => s.setTask id (some { status := .queued, cancelFlag := true, work := .waiting })
    | .torn =>
      { s.setTask id (some { status := .queued, cancelFlag := true, work := .waiting }) with jobFile := none }

/-- `finalize_task`. -/
def finalStatus (job : Job) (result : Option Result) : Status :=
  if job.cancelFlag then .cancelled else if result.isSome then .done else .failed

def restart (s : Summaries) : Summaries :=
  { s with
    tasks := fun _ => none
    starters := 0
    cancelling := none
    journal := fun id => (s.journal id).map fun (status, result) =>
      (if status = .running then .interrupted else status, result) }

def jobStep (s : Summaries) (id : Nat) (job : Job) : Act → Option Summaries
  | .begin _ journaled =>
    if job.status = .queued then
      some ((s.note id (.running, none) journaled).setTask id (some { job with status := .running, work := .asking }))
    else none
  | .refuse _ =>
    if job.status = .queued then some (s.setTask id (some { job with status := .cancelled, work := .saved none }))
    else none
  | .check _ result =>
    match job.status, job.work with
    | .running, .asking =>
      if ∀ r ∈ result, r.id = id ∧ job.cancelFlag = false then
        some ({ s with succeeded := s.succeeded ++ result.toList }.setTask id (some { job with work := .checked result }))
      else none
    | _, _ => none
  | .save _ cut =>
    match job.status, job.work with
    | .running, .checked (some r) =>
      if s.cancelling = none ∧ cut <+: r.line then
        some ((s.append cut).setTask id (some { job with work := .saved (some r) }))
      else none
    | .running, .checked none => some (s.setTask id (some { job with work := .saved none }))
    | _, _ => none
  | .finish _ =>
    match job.status, job.work with
    | .running, .saved result => some (s.setTask id (some { job with status := finalStatus job result }))
    | _, _ => none
  | .settle _ journaled =>
    if job.active ∨ s.cancelling = some id then none
    else some ((s.setTask id none).note id (job.status, job.work.result) journaled)
  | _ => none

def crash (s : Summaries) : Torn → Option Summaries
  | .nothing => some s.restart
  | .save id cut =>
    match s.tasks id with
    | some { status := .running, cancelFlag := _, work := .checked (some r) } =>
      if s.cancelling = none ∧ cut <+: r.line then some (s.append cut).restart else none
    | _ => none
  | .retry cut =>
    match s.retry with
    | some r => if s.cancelling = none ∧ cut <+: r.line then some (s.append cut).restart else none
    | none => none
  | .jobFile => if 0 < s.starters then some { s.restart with jobFile := none } else none

def step (s : Summaries) : Act → Option Summaries
  | .get cut ok => (s.memorySummaryGet cut ok).map Prod.fst
  | .start cut ok =>
    (s.memorySummaryGet cut ok).map fun (s, good) => if good then { s with starters := s.starters + 1 } else s
  | .submit write => if s.cancelling = none ∧ 0 < s.starters then some (s.submitJob write) else none
  | .decline => if 0 < s.starters then some { s with starters := s.starters - 1 } else none
  | .cancelRead =>
    if s.cancelling = none then
      match s.jobFile with
      | some id =>
        match s.tasks id with
        | some job => if job.active then some { s with cancelling := some id } else some s
        | none => some s
      | none => some s
    else none
  | .cancelSet =>
    match s.cancelling with
    | some id =>
      match s.tasks id with
      | some job =>
        some { s.setTask id (some { job with cancelFlag := true }) with
          cancelling := none, accepted := s.accepted ++ [id] }
      | none => none
    | none => none
  | .crash torn => s.crash torn
  | act@(.begin id _) | act@(.refuse id) | act@(.check id _) | act@(.save id _) | act@(.finish id)
  | act@(.settle id _) => (s.tasks id).bind fun job => s.jobStep id job act

def machine : Machine Summaries Act :=
  Machine.ofPartial step

/-- A cancellation is marked before the job's last check has found it in order, and a new job
reaches `summary-job.json`. -/
def Timely (s : Summaries) : Act → Prop
  | .cancelSet => ∀ id job, s.cancelling = some id → s.tasks id = some job → job.work.result = none
  | .submit write => write = .whole
  | _ => True

end Summaries

end CognitiveOs.Memory.Summary
