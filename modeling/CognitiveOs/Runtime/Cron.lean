import CognitiveOs.Foundation.Machine
import CognitiveOs.Foundation.Options
import CognitiveOs.Infra.Scan
import Mathlib.Algebra.Group.Int.Defs
import Mathlib.Data.Int.Order.Basic
import Mathlib.Data.List.Nodup

/-!
# Scheduled tasks

`runtime/cron.c`: jobs that run at an interval or at a time of the day, over ticks, failed
submissions and restarts. Times are milliseconds, and `zone` is the offset of local time in seconds.
-/

namespace CognitiveOs.Runtime.Cron

open Foundation Infra

/-! ### Times of the day -/

/-- `%d` of `sscanf`, and the text after it. -/
def scanInt (s : Text) : Option (Int × Text) :=
  let s := s.dropWhile isSpace
  let (negative, t) :=
    match s with
    | 45 :: t => (true, t)
    | 43 :: t => (false, t)
    | _ => (false, s)
  let digits := t.takeWhile isDigit
  if digits = [] then none
  else
    let value : Int := if negative then -(digitsValue digits) else digitsValue digits
    some ((Int32.ofInt (max (-2 ^ 63) (min value (2 ^ 63 - 1)))).toInt, t.dropWhile isDigit)

/-- `sscanf(at, "%d:%d", &hh, &mm)` with a time of the day as its result. -/
def clockTime (at' : Text) : Option (Int × Int) :=
  match scanInt at' with
  | some (hh, 58 :: rest) =>
    match scanInt rest with
    | some (mm, _) => if 0 ≤ hh ∧ hh ≤ 23 ∧ 0 ≤ mm ∧ mm ≤ 59 then some (hh, mm) else none
    | none => none
  | _ => none

/-- What `time` and `time_now_ms` return, one after the other. -/
structure Clock where
  sec : Int
  ms : Int

/-- `daily_next_ms`; `mktime` is given the daylight saving of the current time. -/
def dailyNextMs (zone : Int → Int) (clock : Clock) (at' : Text) : Int :=
  match clockTime at' with
  | none => 0
  | some (hh, mm) =>
    let now := clock.sec + zone clock.sec
    let candidate := (now - now % 86400 + hh * 3600 + mm * 60 - zone clock.sec) * 1000
    if candidate ≤ clock.ms then candidate + 24 * 3600 * 1000 else candidate

/-! ### Jobs -/

/-- `cron_job`. -/
structure Job where
  id : Int
  name : Text
  prompt : Text
  session : Text
  everySec : Int
  at' : Text
  enabled : Bool
  lastRunMs : Int
  nextRunMs : Int
  lastId : Int
  deriving DecidableEq

def cronMaxJobs : Nat :=
  64

/-- A job, with the time it was accepted for, when it ran, the time it was last scheduled for, and
whether its last submission failed. -/
structure Tracked where
  job : Job
  time : Option (Int × Int)
  ran : Option Int
  due : Option Int
  owed : Bool
  deriving DecidableEq

structure State where
  jobs : List Tracked
  nextId : Int
  /-- When the last tick was. -/
  now : Int
  deriving DecidableEq

/-- `cron_add`; the prompt is a text, and `none` is no time. -/
def cronAdd (st : State) (name prompt session : Text) (everySec : Int) (at' : Option Text) : State :=
  let given := at'.getD []
  if prompt = [] ∨ everySec ≤ 0 ∧ given = [] ∨ given ≠ [] ∧ clockTime given = none then st
  else if st.jobs.length < cronMaxJobs then
    { st with
      jobs := st.jobs ++ [{
        job := {
          id := st.nextId
          name := snprintf 64 (if name ≠ [] then name else ascii "job")
          prompt := snprintf 1024 prompt
          session := snprintf 64 (if session ≠ [] then session else ascii "cron")
          everySec
          at' := snprintf 8 given
          enabled := true
          lastRunMs := 0
          nextRunMs := 0
          lastId := 0 }
        time := clockTime given
        ran := none
        due := none
        owed := false }]
      nextId := st.nextId + 1 }
  else st

def cronRemove (st : State) (id : Int) : State :=
  { st with jobs := st.jobs.eraseP fun t => t.job.id = id }

def setFirst (id : Int) (enabled : Bool) : List Tracked → List Tracked
  | [] => []
  | t :: rest =>
    if t.job.id = id then { t with job := { t.job with enabled } } :: rest else t :: setFirst id enabled rest

def cronSetEnabled (st : State) (id : Int) (enabled : Bool) : State :=
  { st with jobs := setFirst id enabled st.jobs }

/-- What `cron_load` makes of a job in the file. -/
def Job.loaded (j : Job) : Job :=
  { j with
    name := snprintf 64 j.name
    prompt := snprintf 1024 j.prompt
    session := snprintf 64 j.session
    at' := snprintf 8 j.at'
    lastRunMs := 0
    nextRunMs := 0 }

/-- `cron_new` over the file, which has the jobs as they are. -/
def cronNew (st : State) : State :=
  let kept := (st.jobs.filter fun t => t.job.prompt ≠ []).take cronMaxJobs
  { st with
    jobs := kept.map fun t => { t with job := t.job.loaded }
    nextId := kept.foldl (fun next t => if next ≤ t.job.id then t.job.id + 1 else next) 0 }

/-! ### Ticks -/

/-- What the clock and the scheduler say to a job; `tid` is the result of `scheduler_submit_tag`. -/
structure Input where
  clock : Clock
  tid : Int

inductive Outcome where
  | idle
  | tried (prompt session : Text) (tid : Int)
  deriving DecidableEq

def jobScheduleNext (zone : Int → Int) (clock : Clock) (j : Job) (now : Int) : Int :=
  if 0 < j.everySec then now + j.everySec * 1000 else dailyNextMs zone clock j.at'

def dueAt (zone : Int → Int) (clock : Clock) (j : Job) (now : Int) : Int :=
  if j.nextRunMs = 0 then jobScheduleNext zone clock j now else j.nextRunMs

/-- The body of the loop of `cron_tick`. -/
def tickJob (zone : Int → Int) (now : Int) (input : Input) (t : Tracked) : Outcome × Tracked :=
  if !t.job.enabled then (.idle, t)
  else
    let next := dueAt zone input.clock t.job now
    if now < next then
      (.idle, { t with
        job := { t.job with nextRunMs := next }
        due := if t.job.nextRunMs = 0 then some next else t.due })
    else
      let session := snprintf 64 (if t.job.session ≠ [] then t.job.session else ascii "cron")
      let tried := Outcome.tried t.job.prompt session input.tid
      if input.tid < 0 then (tried, { t with job := { t.job with nextRunMs := now + 1000 }, owed := true })
      else
        (tried, { t with
          job := { t.job with
            lastId := input.tid
            lastRunMs := now
            nextRunMs := jobScheduleNext zone input.clock t.job now }
          ran := some now
          due := some (jobScheduleNext zone input.clock t.job now)
          owed := false })

/-- `cron_tick`: what it does for each job, and the state after it. -/
def cronTick (zone : Int → Int) (st : State) (now : Int) (inputs : Nat → Input) : List Outcome × State :=
  let results := st.jobs.zipIdx.map fun (t, i) => tickJob zone now (inputs i) t
  (results.map Prod.fst, { st with jobs := results.map Prod.snd, now })

inductive Label where
  | add (name prompt session : Text) (everySec : Int) (at' : Option Text)
  | remove (id : Int)
  | setEnabled (id : Int) (enabled : Bool)
  | restart
  | tick (now : Int) (inputs : Nat → Input)

def step (zone : Int → Int) (st : State) : Label → State
  | .add name prompt session everySec at' => cronAdd st name prompt session everySec at'
  | .remove id => cronRemove st id
  | .setEnabled id enabled => cronSetEnabled st id enabled
  | .restart => cronNew st
  | .tick now inputs => (cronTick zone st now inputs).2

def cron (zone : Int → Int) : Machine State Label :=
  .ofFun (step zone)

def fresh : State where
  jobs := []
  nextId := 0
  now := 0

/-! ### The next run -/

variable {at' : Text}

def Occurs (zone : Int → Int) (time : Int × Int) (ms : Int) : Prop :=
  ms % 1000 = 0 ∧ (ms / 1000 + zone (ms / 1000)) % 86400 = time.1 * 3600 + time.2 * 60

structure Reads (now : Int) (clock : Clock) : Prop where
  sec : now < (clock.sec + 1) * 1000
  ms : now ≤ clock.ms
  order : clock.sec * 1000 ≤ clock.ms

def Steady (zone : Int → Int) (clock : Clock) : Prop :=
  ∀ s, clock.sec ≤ s → s ≤ clock.ms / 1000 + 86400 → zone s = zone clock.sec

theorem clockTime_bounds {hh mm : Int} (valid : clockTime at' = some (hh, mm)) :
    0 ≤ hh ∧ hh ≤ 23 ∧ 0 ≤ mm ∧ mm ≤ 59 := by
  unfold clockTime at valid
  split at valid
  · split at valid
    · obtain ⟨bounds, same⟩ := Option.ite_none_right_eq_some.mp valid
      cases same
      exact bounds
    · cases valid
  · cases valid

theorem dailyNextMs_spec {zone : Int → Int} {now : Int} {clock : Clock} (reads : Reads now clock)
    (steady : Steady zone clock) {time : Int × Int} (valid : clockTime at' = some time) :
    now < dailyNextMs zone clock at' ∧ Occurs zone time (dailyNextMs zone clock at') := by
  obtain ⟨hh, mm⟩ := time
  obtain ⟨low, high, low', high'⟩ := clockTime_bounds valid
  obtain ⟨sec, ms, order⟩ := reads
  simp only [dailyNextMs, valid]
  generalize offset : zone clock.sec = z
  have same (s : Int) (first : clock.sec ≤ s) (last : s ≤ clock.ms / 1000 + 86400) : zone s = z :=
    (steady s first last).trans offset
  split
  · rename_i past
    have whole :
        ((clock.sec + z - (clock.sec + z) % 86400 + hh * 3600 + mm * 60 - z) * 1000 + 24 * 3600 * 1000) / 1000 =
          (clock.sec + z) - (clock.sec + z) % 86400 + hh * 3600 + mm * 60 - z + 86400 := by omega
    refine ⟨by omega, by omega, ?_⟩
    rw [whole, same _ (by omega) (by omega)]
    omega
  · rename_i future
    have whole : (((clock.sec + z) - (clock.sec + z) % 86400 + hh * 3600 + mm * 60 - z) * 1000) / 1000 =
        (clock.sec + z) - (clock.sec + z) % 86400 + hh * 3600 + mm * 60 - z := by omega
    refine ⟨by omega, by omega, ?_⟩
    rw [whole, same _ (by omega) (by omega)]
    omega

theorem dailyNextMs_le {zone : Int → Int} {now : Int} {clock : Clock} (reads : Reads now clock)
    (steady : Steady zone clock) {time : Int × Int} (valid : clockTime at' = some time) {o : Int}
    (occurs : Occurs zone time o) (future : clock.ms < o) : dailyNextMs zone clock at' ≤ o := by
  obtain ⟨hh, mm⟩ := time
  obtain ⟨low, high, low', high'⟩ := clockTime_bounds valid
  obtain ⟨sec, ms, order⟩ := reads
  obtain ⟨whole, shown⟩ := occurs
  simp only [dailyNextMs, valid]
  by_cases near : o / 1000 ≤ clock.ms / 1000 + 86400
  · rw [steady _ (by omega) near] at shown
    dsimp only at shown
    generalize zone clock.sec = z at shown ⊢
    split <;> omega
  · generalize zone clock.sec = z
    split <;> omega

/-! ### A tick -/

/-- What holds of a job after a tick at `last`. -/
structure Kept (zone : Int → Int) (last : Int) (t : Tracked) : Prop where
  prompt : t.job.prompt ≠ []
  /-- The file keeps the time of the job. -/
  saved : snprintf 8 t.job.at' = t.job.at'
  time : t.job.everySec ≤ 0 → ∃ time, t.time = some time ∧ clockTime t.job.at' = some time
  owed : t.owed = true → 0 < t.job.nextRunMs ∧ t.job.nextRunMs ≤ last + 1000
  ran : ∀ r, t.ran = some r → r ≤ last
  waits : t.job.everySec ≤ 0 → ∀ o, t.due = some o → ∃ time, t.time = some time ∧ Occurs zone time o
  scheduled : t.job.everySec ≤ 0 → t.owed = false → t.job.nextRunMs ≠ 0 → t.due = some t.job.nextRunMs
  /-- There is an occurrence between two runs of a daily job. -/
  apart : t.job.everySec ≤ 0 → ∀ r time, t.ran = some r → t.time = some time →
    t.job.nextRunMs = 0 ∨ ∃ o, Occurs zone time o ∧ r < o ∧ o ≤ t.job.nextRunMs

structure Conduct (zone : Int → Int) (now : Int) (t : Tracked) (outcome : Outcome) (t' : Tracked) : Prop where
  /-- After a run the next one is in the future, for a daily job at its time of the day, and such a time
  has come since it ran before. -/
  done : ∀ prompt session tid, outcome = .tried prompt session tid → 0 ≤ tid →
    now < t'.job.nextRunMs ∧ (t.job.everySec ≤ 0 → ∃ time, t.time = some time ∧ Occurs zone time t'.job.nextRunMs ∧
      ∀ r, t.ran = some r → ∃ o, Occurs zone time o ∧ r < o ∧ o ≤ now)
  /-- After a failure the job stays due. -/
  failed : ∀ prompt session tid, outcome = .tried prompt session tid → tid < 0 →
    t'.owed = true ∧ 0 < t'.job.nextRunMs ∧ t'.job.nextRunMs ≤ now + 1000
  /-- What is owed is tried when it is due, and stays owed before. -/
  owed : t.owed = true → t.job.enabled = true →
    (t.job.nextRunMs ≤ now → outcome ≠ .idle) ∧ (now < t.job.nextRunMs → t' = t)
  /-- A daily job runs when the time it waits for has come, and is not put off before. -/
  waits : t.job.everySec ≤ 0 → t.job.enabled = true → t.owed = false → ∀ o, t.due = some o →
    (o ≤ now → outcome ≠ .idle) ∧ (now < o → ∃ o', t'.due = some o' ∧ t'.job.nextRunMs = o' ∧ now < o' ∧ o' ≤ o)

/-- A daily job keeps its time: the offset of local time does not change, and the job is not scheduled
anew once the time it waits for has come. -/
structure InTime (zone : Int → Int) (clock : Clock) (t : Tracked) : Prop where
  steady : Steady zone clock
  anew : t.job.nextRunMs = 0 → ∀ o, t.due = some o → clock.ms < o

theorem Kept.mono {zone : Int → Int} {last now : Int} {t : Tracked} (kept : Kept zone last t) (later : last ≤ now) :
    Kept zone now t where
  prompt := kept.prompt
  saved := kept.saved
  time := kept.time
  owed flag := ⟨(kept.owed flag).1, Int.le_trans (kept.owed flag).2 (by omega)⟩
  ran r run := Int.le_trans (kept.ran r run) later
  waits := kept.waits
  scheduled := kept.scheduled
  apart := kept.apart

structure Ticked (zone : Int → Int) (now : Int) (t : Tracked) (result : Outcome × Tracked) : Prop where
  kept : Kept zone now result.2
  conduct : Conduct zone now t result.1 result.2
  id : result.2.job.id = t.job.id

section

variable {zone : Int → Int} {last now : Int} {input : Input} {t : Tracked}

theorem Kept.schedule (kept : Kept zone last t) (reads : Reads now input.clock)
    (inTime : t.job.everySec ≤ 0 → InTime zone input.clock t) :
    now < jobScheduleNext zone input.clock t.job now ∧ (t.job.everySec ≤ 0 → ∃ time, t.time = some time ∧
      Occurs zone time (jobScheduleNext zone input.clock t.job now) ∧
      ∀ o, Occurs zone time o → input.clock.ms < o → jobScheduleNext zone input.clock t.job now ≤ o) := by
  unfold jobScheduleNext
  split
  · rename_i interval
    exact ⟨by omega, fun daily => by omega⟩
  · rename_i daily
    obtain ⟨time, known, valid⟩ := kept.time (by omega)
    have steady := (inTime (by omega)).steady
    obtain ⟨future, occurs⟩ := dailyNextMs_spec reads steady valid
    exact ⟨future, fun _ => ⟨time, known, occurs, fun o => dailyNextMs_le reads steady valid⟩⟩

theorem Kept.off (kept : Kept zone last t) (later : last ≤ now) (off : t.job.enabled = false) :
    Ticked zone now t (tickJob zone now input t) := by
  have result : tickJob zone now input t = (.idle, t) := by simp [tickJob, off]
  rw [result]
  refine ⟨kept.mono later, ⟨?_, ?_, ?_, ?_⟩, rfl⟩
  · intro _ _ _ tried
    cases tried
  · intro _ _ _ tried
    cases tried
  · intro _ on
    rw [on] at off
    cases off
  · intro _ on
    rw [on] at off
    cases off

theorem Kept.early (kept : Kept zone last t) (later : last ≤ now) (on : t.job.enabled = true)
    (scheduled : t.job.nextRunMs ≠ 0) (early : now < t.job.nextRunMs) :
    Ticked zone now t (tickJob zone now input t) := by
  have result : tickJob zone now input t = (.idle, t) := by
    rw [tickJob, if_neg (by rw [on]; decide)]
    simp only [dueAt, if_neg scheduled, if_pos early]
  rw [result]
  refine ⟨kept.mono later, ⟨?_, ?_, ?_, ?_⟩, rfl⟩
  · intro _ _ _ tried
    cases tried
  · intro _ _ _ tried
    cases tried
  · intro _ _
    exact ⟨fun due => by omega, fun _ => rfl⟩
  · intro daily _ settled o waits
    have same := kept.scheduled daily settled scheduled
    rw [waits] at same
    cases same
    exact ⟨fun due => by omega, fun future => ⟨_, waits, rfl, future, Int.le_refl _⟩⟩

theorem Kept.first (kept : Kept zone last t) (later : last ≤ now) (reads : Reads now input.clock)
    (inTime : t.job.everySec ≤ 0 → InTime zone input.clock t) (on : t.job.enabled = true)
    (first : t.job.nextRunMs = 0) : Ticked zone now t (tickJob zone now input t) := by
  obtain ⟨future, daily⟩ := kept.schedule reads inTime
  have settled : t.owed ≠ true := fun owed => by have positive := (kept.owed owed).1; omega
  have result : tickJob zone now input t =
      (.idle, { t with
        job := { t.job with nextRunMs := jobScheduleNext zone input.clock t.job now }
        due := some (jobScheduleNext zone input.clock t.job now) }) := by
    simp [tickJob, dueAt, on, first, future]
  rw [result]
  refine ⟨⟨kept.prompt, kept.saved, kept.time, fun owed => absurd owed settled, (kept.mono later).ran, ?_, ?_, ?_⟩,
    ⟨?_, ?_, fun owed => absurd owed settled, ?_⟩, rfl⟩
  · intro no_interval o waits
    cases waits
    obtain ⟨time, known, occurs, -⟩ := daily no_interval
    exact ⟨time, known, occurs⟩
  · intro _ _ _
    rfl
  · intro no_interval r time run known
    obtain ⟨time', known', occurs, -⟩ := daily no_interval
    rw [show t.time = some time from known] at known'
    cases known'
    have before := kept.ran r run
    exact .inr ⟨_, occurs, by omega, Int.le_refl _⟩
  · intro _ _ _ tried
    cases tried
  · intro _ _ _ tried
    cases tried
  · intro no_interval _ _ o waits
    have anew := (inTime no_interval).anew first o waits
    have ms := reads.ms
    obtain ⟨time, known, -, least⟩ := daily no_interval
    obtain ⟨time', known', occurs⟩ := kept.waits no_interval o waits
    rw [known] at known'
    cases known'
    exact ⟨fun due => by omega, fun _ => ⟨_, rfl, rfl, future, least o occurs anew⟩⟩

theorem Kept.since (kept : Kept zone last t) (scheduled : t.job.nextRunMs ≠ 0) (due : t.job.nextRunMs ≤ now)
    (daily : t.job.everySec ≤ 0) {r : Int} {time : Int × Int} (run : t.ran = some r) (known : t.time = some time) :
    ∃ o, Occurs zone time o ∧ r < o ∧ o ≤ now := by
  rcases kept.apart daily r time run known with first | ⟨o, occurs, after, before⟩
  · exact absurd first scheduled
  · exact ⟨o, occurs, after, Int.le_trans before due⟩

theorem Kept.refused (kept : Kept zone last t) (start : 0 ≤ last) (later : last ≤ now) (on : t.job.enabled = true)
    (scheduled : t.job.nextRunMs ≠ 0) (due : t.job.nextRunMs ≤ now) (refused : input.tid < 0) :
    Ticked zone now t (tickJob zone now input t) := by
  have result : tickJob zone now input t =
      (.tried t.job.prompt (snprintf 64 (if t.job.session ≠ [] then t.job.session else ascii "cron")) input.tid,
        { t with job := { t.job with nextRunMs := now + 1000 }, owed := true }) := by
    simp [tickJob, dueAt, on, scheduled, Int.not_lt.mpr due, refused]
  rw [result]
  have positive : 0 < now + 1000 := by omega
  refine ⟨⟨kept.prompt, kept.saved, kept.time, fun _ => ⟨positive, Int.le_refl _⟩, (kept.mono later).ran,
    kept.waits, fun _ settled => ?_, ?_⟩, ⟨?_, ?_, ?_, ?_⟩, rfl⟩
  · cases settled
  · intro no_interval r time run known
    obtain ⟨o, occurs, after, before⟩ := kept.since scheduled due no_interval run known
    exact .inr ⟨o, occurs, after, Int.le_trans before (by show now ≤ now + 1000; omega)⟩
  · intro _ _ tid tried accepted
    cases tried
    omega
  · intro _ _ _ _ _
    exact ⟨rfl, positive, Int.le_refl _⟩
  · intro _ _
    exact ⟨fun _ => Outcome.noConfusion, fun early => by omega⟩
  · intro daily _ settled o waits
    have same := kept.scheduled daily settled scheduled
    rw [waits] at same
    cases same
    exact ⟨fun _ => Outcome.noConfusion, fun early => by omega⟩

theorem Kept.accepted (kept : Kept zone last t) (reads : Reads now input.clock)
    (inTime : t.job.everySec ≤ 0 → InTime zone input.clock t) (on : t.job.enabled = true)
    (scheduled : t.job.nextRunMs ≠ 0) (due : t.job.nextRunMs ≤ now) (accepted : ¬input.tid < 0) :
    Ticked zone now t (tickJob zone now input t) := by
  obtain ⟨future, daily⟩ := kept.schedule reads inTime
  have result : tickJob zone now input t =
      (.tried t.job.prompt (snprintf 64 (if t.job.session ≠ [] then t.job.session else ascii "cron")) input.tid,
        { t with
          job := { t.job with
            lastId := input.tid
            lastRunMs := now
            nextRunMs := jobScheduleNext zone input.clock t.job now }
          ran := some now
          due := some (jobScheduleNext zone input.clock t.job now)
          owed := false }) := by
    simp [tickJob, dueAt, on, scheduled, Int.not_lt.mpr due, accepted]
  rw [result]
  refine ⟨⟨kept.prompt, kept.saved, kept.time, fun owed => ?_, fun r run => ?_, ?_, fun _ _ _ => rfl, ?_⟩,
    ⟨?_, ?_, ?_, ?_⟩, rfl⟩
  · cases owed
  · cases run
    exact Int.le_refl _
  · intro no_interval o waits
    cases waits
    obtain ⟨time, known, occurs, -⟩ := daily no_interval
    exact ⟨time, known, occurs⟩
  · intro no_interval r time run known
    cases run
    obtain ⟨time', known', occurs, -⟩ := daily no_interval
    rw [show t.time = some time from known] at known'
    cases known'
    exact .inr ⟨_, occurs, future, Int.le_refl _⟩
  · intro _ _ _ _ _
    refine ⟨future, fun no_interval => ?_⟩
    obtain ⟨time, known, occurs, -⟩ := daily no_interval
    exact ⟨time, known, occurs, fun r run => kept.since scheduled due no_interval run known⟩
  · intro _ _ tid tried refused
    cases tried
    exact absurd refused accepted
  · intro _ _
    exact ⟨fun _ => Outcome.noConfusion, fun early => by omega⟩
  · intro no_interval _ settled o waits
    have same := kept.scheduled no_interval settled scheduled
    rw [waits] at same
    cases same
    exact ⟨fun _ => Outcome.noConfusion, fun early => by omega⟩

theorem Kept.tick (kept : Kept zone last t) (start : 0 ≤ last) (later : last ≤ now) (reads : Reads now input.clock)
    (inTime : t.job.enabled = true → t.job.everySec ≤ 0 → InTime zone input.clock t) :
    Ticked zone now t (tickJob zone now input t) := by
  cases on : t.job.enabled with
  | false => exact kept.off later on
  | true =>
    by_cases first : t.job.nextRunMs = 0
    · exact kept.first later reads (inTime on) on first
    · by_cases early : now < t.job.nextRunMs
      · exact kept.early later on first early
      · by_cases refused : input.tid < 0
        · exact kept.refused start later on first (by omega) refused
        · exact kept.accepted reads (inTime on) on first (by omega) refused

end

/-! ### Runs -/

variable {st : State}

/-- The steps under which no occurrence is lost or repeated: an interval, or a time that the seven stored
bytes keep; a restart only when no failed submission is owed; and ticks at times that do not go back, each
in time for the daily jobs. -/
def Allowed (zone : Int → Int) (st : State) : Label → Prop
  | .add _ _ _ everySec at' => 0 < everySec ∨ clockTime (snprintf 8 (at'.getD [])) = clockTime (at'.getD [])
  | .restart => ∀ t ∈ st.jobs, t.owed = false
  | .tick now inputs => st.now ≤ now ∧ ∀ i, Reads now (inputs i).clock ∧ ∀ t, st.jobs[i]? = some t →
      t.job.enabled = true → t.job.everySec ≤ 0 → InTime zone (inputs i).clock t
  | _ => True

structure Good (zone : Int → Int) (st : State) : Prop where
  jobs : ∀ t ∈ st.jobs, Kept zone st.now t
  ids : (st.jobs.map fun t => t.job.id).Nodup
  next : ∀ t ∈ st.jobs, t.job.id < st.nextId
  room : st.jobs.length ≤ cronMaxJobs
  start : 0 ≤ st.now

theorem snprintf_ne_nil {n : Nat} {s : Text} (some_text : s ≠ []) (room : 1 < n) : snprintf n s ≠ [] := by
  intro nothing
  rw [snprintf, List.take_eq_nil_iff] at nothing
  rcases nothing with small | empty
  · omega
  · exact some_text empty

theorem snprintf_twice (n : Nat) (s : Text) : snprintf n (snprintf n s) = snprintf n s := by
  simp [snprintf, List.take_take]

theorem Good.add {zone : Int → Int} (good : Good zone st) {name prompt session : Text} {everySec : Int}
    {at' : Option Text} (allowed : Allowed zone st (.add name prompt session everySec at')) :
    Good zone (cronAdd st name prompt session everySec at') := by
  unfold cronAdd
  dsimp only
  split
  · exact good
  · rename_i accepted
    split
    · rename_i room
      simp only [not_or, not_and] at accepted
      obtain ⟨some_prompt, some_time, valid⟩ := accepted
      constructor
      · intro t member
        rcases List.mem_append.mp member with old | new
        · exact good.jobs t old
        · obtain rfl := List.mem_singleton.mp new
          refine ⟨snprintf_ne_nil some_prompt (by decide), snprintf_twice 8 _, fun daily => ?_, fun flag => ?_,
            fun r run => ?_, fun _ o waits => ?_, fun _ _ scheduled => absurd rfl scheduled, fun _ r time run => ?_⟩
          · have given := some_time daily
            cases known : clockTime (at'.getD []) with
            | none => exact absurd known (valid given)
            | some time =>
              rcases allowed with interval | same
              · exact absurd interval (Int.not_lt.mpr daily)
              · exact ⟨time, rfl, same.trans known⟩
          · cases flag
          · cases run
          · cases waits
          · cases run
      · rw [List.map_append]
        refine List.nodup_append.mpr ⟨good.ids, List.nodup_singleton _, ?_⟩
        intro id member id' new same
        obtain ⟨t, there, rfl⟩ := List.mem_map.mp member
        obtain rfl := List.mem_singleton.mp new
        have below := good.next t there
        exact Int.ne_of_lt below same
      · intro t member
        rcases List.mem_append.mp member with old | new
        · exact Int.lt_trans (good.next t old) (Int.lt_succ _)
        · obtain rfl := List.mem_singleton.mp new
          exact Int.lt_succ _
      · rw [List.length_append, List.length_singleton]
        exact room
      · exact good.start
    · exact good

theorem Good.remove {zone : Int → Int} (good : Good zone st) (id : Int) :
    Good zone (cronRemove st id) where
  jobs t member := good.jobs t (List.mem_of_mem_eraseP member)
  ids := good.ids.sublist (List.eraseP_sublist.map _)
  next t member := good.next t (List.mem_of_mem_eraseP member)
  room := Nat.le_trans List.eraseP_sublist.length_le good.room
  start := good.start

theorem map_setFirst (id : Int) (enabled : Bool) (l : List Tracked) :
    (setFirst id enabled l).map (fun t => t.job.id) = l.map fun t => t.job.id := by
  induction l with
  | nil => rfl
  | cons t l ih =>
    unfold setFirst
    split
    · rfl
    · rw [List.map_cons, ih, List.map_cons]

theorem Kept.setFirst {zone : Int → Int} {last : Int} {l : List Tracked} (kept : ∀ t ∈ l, Kept zone last t) (id : Int)
    (enabled : Bool) : ∀ t ∈ setFirst id enabled l, Kept zone last t := by
  induction l with
  | nil => exact kept
  | cons first l ih =>
    have own := kept first List.mem_cons_self
    unfold Cron.setFirst
    split
    · intro t member
      rcases List.mem_cons.mp member with rfl | later
      · exact ⟨own.prompt, own.saved, own.time, own.owed, own.ran, own.waits, own.scheduled, own.apart⟩
      · exact kept t (List.mem_cons_of_mem _ later)
    · intro t member
      rcases List.mem_cons.mp member with rfl | later
      · exact own
      · exact ih (fun t member => kept t (List.mem_cons_of_mem _ member)) t later

theorem Good.setEnabled {zone : Int → Int} (good : Good zone st) (id : Int) (enabled : Bool) :
    Good zone (cronSetEnabled st id enabled) where
  jobs := Kept.setFirst good.jobs id enabled
  ids := by
    rw [cronSetEnabled, map_setFirst]
    exact good.ids
  next t member := by
    have listed : t.job.id ∈ st.jobs.map fun t => t.job.id := by
      rw [← map_setFirst id enabled]
      exact List.mem_map_of_mem member
    obtain ⟨t', there, same⟩ := List.mem_map.mp listed
    exact same ▸ good.next t' there
  room := by
    have lengths := congrArg List.length (map_setFirst id enabled st.jobs)
    rw [List.length_map, List.length_map] at lengths
    exact lengths ▸ good.room
  start := good.start

theorem Good.kept {zone : Int → Int} (good : Good zone st) :
    (st.jobs.filter fun t => t.job.prompt ≠ []).take cronMaxJobs = st.jobs := by
  have all : st.jobs.filter (fun t => t.job.prompt ≠ []) = st.jobs :=
    List.filter_eq_self.mpr fun t member => by simpa using (good.jobs t member).prompt
  rw [all]
  exact List.take_of_length_le good.room

theorem lt_nextId {l : List Tracked} {t : Tracked} (member : t ∈ l) (next : Int) :
    t.job.id < l.foldl (fun next t => if next ≤ t.job.id then t.job.id + 1 else next) next := by
  have grows (next : Int) (t : Tracked) : next ≤ if next ≤ t.job.id then t.job.id + 1 else next := by
    split <;> omega
  obtain ⟨before, below⟩ := exists_step_le_foldl grows member next
  have own : t.job.id < if before ≤ t.job.id then t.job.id + 1 else before := by
    split <;> omega
  exact Int.lt_of_lt_of_le own below

theorem Good.restart {zone : Int → Int} (good : Good zone st) (allowed : Allowed zone st .restart) :
    Good zone (cronNew st) where
  jobs t member := by
    obtain ⟨old, there, rfl⟩ := List.mem_map.mp member
    rw [good.kept] at there
    have own := good.jobs old there
    refine ⟨snprintf_ne_nil own.prompt (by decide), snprintf_twice 8 _, fun daily => ?_, fun flag => ?_, own.ran,
      own.waits, fun _ _ scheduled => absurd rfl scheduled, fun _ _ _ _ _ => .inl rfl⟩
    · obtain ⟨time, known, valid⟩ := own.time daily
      exact ⟨time, known, by rw [← valid]; exact congrArg clockTime own.saved⟩
    · have settled := allowed old there
      rw [show old.owed = true from flag] at settled
      cases settled
  ids := by
    rw [cronNew]
    dsimp only
    rw [good.kept, List.map_map]
    exact good.ids
  next t member := by
    obtain ⟨old, there, rfl⟩ := List.mem_map.mp member
    exact lt_nextId there 0
  room := by
    rw [cronNew]
    dsimp only
    rw [good.kept, List.length_map]
    exact good.room
  start := good.start

theorem getElem?_tick {zone : Int → Int} {now : Int} {inputs : Nat → Input} {i : Nat} {t : Tracked}
    (job : st.jobs[i]? = some t) :
    (cronTick zone st now inputs).1[i]? = some (tickJob zone now (inputs i) t).1 ∧
      (cronTick zone st now inputs).2.jobs[i]? = some (tickJob zone now (inputs i) t).2 := by
  simp [cronTick, List.getElem?_zipIdx, job]

theorem Good.tick {zone : Int → Int} (good : Good zone st) {now : Int} {inputs : Nat → Input}
    (allowed : Allowed zone st (.tick now inputs)) : Good zone (cronTick zone st now inputs).2 := by
  obtain ⟨later, inTime⟩ := allowed
  have each (i : Nat) (t : Tracked) (job : st.jobs[i]? = some t) :=
    (good.jobs t (List.mem_of_getElem? job)).tick good.start later (inTime i).1 ((inTime i).2 t job)
  have length : (cronTick zone st now inputs).2.jobs.length = st.jobs.length := by simp [cronTick]
  have ids : (cronTick zone st now inputs).2.jobs.map (fun t => t.job.id) = st.jobs.map fun t => t.job.id := by
    refine List.ext_getElem? fun i => ?_
    rw [List.getElem?_map, List.getElem?_map]
    cases job : st.jobs[i]? with
    | none =>
      have beyond := List.getElem?_eq_none_iff.mp job
      rw [List.getElem?_eq_none_iff.mpr (by omega)]
    | some t =>
      rw [(getElem?_tick job).2]
      exact congrArg some (each i t job).id
  refine ⟨?_, ids ▸ good.ids, ?_, length ▸ good.room, Int.le_trans good.start later⟩
  · intro t member
    obtain ⟨i, there⟩ := List.mem_iff_getElem?.mp member
    have within : i < st.jobs.length := by
      rw [← length]
      exact (List.getElem?_eq_some_iff.mp there).1
    have job : st.jobs[i]? = some st.jobs[i] := List.getElem?_eq_getElem within
    rw [(getElem?_tick job).2] at there
    cases there
    exact (each i _ job).kept
  · intro t member
    have listed : t.job.id ∈ st.jobs.map fun t => t.job.id := ids ▸ List.mem_map_of_mem member
    obtain ⟨t', there, same⟩ := List.mem_map.mp listed
    exact same ▸ good.next t' there

theorem Good.step {zone : Int → Int} {st : State} (good : Good zone st) {label : Label}
    (allowed : Allowed zone st label) : Good zone (step zone st label) := by
  cases label with
  | add name prompt session everySec at' => exact good.add allowed
  | remove id => exact good.remove id
  | setEnabled id enabled => exact good.setEnabled id enabled
  | restart => exact good.restart allowed
  | tick now inputs => exact good.tick allowed

/-- In every reachable state: a tick goes through every job once, and each has its own id; a run leaves
the next one in the future, a failed submission is due within a second, a daily job runs when its time
has come, and a restart keeps all jobs. -/
theorem conduct_of_run {zone : Int → Int} {labels : List Label} {st : State}
    (run : ((cron zone).restrict (Allowed zone)).Run fresh labels st) :
    (st.jobs.map fun t => t.job.id).Nodup ∧
      (∀ (now : Int) (inputs : Nat → Input), Allowed zone st (.tick now inputs) →
        ∀ (i : Nat) (t : Tracked), st.jobs[i]? = some t →
        ∃ outcome t', (cronTick zone st now inputs).1[i]? = some outcome ∧
          (cronTick zone st now inputs).2.jobs[i]? = some t' ∧ t'.job.id = t.job.id ∧ Conduct zone now t outcome t') ∧
      (∀ t ∈ st.jobs, t.owed = true → 0 < t.job.nextRunMs ∧ t.job.nextRunMs ≤ st.now + 1000) ∧
      (cronNew st).jobs.map (fun t => t.job.id) = st.jobs.map fun t => t.job.id := by
  have good : Good zone st := by
    refine @Machine.Run.invariant _ _ _ (Good zone) ?_ _ _ _ run ?_
    · rintro st label _ good ⟨allowed, rfl⟩
      exact good.step allowed
    · refine ⟨?_, List.nodup_nil, ?_, by decide, by decide⟩
      · intro t member
        cases member
      · intro t member
        cases member
  refine ⟨good.ids, ?_, fun t member => (good.jobs t member).owed, ?_⟩
  · intro now inputs allowed i t job
    have ticked := (good.jobs t (List.mem_of_getElem? job)).tick good.start allowed.1 (allowed.2 i).1
      ((allowed.2 i).2 t job)
    exact ⟨_, _, (getElem?_tick job).1, (getElem?_tick job).2, ticked.id, ticked.conduct⟩
  · rw [cronNew]
    dsimp only
    rw [good.kept, List.map_map]
    rfl

def lunchClock (sec tid : Int) : Nat → Input :=
  fun _ => { clock := { sec, ms := sec * 1000 }, tid }

theorem lunch_inTime {sec tid : Int} (later : st.now ≤ sec * 1000)
    (ready : ∀ t ∈ st.jobs, t.due = none ∨ t.job.nextRunMs ≠ 0) :
    Allowed (fun _ => 0) st (.tick (sec * 1000) (lunchClock sec tid)) := by
  refine ⟨later, fun i => ⟨⟨?_, Int.le_refl _, Int.le_refl _⟩, fun t job _ _ => ⟨fun _ _ _ => rfl, ?_⟩⟩⟩
  · show sec * 1000 < (sec + 1) * 1000
    omega
  · intro anew o waits
    rcases ready t (List.mem_of_getElem? job) with new | scheduled
    · rw [new] at waits
      cases waits
    · exact absurd anew scheduled

/-- A job for 12:30 is scheduled at noon and fails at 12:30:05. -/
theorem conduct_of_run_lunch : ∃ st,
    ((cron fun _ => 0).restrict (Allowed fun _ => 0)).Run fresh
        [.add [] (ascii "eat") [] 0 (some (ascii "12:30")), .tick (43200 * 1000) (lunchClock 43200 0),
          .tick (45005 * 1000) (lunchClock 45005 (-1))] st ∧
      ∀ t ∈ st.jobs, t.owed = true → 0 < t.job.nextRunMs ∧ t.job.nextRunMs ≤ st.now + 1000 := by
  have run : ((cron fun _ => 0).restrict (Allowed fun _ => 0)).Run fresh
      [.add [] (ascii "eat") [] 0 (some (ascii "12:30")), .tick (43200 * 1000) (lunchClock 43200 0),
        .tick (45005 * 1000) (lunchClock 45005 (-1))] _ :=
    Machine.Run.cons ⟨.inr (by decide), rfl⟩
      (Machine.Run.cons ⟨lunch_inTime (by decide) (by decide), rfl⟩
        (Machine.Run.single ⟨lunch_inTime (by decide) (by decide), rfl⟩))
  exact ⟨_, run, (conduct_of_run run).2.2.1⟩

/-- A time that is accepted and then cut: the job runs in every tick. -/
theorem runs_in_every_tick :
    ∃ st after : State, st = cronAdd fresh [] (ascii "eat") [] 0 (some (ascii "0000012:30")) ∧
      clockTime (ascii "0000012:30") = some (12, 30) ∧
      cronTick (fun _ => 0) st (43200 * 1000) (lunchClock 43200 0) =
        ([.tried (ascii "eat") (ascii "cron") 0], after) ∧
      (after.jobs.map fun t => t.job.nextRunMs) = [0] ∧
      (cronTick (fun _ => 0) after (43215 * 1000) (lunchClock 43215 1)).1 =
        [.tried (ascii "eat") (ascii "cron") 1] := by
  refine ⟨_, (cronTick (fun _ => 0) (cronAdd fresh [] (ascii "eat") [] 0 (some (ascii "0000012:30")))
    (43200 * 1000) (lunchClock 43200 0)).2, rfl, ?_⟩
  decide

end CognitiveOs.Runtime.Cron
