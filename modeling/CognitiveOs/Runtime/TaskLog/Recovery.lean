import CognitiveOs.Foundation.Options
import CognitiveOs.Runtime.TaskLog.Checkpoints
import Mathlib.Data.List.Sort

/-!
# Recovery of the journal

`tasklog_recover`: the newest record of each task, and a record that it was interrupted for those that
were still open.
-/

namespace CognitiveOs.Runtime.TaskLog

open Foundation Infra Cjson

/-! ### The source -/

def validId (o : Json) : Option Int :=
  match idOf o with
  | some value =>
    if 0 ≤ value ∧ value < 9007199254740991 ∧ (truncate value : Rat) = value then some (truncate value) else none
  | none => none

structure RecoveryRecord where
  id : Int
  order : Nat
  json : Json

/-- `compare_recovery`. -/
def RecoveryRecord.le (x y : RecoveryRecord) : Prop :=
  x.id < y.id ∨ x.id = y.id ∧ x.order ≤ y.order

instance : DecidableRel RecoveryRecord.le := fun x y =>
  inferInstanceAs (Decidable (x.id < y.id ∨ x.id = y.id ∧ x.order ≤ y.order))

def recoveryRecords (order : Nat) : List Json → List RecoveryRecord
  | [] => []
  | o :: rest =>
    match validId o with
    | some id => ⟨id, order, o⟩ :: recoveryRecords (order + 1) rest
    | none => recoveryRecords (order + 1) rest

def nextId (records : List RecoveryRecord) : Int :=
  records.foldl (fun next r => if next < r.id + 1 then r.id + 1 else next) 0

def lastOfEach : List RecoveryRecord → List RecoveryRecord
  | x :: y :: rest => if x.id = y.id then lastOfEach (y :: rest) else x :: lastOfEach (y :: rest)
  | [x] => [x]
  | [] => []

def isOpen (o : Json) : Bool :=
  (textOf o (ascii "status")).any openStatus

def accessOf (o : Json) : Int :=
  match o.get? (ascii "permission_mode") with
  | none => 0
  | some (.number value) => if 0 ≤ value ∧ value ≤ 2 ∧ value.den = 1 then value.num else 1
  | some _ => 1

def restartedText : Text :=
  ascii "Runtime restarted before task completion; inspect checkpoint and explicitly resume. " ++
    ascii "Saved usage is last-known only; an in-flight request may have unreported cost."

section

variable (number : Rat → Text)

def interrupted (f : Files) (r : RecoveryRecord) : Entry where
  id := r.id
  status := some (ascii "INTERRUPTED")
  session := (textOf r.json (ascii "session")).map cstr
  input := (textOf r.json (ascii "input")).map cstr
  output := some restartedText
  trace := checkpointRead number f r.id
  spans := none
  permissionMode := accessOf r.json
  strings := by
    have restarted : 0 ∉ restartedText := by decide
    simp [not_mem_cstr, restarted]
    decide

def interrupt (clock : Int → Int) (state : Int × Files) (r : RecoveryRecord) : Int × Files :=
  if isOpen r.json then (state.1 + 1, recordAccess number state.2 (interrupted number state.2 r) (clock r.id))
  else state

/-- `tasklog_recover`: its result, the next id and the files. -/
def recover (clock : Int → Int) (f : Files) : Int × Int × Files :=
  match f.journal with
  | none => (0, 0, f)
  | some file =>
    let arr := journalParse 0 none none file
    if arr.isEmpty ∧ file ≠ [] then (-1, 0, f)
    else
      let records := recoveryRecords 0 arr
      let done := (lastOfEach (records.insertionSort RecoveryRecord.le)).foldl (interrupt number clock) (0, f)
      (done.1, nextId records, done.2)

end

/-! ### The newest record of an id -/

variable {arr : List Json} {r : RecoveryRecord} {l : List RecoveryRecord}

def Files.records (f : Files) : List Json :=
  (f.journal.map (journalParse 0 none none)).getD []

def newestOf (arr : List Json) (id : Int) : Option Json :=
  (arr.filter fun o => validId o = some id).getLast?

theorem filter_recoveryRecords (order : Nat) (arr : List Json) (id : Int) :
    ((recoveryRecords order arr).filter fun r => r.id = id).map RecoveryRecord.json =
      arr.filter fun o => validId o = some id := by
  induction arr generalizing order with
  | nil => rfl
  | cons o arr ih =>
    rw [recoveryRecords]
    cases valid : validId o with
    | none => simp [valid, ih]
    | some key =>
      by_cases same : key = id
      · simp [valid, same, ih]
      · simp [valid, same, ih]

theorem order_of_mem {order : Nat} (member : r ∈ recoveryRecords order arr) : order ≤ r.order := by
  induction arr generalizing order with
  | nil => cases member
  | cons o arr ih =>
    rw [recoveryRecords] at member
    split at member
    · rcases List.mem_cons.mp member with rfl | later
      · exact le_refl _
      · exact Nat.le_of_succ_le (ih later)
    · exact Nat.le_of_succ_le (ih member)

theorem ordered_recoveryRecords (order : Nat) (arr : List Json) :
    (recoveryRecords order arr).Pairwise fun x y => x.order < y.order := by
  induction arr generalizing order with
  | nil => exact .nil
  | cons o arr ih =>
    rw [recoveryRecords]
    split
    · exact .cons (fun r member => order_of_mem member) (ih _)
    · exact ih _

instance : Std.Total RecoveryRecord.le where
  total x y := by
    unfold RecoveryRecord.le
    omega

instance : IsTrans RecoveryRecord RecoveryRecord.le where
  trans x y z first second := by
    unfold RecoveryRecord.le at *
    omega

theorem filter_sorted (arr : List Json) (id : Int) :
    ((recoveryRecords 0 arr).insertionSort RecoveryRecord.le).filter (fun r => r.id = id) =
      (recoveryRecords 0 arr).filter fun r => r.id = id := by
  have ordered := ordered_recoveryRecords 0 arr
  have orders : ((recoveryRecords 0 arr).map RecoveryRecord.order).Nodup :=
    (List.pairwise_map.mpr ordered).imp fun less => Nat.ne_of_lt less
  have perm := (List.perm_insertionSort RecoveryRecord.le (recoveryRecords 0 arr)).filter fun r => r.id = id
  refine @List.Perm.eq_of_pairwise _ RecoveryRecord.le _ _ ?_ ((List.pairwise_insertionSort _ _).filter _) ?_ perm
  · intro x y member member' first second
    have same : x.order = y.order := by
      unfold RecoveryRecord.le at first second
      omega
    exact List.inj_on_of_nodup_map orders (List.mem_filter.mp (perm.subset member)).1 (List.mem_filter.mp member').1
      same
  · refine List.Pairwise.imp_of_mem ?_ (ordered.filter fun r => r.id = id)
    intro x y member member' less
    have first := of_decide_eq_true (List.mem_filter.mp member).2
    have second := of_decide_eq_true (List.mem_filter.mp member').2
    exact .inr ⟨first.trans second.symm, Nat.le_of_lt less⟩

theorem filter_lastOfEach (sorted : l.Pairwise RecoveryRecord.le) (id : Int) :
    (lastOfEach l).filter (fun r => r.id = id) = (l.filter fun r => r.id = id).getLast?.toList := by
  induction l using lastOfEach.induct with
  | case1 x y rest same ih =>
    rw [lastOfEach, if_pos same, ih sorted.of_cons]
    by_cases own : x.id = id
    · have next : y.id = id := same.symm.trans own
      simp [own, next]
    · simp [own]
  | case2 x y rest apart ih =>
    rw [lastOfEach, if_neg apart]
    by_cases own : x.id = id
    · have none_later : (y :: rest).filter (fun r => r.id = id) = [] := by
        refine List.filter_eq_nil_iff.mpr fun r member => ?_
        have first := (List.pairwise_cons.mp sorted).1
        have above : y.id ≤ r.id := by
          rcases List.mem_cons.mp member with rfl | later
          · exact Int.le_refl _
          · have := (List.pairwise_cons.mp sorted.of_cons).1 r later
            unfold RecoveryRecord.le at this
            omega
        have below := first y List.mem_cons_self
        unfold RecoveryRecord.le at below
        simp only [decide_eq_true_eq]
        omega
      have whole : (x :: y :: rest).filter (fun r => r.id = id) = [x] := by
        rw [List.filter_cons_of_pos (by simpa using own), none_later]
      rw [whole, List.filter_cons_of_pos (by simpa using own), ih sorted.of_cons, none_later]
      rfl
    · have whole : (x :: y :: rest).filter (fun r => r.id = id) = (y :: rest).filter fun r => r.id = id :=
        List.filter_cons_of_neg (by simpa using own)
      rw [whole, List.filter_cons_of_neg (by simpa using own), ih sorted.of_cons]
  | case3 x =>
    by_cases own : x.id = id <;> simp [lastOfEach, own]
  | case4 => rfl

theorem newest_eq (arr : List Json) (id : Int) :
    ((lastOfEach ((recoveryRecords 0 arr).insertionSort RecoveryRecord.le)).filter fun r => r.id = id).map
      RecoveryRecord.json = (newestOf arr id).toList := by
  rw [filter_lastOfEach (List.pairwise_insertionSort _ _), filter_sorted, newestOf, ← filter_recoveryRecords 0,
    List.getLast?_map, Option.toList_map]

/-! ### Records that are read back -/

variable {o : Json} {n : Nat} {f : Files} {id : Int}

theorem truncate_natCast (n : Nat) : truncate (n : Rat) = n := by
  have positive : (0 : Rat) ≤ n := by exact_mod_cast Nat.zero_le n
  rw [truncate, if_pos positive]
  exact_mod_cast Rat.floor_intCast (n : Int)

theorem validId_natCast (digits : n < 10 ^ 15) (id : idOf o = some (n : Rat)) : validId o = some (n : Int) := by
  have positive : (0 : Rat) ≤ n := by exact_mod_cast Nat.zero_le n
  have below : (n : Rat) < 9007199254740991 := by
    have : n < 9007199254740991 := Nat.lt_trans digits (by decide)
    exact_mod_cast this
  simp only [validId, id, truncate_natCast]
  exact if_pos ⟨positive, below, rfl⟩

theorem within_record {e : Entry} (now : Int)
    (room : ∀ text, e.trace = some text ∨ e.spans = some text → Shallow text) :
    WithinMembers (nestingLimit - 1) (recordMembers e now) := by
  have strings := e.strings
  have text (s : Option Text) (listed : s ∈ [e.status, e.session, e.input, e.output]) (d : Text) (plain : 0 ∉ d) :
      0 ∉ s.getD d := by
    cases value : s with
    | none => exact plain
    | some text => exact strings s listed text value
  have array (key : Text) (plain : 0 ∉ key) (s : Option Text) (shallow : ∀ text, s = some text → Shallow text) :
      WithinMembers (nestingLimit - 1) (arrayMember key s) := by
    unfold arrayMember
    split
    · exact .nil
    · rename_i text
      split
      · exact .nil
      · split
        · rename_i items read
          exact .cons plain (.array (shallow text rfl items read)) .nil
        · exact .nil
  have output : WithinMembers (nestingLimit - 1) (outputMember e.output) := by
    unfold outputMember
    split
    · exact .nil
    · rename_i answer given
      split
      · exact .nil
      · exact .cons (by decide) (.string (not_mem_sanitize (strings e.output (by simp) answer given))) .nil
  have trace := array (ascii "trace") (by decide) e.trace fun text given => room text (.inl given)
  have spans := array (ascii "spans") (by decide) e.spans fun text given => room text (.inr given)
  refine .cons (by decide) (.number _) (.cons (by decide) (.string (text _ (by simp) _ (by decide)))
    (.cons (by decide) (.number _) (.cons (by decide) (.string (text _ (by simp) _ (by simp)))
      (.cons (by decide) (.string (text _ (by simp) _ (by simp))) ?_))))
  exact output.append (trace.append (spans.append (.cons (by decide) (.number _) .nil)))

theorem read_head {number : Rat → Text} (digits : number n = decimal n) {height : Nat} {status : Text}
    {rest members' : List (Text × Json)} {r : Record} (shown : Json.RereadsMembers number height
      ((ascii "id", .number n) :: (ascii "status", .string status) :: rest) members')
    (members : r.members = Json.repairedMembers members') :
    idOf r.json = some (n : Rat) ∧ textOf r.json (ascii "status") = some (strUtf8Sanitize status) := by
  have keys : strUtf8Sanitize (ascii "id") = ascii "id" ∧ strUtf8Sanitize (ascii "status") = ascii "status" ∧
      ascii "id" ≠ ascii "status" := by
    decide
  cases shown with
  | cons _ id shown =>
    cases shown with
    | cons _ status shown =>
      cases id with
      | number id =>
        cases status with
        | string _ =>
          rw [read_decimal digits id, Json.repairedMembers, Json.repairedMembers, Json.repaired, Json.repaired, keys.1,
            keys.2.1] at members
          refine ⟨by simp only [idOf, Record.json, members, get?_cons_self], ?_⟩
          simp only [textOf, Record.json, members, get?_cons_of_ne keys.2.2, get?_cons_self]
          rfl

theorem record_of_entry {number : Rat → Text} (prints : PrintsNumbers number) {e : Entry} (own : e.id = n)
    (digits : n < 10 ^ 15) (now : Int) (room : ∀ text, e.trace = some text ∨ e.spans = some text → Shallow text) :
    ∃ r : Record, r.line = recordLine number e now ∧ validId r.json = some e.id ∧
      textOf r.json (ascii "status") = some (strUtf8Sanitize (e.status.getD (ascii "?"))) := by
  obtain ⟨r, line, members', shown, members⟩ := exists_record prints (within_record now room)
  have exact : toDouble e.id = (n : Rat) := by
    rw [own]
    exact toDouble_of_small (Nat.lt_trans digits (by decide))
  unfold recordMembers at shown
  rw [exact] at shown
  obtain ⟨id, status⟩ := read_head (prints.integers n digits) shown members
  exact ⟨r, line, by rw [own]; exact validId_natCast digits id, status⟩

theorem within_get? {height : Nat} {value : Json} {key : Text} (within : Within (height + 1) o)
    (found : o.get? key = some value) : Within height value := by
  cases within with
  | @object _ members within =>
    induction members with
    | nil => cases found
    | cons member members ih =>
      cases within with
      | @cons _ name first _ _ deep rest =>
        by_cases own : name = key
        · subst own
          rw [get?_cons_self] at found
          cases found
          exact deep
        · rw [get?_cons_of_ne own] at found
          exact ih rest found
  | _ => cases found

theorem slotRecord_within {id : Int} {text : Option Text} {version : Rat} {items : List Json}
    (read : slotRecord id text = some (version, items)) : WithinItems (nestingLimit - 2) items := by
  unfold slotRecord at read
  split at read
  · cases read
  · rename_i o parsed
    obtain ⟨s, -, parsed⟩ := Option.bind_eq_some_iff.mp parsed
    split at read
    · rename_i key number' trace _ _ found
      split at read
      · cases read
        have object : Within (nestingLimit - 1 + 1) o := parse_within parsed
        exact Within.array_iff.mp (within_get? object found)
      · cases read
    · cases read

theorem better_within {best record : Option (Rat × List Json)}
    (first : ∀ b ∈ best, WithinItems (nestingLimit - 2) b.2)
    (second : ∀ b ∈ record, WithinItems (nestingLimit - 2) b.2) :
    ∀ b ∈ better best record, WithinItems (nestingLimit - 2) b.2 := by
  unfold better
  split
  · exact first
  · rename_i version items
    split
    · exact second
    · exact first

theorem shallow_checkpointRead {number : Rat → Text} (prints : PrintsNumbers number) {text : Text}
    (read : checkpointRead number f id = some text) : Shallow text := by
  obtain ⟨best, found, rfl⟩ := Option.map_eq_some_iff.mp read
  have slots : List.range 2 = [0, 1] := rfl
  rw [slots, List.foldl_cons, List.foldl_cons, List.foldl_nil] at found
  have slot (i : Nat) : ∀ b ∈ slotRecord id (f.slots id i), WithinItems (nestingLimit - 2) b.2 :=
    fun b member => @slotRecord_within id _ b.1 b.2 member
  have items : WithinItems (nestingLimit - 2) best.2 :=
    better_within (better_within (by simp) (slot 0)) (slot 1) best found
  obtain ⟨json, shown⟩ := (Within.array items).rereads prints.reads
  intro others parsed
  rw [parse, parseWithEnd_print number shown (by decide)] at parsed
  cases parsed
  exact Within.array_iff.mp (within_of_rereads shown)

/-! ### A recovery -/

variable {more : List Json}

theorem mem_recoveryRecords {order : Nat} (member : r ∈ recoveryRecords order arr) :
    r.json ∈ arr ∧ validId r.json = some r.id := by
  induction arr generalizing order with
  | nil => cases member
  | cons o arr ih =>
    rw [recoveryRecords] at member
    split at member
    · rename_i id valid
      rcases List.mem_cons.mp member with rfl | later
      · exact ⟨List.mem_cons_self, valid⟩
      · exact ⟨List.mem_cons_of_mem _ (ih later).1, (ih later).2⟩
    · exact ⟨List.mem_cons_of_mem _ (ih member).1, (ih member).2⟩

theorem mem_of_lastOfEach (member : r ∈ lastOfEach l) : r ∈ l := by
  induction l using lastOfEach.induct with
  | case1 x y rest same ih =>
    rw [lastOfEach, if_pos same] at member
    exact List.mem_cons_of_mem _ (ih member)
  | case2 x y rest apart ih =>
    rw [lastOfEach, if_neg apart] at member
    rcases List.mem_cons.mp member with rfl | later
    · exact List.mem_cons_self
    · exact List.mem_cons_of_mem _ (ih later)
  | case3 x => exact member
  | case4 => cases member

theorem validId_nonneg (valid : validId o = some id) : 0 ≤ id := by
  unfold validId at valid
  split at valid
  · rename_i value _
    obtain ⟨⟨positive, -, -⟩, same⟩ := Option.ite_none_right_eq_some.mp valid
    cases same
    rw [truncate, if_pos positive]
    exact Rat.le_floor_iff.mpr (by exact_mod_cast positive)
  · cases valid

theorem lt_nextId {records : List RecoveryRecord} (member : r ∈ records) (next : Int) :
    r.id < records.foldl (fun next r => if next < r.id + 1 then r.id + 1 else next) next := by
  have grows (next : Int) (r : RecoveryRecord) : next ≤ if next < r.id + 1 then r.id + 1 else next := by
    split <;> omega
  obtain ⟨before, below⟩ := exists_step_le_foldl grows member next
  have own : r.id < if before < r.id + 1 then r.id + 1 else before := by
    split <;> omega
  exact Int.lt_of_lt_of_le own below

theorem interrupted_records {number : Rat → Text} (prints : PrintsNumbers number) (clock : Int → Int)
    (digits : ∀ r ∈ l, 0 ≤ r.id ∧ r.id < 10 ^ 15) (count : Int) {file : Text} (journal : f.journal = some file) :
    ∃ rs : List Record, ∃ f', l.foldl (interrupt number clock) (count, f) = (count + rs.length, f') ∧
      f'.journal = some (appended file rs) ∧
      rs.map (fun r => validId r.json) = (l.filter fun r => isOpen r.json).map (fun r => some r.id) ∧
      (∀ r ∈ rs, isOpen r.json = false) ∧ (rs = [] → f' = f) := by
  induction l generalizing count f file with
  | nil => exact ⟨[], f, by simp, journal, rfl, by simp, fun _ => rfl⟩
  | cons r l ih =>
    have later := fun other member => digits other (List.mem_cons_of_mem r member)
    by_cases task : isOpen r.json
    · obtain ⟨positive, small⟩ := digits r List.mem_cons_self
      have own : (interrupted number f r).id = r.id.toNat := by
        show r.id = r.id.toNat
        omega
      have room : ∀ text, (interrupted number f r).trace = some text ∨ (interrupted number f r).spans = some text →
          Shallow text := by
        rintro text (trace | spans)
        · exact shallow_checkpointRead prints trace
        · cases spans
      obtain ⟨first, line, valid, status⟩ := record_of_entry prints own (by omega) (clock r.id) room
      have wrote : (recordAccess number f (interrupted number f r) (clock r.id)).journal =
          some (appendLine file first.line) := by
        rw [recordAccess, if_neg (by rw [own]; omega), line, journal]
        rfl
      have closed : isOpen first.json = false := by
        have shut : openStatus (strUtf8Sanitize (ascii "INTERRUPTED")) = false := by decide
        rw [isOpen, status, Option.any_some]
        exact shut
      obtain ⟨rs, f', done, journal', ids, finished, -⟩ := ih later (count + 1) wrote
      refine ⟨first :: rs, f', ?_, journal', ?_, ?_, by simp⟩
      · rw [List.foldl_cons, interrupt, if_pos task, done, List.length_cons]
        congr 1
        omega
      · rw [List.map_cons, ids, valid]
        simp only [List.filter_cons, task, if_true, List.map_cons]
        rfl
      · intro o member
        rcases List.mem_cons.mp member with rfl | rest
        · exact closed
        · exact finished o rest
    · obtain ⟨rs, f', done, journal', ids, finished, same⟩ := ih later count journal
      refine ⟨rs, f', ?_, journal', ?_, finished, same⟩
      · rw [List.foldl_cons, interrupt, if_neg task, done]
      · simp only [ids, List.filter_cons, task, Bool.false_eq_true, if_false]

theorem records_appended {f' : Files} {file : Text} {rs : List Record} (journal : f.journal = some file)
    (journal' : f'.journal = some (appended file rs)) : f'.records = f.records ++ rs.map Record.json := by
  simp only [Files.records, journal, journal', Option.map_some, Option.getD_some, journalParse_eq, newest, if_true,
    journalLines_appended, List.filterMap_append, filterMap_lines]

theorem newestOf_append (arr more : List Json) (id : Int) :
    newestOf (arr ++ more) id = (newestOf more id).or (newestOf arr id) := by
  rw [newestOf, List.filter_append, List.getLast?_append]
  rfl

theorem newestOf_eq_none : newestOf arr id = none ↔ ∀ o ∈ arr, validId o ≠ some id := by
  simp [newestOf]

theorem mem_of_newestOf (newest : newestOf arr id = some o) : o ∈ arr ∧ validId o = some id := by
  have member := List.mem_filter.mp (List.mem_of_getLast? newest)
  exact ⟨member.1, of_decide_eq_true member.2⟩

def lastRecords (arr : List Json) : List RecoveryRecord :=
  lastOfEach ((recoveryRecords 0 arr).insertionSort RecoveryRecord.le)

theorem mem_lastRecords : (∃ r ∈ lastRecords arr, r.id = id ∧ r.json = o) ↔ newestOf arr id = some o := by
  have same := newest_eq arr id
  constructor
  · rintro ⟨r, member, rfl, rfl⟩
    have listed : r.json ∈ (newestOf arr r.id).toList := by
      rw [← same]
      exact List.mem_map_of_mem (List.mem_filter.mpr ⟨member, decide_eq_true rfl⟩)
    exact Option.mem_toList.mp listed
  · intro newest
    have listed : o ∈ (newestOf arr id).toList := Option.mem_toList.mpr newest
    rw [← same] at listed
    obtain ⟨r, member, rfl⟩ := List.mem_map.mp listed
    obtain ⟨there, own⟩ := List.mem_filter.mp member
    exact ⟨r, there, of_decide_eq_true own, rfl⟩

theorem lastRecords_valid (member : r ∈ lastRecords arr) : r.json ∈ arr ∧ validId r.json = some r.id :=
  mem_recoveryRecords ((List.mem_insertionSort _).mp (mem_of_lastOfEach member))

theorem exists_recoveryRecord (member : o ∈ arr) (valid : validId o = some id) :
    ∃ r ∈ recoveryRecords 0 arr, r.id = id := by
  have filtered : o ∈ arr.filter fun o => validId o = some id := List.mem_filter.mpr ⟨member, decide_eq_true valid⟩
  rw [← filter_recoveryRecords 0] at filtered
  obtain ⟨r, there, -⟩ := List.mem_map.mp filtered
  exact ⟨r, (List.mem_filter.mp there).1, of_decide_eq_true (List.mem_filter.mp there).2⟩

/-- Records that are added to a journal: for each task that is open there is one, and it is not open. -/
structure Interrupts (arr more : List Json) : Prop where
  ids : ∀ id, (∃ o ∈ more, validId o = some id) ↔ ∃ o, newestOf arr id = some o ∧ isOpen o = true
  shut : ∀ o ∈ more, isOpen o = false

theorem Interrupts.closed (interrupts : Interrupts arr more) (newest : newestOf (arr ++ more) id = some o) :
    isOpen o = false := by
  rw [newestOf_append] at newest
  cases later : newestOf more id with
  | some o' =>
    rw [later, Option.some_or] at newest
    cases newest
    exact interrupts.shut o (mem_of_newestOf later).1
  | none =>
    rw [later, Option.none_or] at newest
    by_contra task
    obtain ⟨o', member, valid⟩ := (interrupts.ids id).mpr ⟨o, newest, by simpa using task⟩
    exact newestOf_eq_none.mp later o' member valid

theorem Interrupts.known (interrupts : Interrupts arr more) (member : o ∈ arr ++ more) (valid : validId o = some id) :
    ∃ o ∈ arr, validId o = some id := by
  rcases List.mem_append.mp member with old | new
  · exact ⟨o, old, valid⟩
  · obtain ⟨o', newest, -⟩ := (interrupts.ids id).mp ⟨o, new, valid⟩
    exact ⟨o', mem_of_newestOf newest⟩

theorem Interrupts.keeps (interrupts : Interrupts arr more) (newest : newestOf arr id = some o)
    (shut : isOpen o = false) : newestOf (arr ++ more) id = some o := by
  have none_later : newestOf more id = none := by
    refine newestOf_eq_none.mpr fun o' member valid => ?_
    obtain ⟨o'', newest', task⟩ := (interrupts.ids id).mp ⟨o', member, valid⟩
    rw [newest] at newest'
    cases newest'
    rw [shut] at task
    cases task
  rw [newestOf_append, none_later, newest]
  rfl

theorem interrupts_of_ids {rs : List Record}
    (ids : rs.map (fun r => validId r.json) = ((lastRecords arr).filter fun r => isOpen r.json).map fun r => some r.id)
    (shut : ∀ r ∈ rs, isOpen r.json = false) : Interrupts arr (rs.map Record.json) where
  ids id := by
    have listed : (∃ o ∈ rs.map Record.json, validId o = some id) ↔ some id ∈ rs.map (fun r => validId r.json) := by
      simp
    rw [listed, ids]
    constructor
    · intro member
      obtain ⟨r, there, equal⟩ := List.mem_map.mp member
      obtain ⟨last, task⟩ := List.mem_filter.mp there
      exact ⟨r.json, mem_lastRecords.mp ⟨r, last, Option.some.inj equal, rfl⟩, task⟩
    · rintro ⟨o, newest, task⟩
      obtain ⟨r, last, rfl, rfl⟩ := mem_lastRecords.mpr newest
      exact List.mem_map_of_mem (List.mem_filter.mpr ⟨last, task⟩)
  shut o member := by
    obtain ⟨r, there, rfl⟩ := List.mem_map.mp member
    exact shut r there

theorem interrupt_count (number : Rat → Text) (clock : Int → Int) (l : List RecoveryRecord) (state : Int × Files) :
    state.1 ≤ (l.foldl (interrupt number clock) state).1 := by
  induction l generalizing state with
  | nil => exact Int.le_refl _
  | cons r l ih =>
    have step : state.1 ≤ (interrupt number clock state r).1 := by
      unfold interrupt
      split
      · exact Int.le.intro 1 rfl
      · exact Int.le_refl _
    exact Int.le_trans step (ih _)

theorem recover_failed {number : Rat → Text} {clock : Int → Int} (failed : (recover number clock f).1 = -1) :
    f.records = [] ∧ ∀ later, recover number later f = (-1, 0, f) := by
  cases journal : f.journal with
  | none =>
    simp only [recover, journal] at failed
    cases failed
  | some file =>
    simp only [recover, journal, Files.records] at failed ⊢
    by_cases broken : (journalParse 0 none none file).isEmpty ∧ file ≠ []
    · exact ⟨List.isEmpty_iff.mp broken.1, fun _ => if_pos broken⟩
    · rw [if_neg broken] at failed
      have count := interrupt_count number clock
        (lastOfEach ((recoveryRecords 0 (journalParse 0 none none file)).insertionSort RecoveryRecord.le)) (0, f)
      rw [failed] at count
      exact absurd (show (0 : Int) ≤ -1 from count) (by decide)

theorem recover_spec {number : Rat → Text} (prints : PrintsNumbers number) (clock : Int → Int)
    (digits : ∀ o ∈ f.records, ∀ id, validId o = some id → id < 10 ^ 15) (readable : (recover number clock f).1 ≠ -1) :
    ∃ rs : List Record,
      (recover number clock f).1 = rs.length ∧
      (recover number clock f).2.1 = nextId (recoveryRecords 0 f.records) ∧
      (recover number clock f).2.2.records = f.records ++ rs.map Record.json ∧
      rs.map (fun r => validId r.json) =
        ((lastRecords f.records).filter fun r => isOpen r.json).map (fun r => some r.id) ∧
      (∀ r ∈ rs, isOpen r.json = false) ∧ (rs = [] → (recover number clock f).2.2 = f) := by
  cases journal : f.journal with
  | none =>
    have nothing : f.records = [] := by simp [Files.records, journal]
    refine ⟨[], ?_⟩
    simp only [recover, journal, nothing]
    simp [lastRecords, recoveryRecords, lastOfEach, nextId]
  | some file =>
    have arr : f.records = journalParse 0 none none file := by simp [Files.records, journal]
    have kept : ¬ ((journalParse 0 none none file).isEmpty ∧ file ≠ []) := by
      intro broken
      apply readable
      simp only [recover, journal]
      rw [if_pos broken]
    have small : ∀ r ∈ lastRecords f.records, 0 ≤ r.id ∧ r.id < 10 ^ 15 := by
      intro r member
      obtain ⟨listed, valid⟩ := lastRecords_valid member
      exact ⟨validId_nonneg valid, digits r.json listed r.id valid⟩
    obtain ⟨rs, f', done, journal', ids, finished, same⟩ := interrupted_records prints clock small 0 journal
    have run : recover number clock f = ((rs.length : Int), nextId (recoveryRecords 0 f.records), f') := by
      simp only [recover, journal]
      rw [if_neg kept]
      rw [lastRecords, arr] at done
      rw [done, arr, Int.zero_add]
    rw [run]
    exact ⟨rs, rfl, rfl, records_appended journal journal', ids, finished, same⟩

theorem records_written (records : List Record) (slots : Int → Nat → Option Text) :
    (Files.mk (some (written records)) slots).records = records.map Record.json := by
  have lines := journalLines_written records []
  rw [List.append_nil] at lines
  simp only [Files.records, Option.map_some, Option.getD_some, journalParse_eq, newest, if_true, lines,
    List.filterMap_append, filterMap_lines]
  simp [journalLines]

theorem exists_running : ∃ r : Record,
    r.line = Json.print naturalText (.object [(ascii "id", .number n), (ascii "status", .string (ascii "RUNNING"))]) ∧
      idOf r.json = some (n : Rat) ∧ isOpen r.json = true := by
  have within : WithinMembers (nestingLimit - 1)
      [(ascii "id", .number n), (ascii "status", .string (ascii "RUNNING"))] :=
    .cons (by decide) (.number _) (.cons (by decide) (.string (by decide)) .nil)
  obtain ⟨r, line, members', shown, members⟩ := exists_record printsNumbers_naturalText within
  obtain ⟨own, status⟩ := read_head (naturalText_natCast n) shown members
  have text : openStatus (strUtf8Sanitize (ascii "RUNNING")) = true := by decide
  refine ⟨r, line, own, ?_⟩
  rw [isOpen, status, Option.any_some]
  exact text

/-- After a recovery no task is open, the next id is above all of the journal, what was recorded is
still there, the newest record of a finished task too, and another recovery does nothing. -/
theorem recovery_converges {number : Rat → Text} (prints : PrintsNumbers number) (clock later : Int → Int) {f : Files}
    (digits : ∀ o ∈ f.records, ∀ id, validId o = some id → id < 10 ^ 15) (readable : (recover number clock f).1 ≠ -1) :
    (∀ id o, newestOf (recover number clock f).2.2.records id = some o → isOpen o = false) ∧
      (∀ o ∈ (recover number clock f).2.2.records, ∀ id, validId o = some id → id < (recover number clock f).2.1) ∧
      f.records <+: (recover number clock f).2.2.records ∧
      (∀ id o, newestOf f.records id = some o → isOpen o = false →
        newestOf (recover number clock f).2.2.records id = some o) ∧
      (recover number later (recover number clock f).2.2).1 = 0 ∧
      (recover number later (recover number clock f).2.2).2.2 = (recover number clock f).2.2 := by
  obtain ⟨rs, count, next, records, ids, finished, same⟩ := recover_spec prints clock digits readable
  have interrupts := interrupts_of_ids ids finished
  have closed : ∀ id o, newestOf (recover number clock f).2.2.records id = some o → isOpen o = false := by
    intro id o newest
    rw [records] at newest
    exact interrupts.closed newest
  have known : ∀ o ∈ (recover number clock f).2.2.records, ∀ id, validId o = some id →
      ∃ o ∈ f.records, validId o = some id := by
    intro o member id valid
    rw [records] at member
    exact interrupts.known member valid
  refine ⟨closed, ?_, ⟨_, records.symm⟩, ?_, ?_⟩
  · intro o member id valid
    obtain ⟨o', old, valid'⟩ := known o member id valid
    obtain ⟨r, there, rfl⟩ := exists_recoveryRecord old valid'
    rw [next]
    exact lt_nextId there 0
  · intro id o newest shut
    rw [records]
    exact interrupts.keeps newest shut
  · -- the second recovery can read the journal and finds no open task
    have digits' : ∀ o ∈ (recover number clock f).2.2.records, ∀ id, validId o = some id → id < 10 ^ 15 := by
      intro o member id valid
      obtain ⟨o', old, valid'⟩ := known o member id valid
      exact digits o' old id valid'
    have readable' : (recover number later (recover number clock f).2.2).1 ≠ -1 := by
      intro failed
      have empty := (recover_failed failed).1
      rw [records] at empty
      have nothing : rs = [] := by simpa using (List.append_eq_nil_iff.mp empty).2
      rw [same nothing] at failed
      exact readable (by rw [(recover_failed failed).2 clock])
    obtain ⟨rs', count', -, -, ids', -, same'⟩ := recover_spec prints later digits' readable'
    have none' : rs' = [] := by
      have no_task : ((lastRecords (recover number clock f).2.2.records).filter fun r => isOpen r.json) = [] := by
        refine List.filter_eq_nil_iff.mpr fun r member task => ?_
        have shut := closed r.id r.json (mem_lastRecords.mp ⟨r, member, rfl, rfl⟩)
        rw [shut] at task
        cases task
      rw [no_task] at ids'
      simpa using ids'
    exact ⟨by rw [count', none']; rfl, same' none'⟩

/-- Task 1 was running. -/
theorem recovery_converges_running : ∃ r : Record, r.line = ascii "\x7b\"id\":1,\"status\":\"RUNNING\"\x7d" ∧
    (recover naturalText (fun _ => 0) (Files.mk (some (written [r])) noFiles.slots)).1 ≠ -1 ∧
      ∀ id o, newestOf (recover naturalText (fun _ => 0) (Files.mk (some (written [r])) noFiles.slots)).2.2.records id =
        some o → isOpen o = false := by
  obtain ⟨r, line, own, -⟩ := exists_running (n := 1)
  have records := records_written [r] noFiles.slots
  have readable : (recover naturalText (fun _ => 0) (Files.mk (some (written [r])) noFiles.slots)).1 ≠ -1 := by
    intro failed
    rw [(recover_failed failed).1] at records
    cases records
  have digits : ∀ o ∈ (Files.mk (some (written [r])) noFiles.slots).records, ∀ id, validId o = some id →
      id < 10 ^ 15 := by
    intro o member id valid
    rw [records] at member
    obtain rfl : o = r.json := by simpa using member
    rw [validId_natCast (by decide) own] at valid
    cases valid
    decide
  refine ⟨r, line.trans (by decide), readable, ?_⟩
  exact (recovery_converges printsNumbers_naturalText (fun _ => 0) (fun _ => 0) digits readable).1

/-- A running task whose id is 2^53 - 1 stays as it is, and its id is not below the next one. -/
theorem recovery_skips : ∃ r : Record, r.line = ascii "\x7b\"id\":9007199254740991,\"status\":\"RUNNING\"\x7d" ∧
    idOf r.json = some 9007199254740991 ∧ isOpen r.json = true ∧
      (Files.mk (some (written [r])) noFiles.slots).records = [r.json] ∧
      recover naturalText (fun _ => 0) (Files.mk (some (written [r])) noFiles.slots) =
        (0, 0, Files.mk (some (written [r])) noFiles.slots) := by
  obtain ⟨r, line, own, task⟩ := exists_running (n := 9007199254740991)
  have records := records_written [r] noFiles.slots
  have guarded : validId r.json = none := by
    rw [validId, own]
    simp
  have none_valid : recoveryRecords 0 [r.json] = [] := by
    rw [recoveryRecords, guarded]
    rfl
  have parsed : journalParse 0 none none (written [r]) = [r.json] := by
    simpa [Files.records] using records
  refine ⟨r, line.trans (by decide), own, task, records, ?_⟩
  simp only [recover, parsed, none_valid]
  rfl

end CognitiveOs.Runtime.TaskLog
