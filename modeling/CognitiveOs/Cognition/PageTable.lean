import CognitiveOs.Cognition.Searches
import Mathlib.Data.List.Nodup
import Mathlib.Data.List.Perm.Basic

/-!
# Read pages

How far each file was read, taken from the header that `file_read` prints over a page.
-/

namespace CognitiveOs.Cognition

open Infra Os

structure PendingRead where
  path : Text
  next : Nat := 0
  version : UInt64

structure CompletedRead where
  path : Text
  version : UInt64

structure Reads where
  pending : List PendingRead := []
  completed : List CompletedRead := []
  overflow : Bool := false

/-- What `record_read_page` takes from an output: the range it announces, where the next
page starts and whether there is one. -/
structure PageHeader where
  first : Nat
  next : Nat
  more : Bool

/-- `sscanf(header, "[bytes %llu-%llu", …)`, the first number when both are there. -/
def scanRange (header : Text) : Option Nat :=
  match scanUnsigned (header.drop 7) with
  | some (first, 45 :: rest) => if (scanUnsigned rest).isSome then some first else none
  | _ => none

def scanNext (header : Text) : Nat :=
  match strstr (ascii "next_offset_bytes=") header with
  | none => 0
  | some marker => ((scanUnsigned (marker.drop 18)).map Prod.fst).getD 0

def pageHeader (output : Text) : Option PageHeader :=
  (strstr (ascii "[bytes ") output).bind fun header =>
    (scanRange header).map fun first =>
      { first, next := scanNext header, more := (strstr (ascii "more available") header).isSome }

def removeSwap {α : Type} (entries : List α) (i : Nat) : List α :=
  match entries.getLast? with
  | none => []
  | some last => (entries.set i last).dropLast

variable (workspace : Text) (w : World)

/-- Drop the completed read of another version; `none` when this version is complete. -/
def reopenRead (t : Reads) (full : Text) (version : UInt64) : Option Reads :=
  match t.completed.findIdx? fun c => c.path = full with
  | none => some t
  | some done =>
    if version ≠ 0 && (t.completed[done]?.any fun c => c.version = version) then none
    else some { t with completed := removeSwap t.completed done }

def completeRead (t : Reads) (full : Text) (version : UInt64) : Reads :=
  if t.completed.length < 128 then
    { t with completed := t.completed ++ [{ path := full, version }] }
  else t

/-- The slot of a file, made when there is none; `none` when the table is full. -/
def pendingRead (t : Reads) (full : Text) (version : UInt64) : Option (Reads × Nat) :=
  match t.pending.findIdx? fun p => p.path = full with
  | some i => some (t, i)
  | none =>
    if t.pending.length = 128 then none
    else some ({ t with pending := t.pending ++ [{ path := full, version }] }, t.pending.length)

def PendingRead.current (p : PendingRead) (version : UInt64) : PendingRead :=
  if p.version ≠ version then { p with version, next := 0 } else p

def advanceRead (t : Reads) (i : Nat) (full : Text) (version : UInt64)
    (header : Option PageHeader) : Reads :=
  let t := { t with pending := t.pending.modify i fun p => p.current version }
  match t.pending[i]? with
  | none => t
  | some p =>
    if header.all fun h => h.first ≤ p.next then
      if header.any fun h => h.more then
        { t with pending := t.pending.modify i fun p =>
            { p with next := max p.next ((header.map PageHeader.next).getD 0) } }
      else
        { completeRead t full version with pending := t.pending.eraseIdx i }
    else t

def recordReadPage (t : Reads) (args : Option Json) (output : Text) : Reads :=
  match argString args "path" with
  | none => t
  | some path =>
    let full := normalizedEvidencePath workspace w path 2048
    if w.fsIsDir full then t
    else
      let version := w.fsFileVersion full
      match reopenRead t full version with
      | none => t
      | some t =>
        let header := pageHeader output
        if header.isNone && !t.pending.any fun p => p.path = full then
          let offset := argNumber args "offset_bytes"
          if offset.all fun value => value = 0 then completeRead t full version else t
        else
          match pendingRead t full version with
          | none => { t with overflow := true }
          | some (t, i) => advanceRead t i full version header

def fullReadVerified (t : Reads) (path : Text) : Bool :=
  match t.completed.find? fun c => c.path = path with
  | none => false
  | some c => w.fsFileVersion path ≠ 0 && w.fsFileVersion path = c.version

end CognitiveOs.Cognition

/-!
## The tables of read pages

What a page can do to the pending and the completed reads: each file has one entry at most, and
only the entries of the file itself change.
-/

namespace CognitiveOs.Cognition

open Infra Os

section Entries

variable {α : Type} {key : α → Text} {k : Text} {l : List α} {i : Nat}

theorem removeSwap_perm (bound : i < l.length) : (removeSwap l i).Perm (l.eraseIdx i) := by
  rcases List.eq_nil_or_concat l with rfl | ⟨front, last, rfl⟩
  · exact absurd bound (Nat.not_lt_zero _)
  · unfold removeSwap
    rw [List.concat_eq_append, List.getLast?_concat] at *
    simp only
    rw [List.length_append, List.length_singleton] at bound
    by_cases inside : i < front.length
    · rw [List.set_append_left _ _ inside, List.dropLast_concat, List.eraseIdx_append_of_lt_length inside]
      exact (List.set_perm_cons_eraseIdx inside last).trans (List.perm_append_singleton _ _).symm
    · obtain rfl : i = front.length := by omega
      rw [List.set_append_right _ _ (Nat.le_refl _), List.eraseIdx_append_of_length_le (Nat.le_refl _)]
      simp

theorem filter_fresh (fresh : k ∉ l.map key) : l.filter (fun e => key e ≠ k) = l := by
  apply List.filter_eq_self.mpr
  intro e member
  apply decide_eq_true
  intro same
  exact fresh (List.mem_map.mpr ⟨e, member, same⟩)

theorem eraseIdx_find (nodup : (l.map key).Nodup) (found : l.findIdx? (fun e => key e = k) = some i) :
    l.eraseIdx i = l.filter fun e => key e ≠ k := by
  induction l generalizing i with
  | nil => cases found
  | cons e l ih =>
    rw [List.map_cons, List.nodup_cons] at nodup
    rw [List.findIdx?_cons] at found
    by_cases same : key e = k
    · rw [if_pos (decide_eq_true same)] at found
      obtain rfl := Option.some.inj found
      rw [List.eraseIdx_cons_zero, List.filter_cons_of_neg (by simpa using same), filter_fresh (same ▸ nodup.1)]
    · rw [if_neg (by simpa using same)] at found
      obtain ⟨j, found', rfl⟩ := Option.map_eq_some_iff.mp found
      rw [List.eraseIdx_cons_succ, List.filter_cons_of_pos (by simpa using same), ih nodup.2 found']

theorem modify_find (nodup : (l.map key).Nodup) (found : l.findIdx? (fun e => key e = k) = some i) :
    ∃ e, l[i]? = some e ∧ e ∈ l ∧ key e = k ∧
      ∀ f, (l.modify i f).Perm (f e :: l.filter fun e => key e ≠ k) := by
  obtain ⟨bound, holds, -⟩ := List.findIdx?_eq_some_iff_getElem.mp found
  refine ⟨l[i], List.getElem?_eq_getElem bound, List.getElem_mem bound, of_decide_eq_true holds, fun f => ?_⟩
  rw [← eraseIdx_find nodup found, List.modify_eq_take_cons_drop bound, List.eraseIdx_eq_take_drop_succ]
  exact List.perm_middle

def Touches (key : α → Text) (k : Text) (l l' : List α) : Prop :=
  l'.Perm l ∨ l'.Perm (l.filter fun e => key e ≠ k) ∨
    ∃ e, key e = k ∧ l'.Perm (e :: l.filter fun e => key e ≠ k)

theorem Touches.nodup {l' : List α} (touches : Touches key k l l') (nodup : (l.map key).Nodup) :
    (l'.map key).Nodup := by
  have others : ((l.filter fun e => key e ≠ k).map key).Nodup :=
    nodup.sublist (List.filter_sublist.map key)
  rcases touches with perm | perm | ⟨e, same, perm⟩
  · exact (perm.map key).nodup_iff.mpr nodup
  · exact (perm.map key).nodup_iff.mpr others
  · apply (perm.map key).nodup_iff.mpr
    rw [List.map_cons, List.nodup_cons]
    refine ⟨?_, others⟩
    intro member
    obtain ⟨other, member, clash⟩ := List.mem_map.mp member
    exact of_decide_eq_true (List.mem_filter.mp member).2 (clash.trans same)

theorem Touches.mem_other {l' : List α} {e : α} (touches : Touches key k l l') (other : key e ≠ k) :
    e ∈ l' ↔ e ∈ l := by
  rcases touches with perm | perm | ⟨e', same, perm⟩
  · exact perm.mem_iff
  · rw [perm.mem_iff, List.mem_filter, decide_eq_true_eq]
    exact and_iff_left other
  · rw [perm.mem_iff, List.mem_cons, List.mem_filter, decide_eq_true_eq]
    constructor
    · rintro (rfl | member)
      · exact absurd same other
      · exact member.1
    · exact fun member => .inr ⟨member, other⟩

end Entries

variable {workspace : Text} {w : World} {t t' : Reads} {full : Text} {version : UInt64}

structure Reads.Keyed (t : Reads) : Prop where
  completed : (t.completed.map CompletedRead.path).Nodup
  pending : (t.pending.map PendingRead.path).Nodup

def Reads.otherCompleted (t : Reads) (full : Text) : List CompletedRead :=
  t.completed.filter fun c => c.path ≠ full

def Reads.otherPending (t : Reads) (full : Text) : List PendingRead :=
  t.pending.filter fun p => p.path ≠ full

theorem reopenRead_spec (keyed : t.Keyed) :
    match reopenRead t full version with
    | none => version ≠ 0 ∧ ∃ c ∈ t.completed, c.path = full ∧ c.version = version
    | some t' => (∀ c ∈ t.completed, c.path = full → version = 0 ∨ c.version ≠ version) ∧
        t'.pending = t.pending ∧ t'.completed.Perm (t.otherCompleted full) := by
  unfold reopenRead
  cases found : t.completed.findIdx? fun c => c.path = full with
  | none =>
    rw [List.findIdx?_eq_none_iff] at found
    refine ⟨fun c member same => ?_, rfl, ?_⟩
    · have other := found c member
      simp [same] at other
    · unfold Reads.otherCompleted
      rw [List.filter_eq_self.mpr fun c member => by simpa using found c member]
  | some done =>
    obtain ⟨c, atDone, member, same, -⟩ := modify_find keyed.completed found
    obtain ⟨bound, -⟩ := List.getElem?_eq_some_iff.mp atDone
    have only : ∀ other ∈ t.completed, other.path = full → other = c := by
      intro other member' same'
      exact List.inj_on_of_nodup_map keyed.completed member' member (same'.trans same.symm)
    simp only [atDone, Option.any_some]
    by_cases covered : version ≠ 0 ∧ c.version = version
    · rw [if_pos (by simpa using covered)]
      exact ⟨covered.1, c, member, same, covered.2⟩
    · rw [if_neg (by simpa using covered)]
      refine ⟨fun other member' same' => ?_, rfl, ?_⟩
      · rw [only other member' same']
        by_contra both
        exact covered (by simpa [not_or] using both)
      · unfold Reads.otherCompleted
        rw [← eraseIdx_find keyed.completed found]
        exact removeSwap_perm bound

def Reads.readTo (t : Reads) (full : Text) (version : UInt64) : Nat :=
  match t.pending.find? fun p => p.path = full with
  | some p => (p.current version).next
  | none => 0

@[simp] theorem PendingRead.current_path (p : PendingRead) : (p.current version).path = p.path := by
  unfold PendingRead.current
  split <;> rfl

@[simp] theorem PendingRead.current_version (p : PendingRead) : (p.current version).version = version := by
  unfold PendingRead.current
  split
  · rfl
  · exact not_not.mp ‹_›

theorem find_of_mem (keyed : t.Keyed) {p : PendingRead} (member : p ∈ t.pending) (same : p.path = full) :
    t.pending.find? (fun p => p.path = full) = some p := by
  cases found : t.pending.find? fun p => p.path = full with
  | none =>
    have other := List.find?_eq_none.mp found p member
    exact absurd (decide_eq_true same) other
  | some q =>
    have same' : q.path = full := by simpa using List.find?_some found
    rw [List.inj_on_of_nodup_map keyed.pending (List.mem_of_find?_eq_some found) member (same'.trans same.symm)]

theorem pendingRead_spec (keyed : t.Keyed) :
    match pendingRead t full version with
    | none => full ∉ t.pending.map PendingRead.path ∧ t.pending.length = 128
    | some (t', i) => t'.completed = t.completed ∧ t'.Keyed ∧ t'.otherPending full = t.otherPending full ∧
        t'.pending.findIdx? (fun p => p.path = full) = some i ∧ t'.readTo full version = t.readTo full version := by
  unfold pendingRead
  cases found : t.pending.findIdx? fun p => p.path = full with
  | some i => exact ⟨rfl, keyed, rfl, found, rfl⟩
  | none =>
    have fresh : full ∉ t.pending.map PendingRead.path := by
      intro member
      obtain ⟨p, member, same⟩ := List.mem_map.mp member
      have other := List.findIdx?_eq_none_iff.mp found p member
      simp [same] at other
    simp only
    by_cases filled : t.pending.length = 128
    · rw [if_pos filled]
      exact ⟨fresh, filled⟩
    · rw [if_neg filled]
      refine ⟨rfl, ⟨keyed.completed, ?_⟩, ?_, ?_, ?_⟩
      · simp only [List.map_append, List.map_cons, List.map_nil]
        exact List.nodup_append.mpr ⟨keyed.pending, List.nodup_singleton _, fun p member q last same =>
          fresh (List.mem_singleton.mp last ▸ same ▸ member)⟩
      · unfold Reads.otherPending
        simp
      · rw [List.findIdx?_append, found]
        simp
      · have none' : t.pending.find? (fun p => p.path = full) = none := by
          apply List.find?_eq_none.mpr
          intro p member same
          exact fresh (List.mem_map.mpr ⟨p, member, of_decide_eq_true same⟩)
        unfold Reads.readTo
        rw [List.find?_append, none']
        simp [PendingRead.current]

/-- What a page makes of a file that is read up to `next`: `none` when it is complete. -/
def pageOutcome (next : Nat) (header : Option PageHeader) : Option Nat :=
  if header.all fun h => h.first ≤ next then
    if header.any fun h => h.more then some (max next ((header.map PageHeader.next).getD 0)) else none
  else some next

theorem advanceRead_spec {header : Option PageHeader} {i : Nat} (keyed : t.Keyed)
    (found : t.pending.findIdx? (fun p => p.path = full) = some i) :
    match pageOutcome (t.readTo full version) header with
    | some next => (advanceRead t i full version header).completed = t.completed ∧
        (advanceRead t i full version header).pending.Perm
          ({ path := full, next, version } :: t.otherPending full)
    | none => (advanceRead t i full version header).completed = (completeRead t full version).completed ∧
        (advanceRead t i full version header).pending = t.otherPending full := by
  obtain ⟨p, atI, member, same, changed⟩ := modify_find keyed.pending found
  have readTo : t.readTo full version = (p.current version).next := by
    unfold Reads.readTo
    rw [find_of_mem keyed member same]
  have rebuilt (q : PendingRead) (path : q.path = full) (now : q.version = version) :
      { path := full, next := q.next, version } = q := by
    rw [← path, ← now]
  have current := rebuilt (p.current version) (by simp [same]) (by simp)
  rw [readTo]
  unfold advanceRead pageOutcome
  simp only [List.getElem?_modify_eq, atI, Option.map_eq_map, Option.map_some]
  by_cases starts : header.all fun h => h.first ≤ (p.current version).next
  · by_cases more : header.any fun h => h.more
    · simp only [if_pos starts, if_pos more, List.modify_modify_eq]
      refine ⟨trivial, ?_⟩
      have both := changed ((fun p => { p with next := max p.next ((header.map PageHeader.next).getD 0) }) ∘
        fun p => p.current version)
      have now := rebuilt { p.current version with
        next := max (p.current version).next ((header.map PageHeader.next).getD 0) } (by simp [same]) (by simp)
      rw [Function.comp_apply, ← now] at both
      exact both
    · simp only [if_pos starts, if_neg more, List.eraseIdx_modify_of_eq, eraseIdx_find keyed.pending found]
      refine ⟨?_, rfl⟩
      unfold completeRead
      simp only
      split <;> rfl
  · simp only [if_neg starts]
    refine ⟨trivial, ?_⟩
    rw [current]
    exact changed _

def Reads.closed (t : Reads) (full : Text) (version : UInt64) : List CompletedRead :=
  if (t.otherCompleted full).length < 128 then { path := full, version } :: t.otherCompleted full
  else t.otherCompleted full

theorem completeRead_closed (others : t'.completed.Perm (t.otherCompleted full)) :
    (completeRead t' full version).completed.Perm (t.closed full version) := by
  unfold completeRead Reads.closed
  rw [others.length_eq]
  split
  · exact (List.perm_append_singleton _ _).trans (others.cons _)
  · exact others

@[simp] theorem completeRead_pending : (completeRead t full version).pending = t.pending := by
  unfold completeRead
  split <;> rfl

theorem isEmpty_pending :
    (!t.pending.any fun p => p.path = full) = true ↔ full ∉ t.pending.map PendingRead.path := by
  simp only [Bool.not_eq_true', List.any_eq_false, decide_eq_true_eq, List.mem_map, not_exists, not_and]

theorem recordReadPage_cases {args : Option Json} {path : Text} (output : Text) (keyed : t.Keyed)
    (named : argString args "path" = some path)
    (names : normalizedEvidencePath workspace w path 2048 = full) (file : w.fsIsDir full = false) :
    (w.fsFileVersion full ≠ 0 ∧ (∃ c ∈ t.completed, c.path = full ∧ c.version = w.fsFileVersion full) ∧
      recordReadPage workspace w t args output = t) ∨
    (∀ c ∈ t.completed, c.path = full → w.fsFileVersion full = 0 ∨ c.version ≠ w.fsFileVersion full) ∧
    ((full ∉ t.pending.map PendingRead.path ∧
        (recordReadPage workspace w t args output).pending = t.pending ∧
        ((pageHeader output = none ∧ (argNumber args "offset_bytes").all (fun value => value = 0) = true ∧
            (recordReadPage workspace w t args output).completed.Perm (t.closed full (w.fsFileVersion full))) ∨
          (pageHeader output = none ∧ (argNumber args "offset_bytes").all (fun value => value = 0) = false ∨
              pageHeader output ≠ none ∧ t.pending.length = 128) ∧
            (recordReadPage workspace w t args output).completed.Perm (t.otherCompleted full))) ∨
      match pageOutcome (t.readTo full (w.fsFileVersion full)) (pageHeader output) with
      | some next => (recordReadPage workspace w t args output).completed.Perm (t.otherCompleted full) ∧
          (recordReadPage workspace w t args output).pending.Perm
            ({ path := full, next, version := w.fsFileVersion full } :: t.otherPending full)
      | none => (recordReadPage workspace w t args output).completed.Perm (t.closed full (w.fsFileVersion full)) ∧
          (recordReadPage workspace w t args output).pending = t.otherPending full) := by
  unfold recordReadPage
  simp only [named, names, file, Bool.false_eq_true, if_false]
  have reopened := @reopenRead_spec t full (w.fsFileVersion full) keyed
  cases opened : reopenRead t full (w.fsFileVersion full) with
  | none =>
    rw [opened] at reopened
    exact .inl ⟨reopened.1, reopened.2, rfl⟩
  | some t₁ =>
    rw [opened] at reopened
    obtain ⟨new, pending, completed⟩ := reopened
    refine .inr ⟨new, ?_⟩
    have keyed₁ : t₁.Keyed := by
      refine ⟨?_, pending ▸ keyed.pending⟩
      have part := (List.filter_sublist (p := fun c : CompletedRead => decide (c.path ≠ full))
        (l := t.completed)).map CompletedRead.path
      exact (completed.map CompletedRead.path).nodup_iff.mpr (keyed.completed.sublist part)
    have slots := @pendingRead_spec t₁ full (w.fsFileVersion full) keyed₁
    simp only
    by_cases bare : ((pageHeader output).isNone && !t₁.pending.any fun p => p.path = full) = true
    · rw [if_pos bare]
      rw [Bool.and_eq_true, isEmpty_pending, Option.isNone_iff_eq_none] at bare
      refine .inl ⟨pending ▸ bare.2, ?_⟩
      cases zero : (argNumber args "offset_bytes").all fun value => value = 0 with
      | true =>
        rw [if_pos rfl]
        exact ⟨completeRead_pending.trans pending, .inl ⟨bare.1, rfl, completeRead_closed completed⟩⟩
      | false =>
        rw [if_neg Bool.false_ne_true]
        exact ⟨pending, .inr ⟨.inl ⟨bare.1, rfl⟩, completed⟩⟩
    · rw [if_neg bare]
      cases slot : pendingRead t₁ full (w.fsFileVersion full) with
      | none =>
        rw [slot] at slots
        refine .inl ⟨pending ▸ slots.1, pending, .inr ⟨.inr ⟨?_, pending ▸ slots.2⟩, completed⟩⟩
        intro none'
        apply bare
        rw [Bool.and_eq_true, isEmpty_pending, none']
        exact ⟨rfl, slots.1⟩
      | some found =>
        obtain ⟨t₂, i⟩ := found
        rw [slot] at slots
        obtain ⟨completed₂, keyed₂, others, found, readTo⟩ := slots
        have advanced := @advanceRead_spec t₂ full (w.fsFileVersion full) (pageHeader output) i keyed₂ found
        have same : t₁.readTo full (w.fsFileVersion full) = t.readTo full (w.fsFileVersion full) := by
          unfold Reads.readTo
          rw [pending]
        have same' : t₁.otherPending full = t.otherPending full := by
          unfold Reads.otherPending
          rw [pending]
        rw [readTo, same, others, same'] at advanced
        refine .inr ?_
        simp only
        cases outcome : pageOutcome (t.readTo full (w.fsFileVersion full)) (pageHeader output) with
        | none =>
          rw [outcome] at advanced
          refine ⟨?_, advanced.2⟩
          rw [advanced.1]
          exact completeRead_closed (completed₂ ▸ completed)
        | some next =>
          rw [outcome] at advanced
          exact ⟨advanced.1 ▸ completed₂ ▸ completed, advanced.2⟩

theorem touches_closed {l : List CompletedRead} (perm : l.Perm (t.closed full version)) :
    Touches CompletedRead.path full t.completed l := by
  unfold Reads.closed at perm
  split at perm
  · exact .inr (.inr ⟨_, rfl, perm⟩)
  · exact .inr (.inl perm)

theorem recordReadPage_touches (workspace : Text) (w : World) (keyed : t.Keyed) (args : Option Json)
    (output : Text) :
    recordReadPage workspace w t args output = t ∨ ∃ path, argString args "path" = some path ∧
      Touches CompletedRead.path (normalizedEvidencePath workspace w path 2048) t.completed
        (recordReadPage workspace w t args output).completed ∧
      Touches PendingRead.path (normalizedEvidencePath workspace w path 2048) t.pending
        (recordReadPage workspace w t args output).pending := by
  cases named : argString args "path" with
  | none =>
    left
    unfold recordReadPage
    rw [named]
  | some path =>
    by_cases dir : w.fsIsDir (normalizedEvidencePath workspace w path 2048) = true
    · left
      unfold recordReadPage
      rw [named]
      exact if_pos dir
    · rcases recordReadPage_cases output keyed named rfl (Bool.not_eq_true _ ▸ dir) with
        ⟨-, -, same⟩ | ⟨-, ⟨-, pending, closed⟩ | advanced⟩
      · exact .inl same
      · refine .inr ⟨path, rfl, ?_, pending ▸ .inl (List.Perm.refl _)⟩
        rcases closed with ⟨-, -, perm⟩ | ⟨-, perm⟩
        · exact touches_closed perm
        · exact .inr (.inl perm)
      · right
        cases outcome : pageOutcome (t.readTo (normalizedEvidencePath workspace w path 2048)
            (w.fsFileVersion (normalizedEvidencePath workspace w path 2048))) (pageHeader output) with
        | none =>
          rw [outcome] at advanced
          exact ⟨path, rfl, touches_closed advanced.1, advanced.2 ▸ .inr (.inl (List.Perm.refl _))⟩
        | some next =>
          rw [outcome] at advanced
          exact ⟨path, rfl, .inr (.inl advanced.1), .inr (.inr ⟨_, rfl, advanced.2⟩)⟩

end CognitiveOs.Cognition
