import CognitiveOs.Cognition.Failures
import CognitiveOs.Foundation.Machine
import CognitiveOs.Infra.Print
import CognitiveOs.Security.SshPasswords

/-!
# The table of unresolved failures

The parallel arrays behind `Failures`: how `note_failed_tool`, `resolve_failed_tool` and
`record_discovered_read_paths` write and move their cells, and that they move rows as wholes.
-/

namespace CognitiveOs.Cognition

open Infra Os Foundation Security

/-! ### The arrays -/

/-- The `unresolved_…` arrays of 32 cells. -/
structure FailureArrays where
  tools : Nat → Text := fun _ => []
  scopes : Nat → Text := fun _ => []
  args : Nat → Text := fun _ => []
  errors : Nat → Text := fun _ => []
  discovered : Nat → Text := fun _ => []
  count : Nat := 0
  overflow : Bool := false

structure FailureRow where
  failure : Failure
  args : Text
  error : Text
  deriving DecidableEq

namespace FailureArrays

def failure (t : FailureArrays) (i : Nat) : Failure :=
  { tool := t.tools i, scope := t.scopes i, discovered := t.discovered i }

def row (t : FailureArrays) (i : Nat) : FailureRow :=
  { failure := t.failure i, args := t.args i, error := t.errors i }

def rows (t : FailureArrays) : List FailureRow :=
  (List.range t.count).map t.row

def failures (t : FailureArrays) : Failures :=
  { entries := t.rows.map FailureRow.failure, overflow := t.overflow }

end FailureArrays

/-- `cJSON_DeleteItemFromObjectCaseSensitive`. -/
def deleteMember (key : String) : Json → Json
  | .object members => .object (members.eraseP fun member => member.1 = ascii key)
  | json => json

/-- How a report is made safe: the printer of doubles, and the passwords that are known. -/
structure Reporting where
  number : Rat → Text
  passwords : Passwords

def Reporting.safe (p : Reporting) (text : Text) : Text :=
  strUtf8Sanitize (secretRedactSshPasswords p.passwords text)

def Reporting.safeArgs (p : Reporting) (tool : Text) (args : Option Json) : Text :=
  let args :=
    match args with
    | some (.object members) => .object members
    | _ => .object []
  let args := if tool = ascii "file_write" then deleteMember "content" args else args
  let args := if tool = ascii "file_edit" then deleteMember "new_string" (deleteMember "old_string" args) else args
  let safe := p.safe (Json.print p.number args)
  snprintf 4096 (if safe.length < 4096 then safe else ascii "\x7b\x7d")

variable (p : Reporting) (workspace : Text) (w : World)

def FailureArrays.slot (t : FailureArrays) (tool scope : Text) : Nat :=
  (List.range t.count).findIdx fun i => t.tools i = tool ∧ t.scopes i = scope

/-- `note_failed_tool`. -/
def FailureArrays.note (t : FailureArrays) (tool : Text) (args : Option Json) (error : Text) : FailureArrays :=
  if tool = [] then t
  else
    let scope := failureScope workspace w tool args
    let slot := t.slot tool scope
    let shown : FailureArrays :=
      if slot < 32 then
        { t with
          args := Function.update t.args slot (p.safeArgs tool args)
          errors := Function.update t.errors slot (snprintf 1024 (p.safe error)) }
      else t
    if slot < t.count then shown
    else if 32 ≤ t.count then { shown with overflow := true }
    else
      { shown with
        scopes := Function.update t.scopes t.count (snprintf 2048 scope)
        discovered := Function.update t.discovered t.count []
        tools := Function.update t.tools t.count (snprintf 48 tool)
        count := t.count + 1 }

/-- `memmove` of the cells behind `i` by one; `count` cells are left. -/
def shift (cells : Nat → Text) (i count : Nat) : Nat → Text :=
  fun j => if i ≤ j ∧ j < count then cells (j + 1) else cells j

def FailureArrays.remove (t : FailureArrays) (i : Nat) : FailureArrays :=
  let count := t.count - 1
  let moved : FailureArrays :=
    if i < count then
      { t with
        tools := shift t.tools i count
        scopes := shift t.scopes i count
        args := shift t.args i count
        errors := shift t.errors i count
        discovered := shift t.discovered i count }
    else t
  { moved with tools := Function.update moved.tools count [], count }

/-- The loop of `resolve_failed_tool`. -/
def FailureArrays.resolveFrom (qualifies : Failure → Bool) (t : FailureArrays) (i : Nat) : FailureArrays :=
  if i < t.count then
    if qualifies (t.failure i) then resolveFrom qualifies (t.remove i) i else resolveFrom qualifies t (i + 1)
  else t
termination_by t.count - i
decreasing_by
  · have less : (t.remove i).count = t.count - 1 := rfl
    omega
  · omega

/-- `resolve_failed_tool`. -/
def FailureArrays.resolve (t : FailureArrays) (tool : Text) (args : Option Json) : FailureArrays :=
  if tool = [] then t
  else t.resolveFrom (resolves workspace w tool (failureScope workspace w tool args)) 0

def FailureArrays.relocate (tool root top : Text) (t : FailureArrays) (line : Text) : FailureArrays :=
  match discoveredPath workspace w tool root line with
  | none => t
  | some candidate =>
    { t with
      discovered := fun i =>
        if i < t.count ∧ t.tools i = ascii "file_read" ∧ suffixFound root top candidate (t.scopes i) then candidate
        else t.discovered i }

/-- `record_discovered_read_paths`. -/
def FailureArrays.record (t : FailureArrays) (tool : Text) (args : Option Json) (output : Text) : FailureArrays :=
  let discover :=
    let root := normalizedEvidencePath workspace w ((argString args "path").getD (ascii ".")) 2048
    let top := normalizedEvidencePath workspace w (ascii ".") 2048
    (output.splitOn 10).foldl (FailureArrays.relocate workspace w tool root top) t
  if (tool ≠ ascii "glob" ∧ tool ≠ ascii "grep") ∨ t.count = 0 then t
  else
    match argString args "output_mode" with
    | some mode => if tool = ascii "grep" ∧ mode ≠ ascii "files_with_matches" then t else discover
    | none => discover

/-! ### The rows -/

/-- `note_failed_tool` on rows. -/
def noteRow (rows : List FailureRow) (tool scope args error : Text) : List FailureRow :=
  let slot := rows.findIdx fun r => r.failure.tool = tool ∧ r.failure.scope = scope
  if slot < rows.length then rows.modify slot fun r => { r with args, error }
  else if 32 ≤ rows.length then rows
  else rows ++ [{ failure := { tool := snprintf 48 tool, scope := snprintf 2048 scope }, args, error }]

variable {p workspace w} {t : FailureArrays} {tool : Text} {args : Option Json}

@[simp] theorem length_rows : t.rows.length = t.count := by
  simp [FailureArrays.rows]

@[simp] theorem getElem_rows {i : Nat} (bound : i < t.rows.length) : t.rows[i] = t.row i := by
  simp [FailureArrays.rows]

theorem slot_rows (tool scope : Text) :
    t.slot tool scope = t.rows.findIdx fun r => r.failure.tool = tool ∧ r.failure.scope = scope := by
  unfold FailureArrays.slot FailureArrays.rows
  rw [List.findIdx_map]
  rfl

theorem rows_ext {rows : List FailureRow} (length : t.count = rows.length)
    (same : ∀ i (bound : i < rows.length), t.row i = rows[i]) : t.rows = rows := by
  refine List.ext_getElem (by rw [length_rows, length]) fun i bound bound' => ?_
  rw [getElem_rows, same i bound']

theorem note_rows (error : Text) (named : tool ≠ []) (small : t.count ≤ 32) :
    (t.note p workspace w tool args error).rows =
      noteRow t.rows tool (failureScope workspace w tool args) (p.safeArgs tool args)
        (snprintf 1024 (p.safe error)) := by
  unfold FailureArrays.note noteRow
  rw [if_neg named, ← slot_rows, length_rows]
  dsimp only
  generalize failureScope workspace w tool args = scope
  have bound : t.slot tool scope ≤ t.count := by
    unfold FailureArrays.slot
    refine List.findIdx_le_length.trans ?_
    rw [List.length_range]
  generalize t.slot tool scope = slot at bound
  split
  · next known =>
    have inside : slot < 32 := by omega
    rw [if_pos inside]
    refine rows_ext (by simp) fun i within => ?_
    rw [List.getElem_modify]
    split
    · next same =>
      subst same
      simp [FailureArrays.row, FailureArrays.failure]
    · next other =>
      simp [FailureArrays.row, FailureArrays.failure, Ne.symm other]
  · next fresh =>
    have same : slot = t.count := by omega
    subst same
    split
    · next full =>
      have beyond : ¬t.count < 32 := by omega
      rw [if_neg beyond]
      rfl
    · next room =>
      have inside : t.count < 32 := by omega
      rw [if_pos inside]
      refine rows_ext (by simp) fun i within => ?_
      rw [List.getElem_append]
      split
      · next old =>
        rw [length_rows] at old
        have other : i ≠ t.count := by omega
        simp [FailureArrays.row, FailureArrays.failure, other]
      · next new =>
        rw [length_rows] at new
        have last : i = t.count := by
          simp only [List.length_append, length_rows, List.length_singleton] at within
          omega
        subst last
        simp [FailureArrays.row, FailureArrays.failure]

theorem remove_rows {i : Nat} (inside : i < t.count) : (t.remove i).rows = t.rows.eraseIdx i := by
  refine rows_ext ?_ fun j within => ?_
  · rw [List.length_eraseIdx, if_pos (by simpa using inside), length_rows]
    rfl
  · rw [List.length_eraseIdx, if_pos (by simpa using inside), length_rows] at within
    rw [List.getElem_eraseIdx]
    have behind : j ≠ t.count - 1 := by omega
    unfold FailureArrays.remove
    dsimp only
    by_cases before : j < i
    · have low : ¬i ≤ j := by omega
      rw [dif_pos before, getElem_rows]
      by_cases moved : i < t.count - 1
      · simp [FailureArrays.row, FailureArrays.failure, shift, moved, low, behind]
      · simp [FailureArrays.row, FailureArrays.failure, moved, behind]
    · have moved : i < t.count - 1 := by omega
      have both : i ≤ j ∧ j < t.count - 1 := ⟨by omega, within⟩
      rw [dif_neg before, if_pos moved, getElem_rows]
      simp [FailureArrays.row, FailureArrays.failure, shift, both, behind]

theorem resolveFrom_rows (qualifies : Failure → Bool) (t : FailureArrays) (i : Nat) :
    (t.resolveFrom qualifies i).rows =
      t.rows.take i ++ (t.rows.drop i).filter fun r => !qualifies r.failure := by
  induction t, i using FailureArrays.resolveFrom.induct qualifies with
  | case1 t i inside taken ih =>
    rw [FailureArrays.resolveFrom, if_pos inside, if_pos taken, ih, remove_rows inside,
      List.eraseIdx_eq_take_drop_succ]
    have size : (t.rows.take i).length = i := by
      rw [List.length_take, length_rows]
      omega
    have first : t.rows.drop i = t.row i :: t.rows.drop (i + 1) := by
      rw [List.drop_eq_getElem_cons (by simpa using inside), getElem_rows]
    rw [List.take_left' size, List.drop_left' size, first,
      List.filter_cons_of_neg (by simpa [FailureArrays.row] using taken)]
  | case2 t i inside kept ih =>
    have first : t.rows.drop i = t.row i :: t.rows.drop (i + 1) := by
      rw [List.drop_eq_getElem_cons (by simpa using inside), getElem_rows]
    have more : t.rows.take (i + 1) = t.rows.take i ++ [t.row i] := by
      rw [List.take_succ_eq_append_getElem (by simpa using inside), getElem_rows]
    rw [FailureArrays.resolveFrom, if_pos inside, if_neg kept, ih, first,
      List.filter_cons_of_pos (by simpa [FailureArrays.row] using kept), more, List.append_assoc]
    rfl
  | case3 t i outside =>
    have empty : t.rows.drop i = [] := List.drop_eq_nil_of_le (by rw [length_rows]; omega)
    have all : t.rows.take i = t.rows := List.take_of_length_le (by rw [length_rows]; omega)
    rw [FailureArrays.resolveFrom, if_neg outside, empty, all]
    simp

theorem resolve_rows (named : tool ≠ []) :
    (t.resolve workspace w tool args).rows =
      t.rows.filter fun r => !resolves workspace w tool (failureScope workspace w tool args) r.failure := by
  unfold FailureArrays.resolve
  rw [if_neg named, resolveFrom_rows]
  simp

theorem relocate_rows {root top line : Text} :
    (t.relocate workspace w tool root top line).rows =
      match discoveredPath workspace w tool root line with
      | none => t.rows
      | some candidate =>
        t.rows.map fun r =>
          if r.failure.tool = ascii "file_read" ∧ suffixFound root top candidate r.failure.scope then
            { r with failure := { r.failure with discovered := candidate } }
          else r := by
  unfold FailureArrays.relocate
  split
  · rfl
  · next candidate _ =>
    refine rows_ext (by simp) fun i within => ?_
    rw [List.length_map, length_rows] at within
    rw [List.getElem_map, getElem_rows]
    by_cases found : t.tools i = ascii "file_read" ∧ suffixFound root top candidate (t.scopes i) = true
    · simp [FailureArrays.row, FailureArrays.failure, within, found]
    · simp [FailureArrays.row, FailureArrays.failure, within, found]

/-! ### The table of entries -/

theorem map_modify_same {α β : Type} {f : α → β} {g : α → α} (same : ∀ a, f (g a) = f a) (l : List α) (i : Nat) :
    (l.modify i g).map f = l.map f := by
  refine List.ext_getElem (by simp) fun j _ _ => ?_
  rw [List.getElem_map, List.getElem_map, List.getElem_modify]
  split
  · exact same _
  · rfl

theorem length_failureScope (workspace : Text) (w : World) (tool : Text) (args : Option Json) :
    (failureScope workspace w tool args).length ≤ 2047 := by
  have stripped : ∀ s : Text, (stripSlashes s).length ≤ s.length := by
    rintro (_ | ⟨first, rest⟩)
    · exact Nat.le_refl 0
    · simp only [stripSlashes, List.length_cons, List.length_reverse, Nat.add_le_add_iff_right]
      exact (List.dropWhile_suffix _).length_le.trans (by simp)
  unfold failureScope
  split
  · unfold normalizedEvidencePath
    refine (stripped _).trans ?_
    rw [List.length_map]
    exact List.length_take_le _ _
  · exact Nat.zero_le _

theorem failures_eq {a b : Failures} (entries : a.entries = b.entries) (overflow : a.overflow = b.overflow) :
    a = b := by
  obtain ⟨e, o⟩ := a
  obtain ⟨e', o'⟩ := b
  cases entries
  cases overflow
  rfl

theorem failures_note (error : Text) (small : t.count ≤ 32) :
    (t.note p workspace w tool args error).failures = noteFailedTool workspace w t.failures tool args := by
  by_cases unnamed : tool = []
  · simp [FailureArrays.note, noteFailedTool, unnamed]
  · have whole : snprintf 2048 (failureScope workspace w tool args) = failureScope workspace w tool args :=
      List.take_of_length_le (length_failureScope workspace w tool args)
    have known : t.slot tool (failureScope workspace w tool args) < t.count ↔
        t.failures.entries.any fun f => f.tool = tool ∧ f.scope = failureScope workspace w tool args := by
      rw [slot_rows, ← length_rows, List.findIdx_lt_length]
      simp [FailureArrays.failures]
    have overflow : (t.note p workspace w tool args error).overflow =
        (noteFailedTool workspace w t.failures tool args).overflow := by
      unfold FailureArrays.note noteFailedTool
      dsimp only
      rw [if_neg unnamed, if_neg unnamed]
      simp only [← known]
      have size : t.failures.entries.length = t.count := by simp [FailureArrays.failures]
      rw [size]
      split
      · split <;> rfl
      · split
        · rfl
        · split <;> rfl
    have entries : (t.note p workspace w tool args error).rows.map FailureRow.failure =
        (noteFailedTool workspace w t.failures tool args).entries := by
      rw [note_rows error unnamed small]
      unfold noteRow noteFailedTool
      dsimp only
      rw [if_neg unnamed, ← slot_rows, length_rows, whole]
      have size : t.failures.entries.length = t.count := by simp [FailureArrays.failures]
      simp only [← known, size]
      split
      · apply map_modify_same
        exact fun _ => rfl
      · split
        · rfl
        · simp [FailureArrays.failures]
    exact failures_eq entries overflow

theorem failures_resolve :
    (t.resolve workspace w tool args).failures = resolveFailedTool workspace w t.failures tool args := by
  have kept : ∀ (qualifies : Failure → Bool) (i : Nat), (t.resolveFrom qualifies i).overflow = t.overflow := by
    intro qualifies i
    induction t, i using FailureArrays.resolveFrom.induct qualifies with
    | case1 t i inside taken ih =>
      rw [FailureArrays.resolveFrom, if_pos inside, if_pos taken, ih]
      unfold FailureArrays.remove
      dsimp only
      split <;> rfl
    | case2 t i inside other ih => rw [FailureArrays.resolveFrom, if_pos inside, if_neg other, ih]
    | case3 t i outside => rw [FailureArrays.resolveFrom, if_neg outside]
  by_cases unnamed : tool = []
  · simp [FailureArrays.resolve, resolveFailedTool, unnamed]
  · have overflow : (t.resolve workspace w tool args).overflow = t.overflow := by
      unfold FailureArrays.resolve
      rw [if_neg unnamed, kept]
    unfold FailureArrays.failures resolveFailedTool
    rw [if_neg unnamed, resolve_rows unnamed, overflow, List.filter_map]
    rfl

theorem failures_relocate {root top line : Text} :
    (t.relocate workspace w tool root top line).failures =
      recordDiscoveredReadPaths.relocate workspace w tool root top t.failures line := by
  have overflow : (t.relocate workspace w tool root top line).overflow = t.overflow := by
    unfold FailureArrays.relocate
    split <;> rfl
  unfold FailureArrays.failures recordDiscoveredReadPaths.relocate
  rw [relocate_rows, overflow]
  cases discoveredPath workspace w tool root line with
  | none => rfl
  | some candidate =>
    simp only [List.map_map]
    congr 1
    refine List.map_congr_left fun r _ => ?_
    simp only [Function.comp]
    split <;> rfl

theorem failures_record (output : Text) :
    (t.record workspace w tool args output).failures =
      recordDiscoveredReadPaths workspace w t.failures tool args output := by
  have lines : ∀ (root top : Text) (lines : List Text) (t : FailureArrays),
      (lines.foldl (FailureArrays.relocate workspace w tool root top) t).failures =
        lines.foldl (recordDiscoveredReadPaths.relocate workspace w tool root top) t.failures := by
    intro root top lines
    induction lines with
    | nil => exact fun _ => rfl
    | cons line lines ih => exact fun t => by rw [List.foldl_cons, List.foldl_cons, ih, failures_relocate]
  by_cases empty : t.count = 0
  · have none' : t.failures.entries = [] := by simp [FailureArrays.failures, FailureArrays.rows, empty]
    obtain ⟨keys, overflow⟩ := @recordDiscoveredReadPaths_keys workspace w t.failures tool args output
    have still : (recordDiscoveredReadPaths workspace w t.failures tool args output).entries = [] := by
      unfold Failures.keys at keys
      rw [none'] at keys
      exact List.map_eq_nil_iff.mp keys
    have same : t.record workspace w tool args output = t := by simp [FailureArrays.record, empty]
    rw [same]
    exact failures_eq (none'.trans still.symm) overflow.symm
  · unfold FailureArrays.record recordDiscoveredReadPaths recordDiscoveredReadPaths.discover
    simp only [empty, or_false]
    split
    · rfl
    · cases argString args "output_mode" with
      | none => exact lines _ _ _ t
      | some mode =>
        dsimp only
        split
        · rfl
        · exact lines _ _ _ t

/-! ### What takes an entry out -/

/-- The rules by which a success on `scope` qualifies for an entry. -/
inductive Qualifies (workspace : Text) (w : World) (tool scope : Text) (f : Failure) : Prop where
  /-- The same tool and the same scope. -/
  | sameCall : f.tool = tool → scopeNow workspace w f.scope = scope → Qualifies workspace w tool scope f
  /-- A file is read below the scope of a search. -/
  | searchScope : tool = ascii "file_read" → isExploratoryTool f.tool = true → scopeNow workspace w f.scope ≠ [] →
      scopeNow workspace w f.scope <+: scope →
      (scope.length = (scopeNow workspace w f.scope).length ∨
        scope[(scopeNow workspace w f.scope).length]? = some slash ∨
        (scopeNow workspace w f.scope).getLast? = some slash) → Qualifies workspace w tool scope f
  /-- The file is read where a search found it. -/
  | relocated : tool = ascii "file_read" → f.tool = ascii "file_read" → f.discovered ≠ [] → f.discovered = scope →
      Qualifies workspace w tool scope f
  | header : tool = ascii "file_read" → f.tool = ascii "file_read" →
      sameRepositoryHeader (scopeNow workspace w f.scope) scope = true → Qualifies workspace w tool scope f
  | nestedFile : tool = ascii "file_read" → f.tool = ascii "file_read" →
      sameNestedWorkspacePath workspace w (scopeNow workspace w f.scope) scope = true →
      Qualifies workspace w tool scope f
  | nestedDirectory : tool = ascii "list_dir" → f.tool = ascii "list_dir" →
      w.fsExists (scopeNow workspace w f.scope) = false →
      sameNestedWorkspacePath workspace w (scopeNow workspace w f.scope) scope = true →
      Qualifies workspace w tool scope f
  /-- The directory is absent from the listing of its parent. -/
  | absentDirectory {i : Nat} : tool = ascii "list_dir" → f.tool = ascii "list_dir" →
      w.fsExists (scopeNow workspace w f.scope) = false → lastIndex (scopeNow workspace w f.scope) slash = some i →
      scope = (scopeNow workspace w f.scope).take i → Qualifies workspace w tool scope f

theorem qualifies_of_resolves {scope : Text} {f : Failure} (resolved : resolves workspace w tool scope f = true) :
    Qualifies workspace w tool scope f := by
  unfold resolves at resolved
  simp only [Bool.or_eq_true, Bool.and_eq_true, decide_eq_true_eq, Bool.not_eq_true', ne_eq, decide_not,
    List.isPrefixOf_iff_prefix, Option.any_eq_true] at resolved
  obtain (((((⟨same, now⟩ | ⟨⟨⟨⟨read, search⟩, some'⟩, below⟩, end'⟩) | ⟨⟨⟨read, read'⟩, some'⟩, found⟩) |
    ⟨⟨read, read'⟩, header | nested⟩) | ⟨⟨⟨listed, listed'⟩, absent⟩, nested⟩) |
    ⟨⟨⟨listed, listed'⟩, absent⟩, i, last, parent⟩) := resolved
  · exact .sameCall same now
  · exact .searchScope read search (by simpa using some') below (by tauto)
  · exact .relocated read read' (by simpa using some') found
  · exact .header read read' header
  · exact .nestedFile read read' nested
  · exact .nestedDirectory listed listed' absent nested
  · exact .absentDirectory listed listed' absent last parent

/-! ### Runs -/

inductive FailureCall where
  | note (w : World) (tool : Text) (args : Option Json) (error : Text)
  | resolve (w : World) (tool : Text) (args : Option Json)
  | record (w : World) (tool : Text) (args : Option Json) (output : Text)

def FailureArrays.call (p : Reporting) (workspace : Text) (t : FailureArrays) : FailureCall → FailureArrays
  | .note w tool args error => t.note p workspace w tool args error
  | .resolve w tool args => t.resolve workspace w tool args
  | .record w tool args output => t.record workspace w tool args output

def failureTable (p : Reporting) (workspace : Text) : Machine FailureArrays FailureCall :=
  Machine.ofFun (FailureArrays.call p workspace)

def FailureCall.Named (_ : FailureArrays) : FailureCall → Prop
  | .note _ tool _ _ => tool.length < 48
  | _ => True

def Failures.call (workspace : Text) (t : Failures) : FailureCall → Failures
  | .note w tool args _ => noteFailedTool workspace w t tool args
  | .resolve w tool args => resolveFailedTool workspace w t tool args
  | .record w tool args output => recordDiscoveredReadPaths workspace w t tool args output

def FailureCall.Repairs (workspace : Text) (f : Failure) : FailureCall → Prop
  | .resolve w tool args => Qualifies workspace w tool (failureScope workspace w tool args) f
  | _ => False

theorem noteFailedTool_entries {t : Failures} (small : t.entries.length ≤ 32) :
    (noteFailedTool workspace w t tool args).entries.length ≤ 32 := by
  unfold noteFailedTool
  dsimp only
  split_ifs
  · exact small
  · exact small
  · exact small
  · simp only [List.length_append, List.length_singleton]
    omega

variable {c : FailureCall}

theorem call_small {t : Failures} (small : t.entries.length ≤ 32) : (t.call workspace c).entries.length ≤ 32 := by
  cases c with
  | note w tool args error => exact noteFailedTool_entries small
  | resolve w tool args =>
    unfold Failures.call resolveFailedTool
    dsimp only
    split
    · exact small
    · exact (List.length_filter_le _ _).trans small
  | record w tool args output =>
    have keys := (@recordDiscoveredReadPaths_keys workspace w t tool args output).1
    have length := congrArg List.length keys
    simp only [Failures.keys, List.length_map] at length
    exact length.trans_le small

theorem call_distinct {t : Failures} (named : c.Named {}) (distinct : t.keys.Nodup) :
    (t.call workspace c).keys.Nodup := by
  cases c with
  | note w tool args error =>
    unfold Failures.call noteFailedTool
    dsimp only
    split_ifs with _ known
    · exact distinct
    · exact distinct
    · exact distinct
    · have whole : snprintf 48 tool = tool := List.take_of_length_le (Nat.le_pred_of_lt named)
      have fresh : (tool, failureScope workspace w tool args) ∉ t.keys := by
        intro member
        obtain ⟨f, member, same⟩ := List.mem_map.mp member
        refine known (List.any_eq_true.mpr ⟨f, member, ?_⟩)
        simp only [Failure.key, Prod.mk.injEq] at same
        simp [same]
      unfold Failures.keys at distinct fresh ⊢
      rw [List.map_append, whole]
      exact List.nodup_append'.mpr ⟨distinct, List.nodup_singleton _, by simpa [Failure.key] using fresh⟩
  | resolve w tool args =>
    unfold Failures.call resolveFailedTool
    dsimp only
    split
    · exact distinct
    · exact distinct.sublist (List.Sublist.map _ List.filter_sublist)
  | record w tool args output =>
    unfold Failures.call
    rw [recordDiscoveredReadPaths_keys.1]
    exact distinct

theorem call_overflow {t : Failures} (full : t.overflow = true) : (t.call workspace c).overflow = true := by
  cases c with
  | note => exact noteFailedTool_overflow full
  | resolve => exact resolveFailedTool_overflow.trans full
  | record => exact recordDiscoveredReadPaths_keys.2.trans full

theorem call_repairs {t : Failures} {f : Failure} (member : f ∈ t.entries) (gone : f.key ∉ (t.call workspace c).keys) :
    c.Repairs workspace f := by
  have noted : f.key ∈ t.keys := List.mem_map_of_mem member
  cases c with
  | note => exact absurd (noteFailedTool_keys noted) gone
  | record w tool args output =>
    unfold Failures.call at gone
    rw [recordDiscoveredReadPaths_keys.1] at gone
    exact absurd noted gone
  | resolve w tool args =>
    cases resolved : resolves workspace w tool (failureScope workspace w tool args) f with
    | true => exact qualifies_of_resolves resolved
    | false => exact absurd (resolveFailedTool_keys member (.inr resolved)) gone

theorem failures_call (c : FailureCall) (small : t.count ≤ 32) :
    (t.call p workspace c).failures = t.failures.call workspace c := by
  cases c with
  | note w tool args error => exact failures_note error small
  | resolve w tool args => exact failures_resolve
  | record w tool args output => exact failures_record output

theorem failures_length (t : FailureArrays) : t.failures.entries.length = t.count := by
  simp [FailureArrays.failures]

theorem count_call (c : FailureCall) (small : t.count ≤ 32) : (t.call p workspace c).count ≤ 32 := by
  rw [← failures_length, failures_call c small]
  exact call_small (by rwa [failures_length])

/-- `record_discovered_read_paths` on rows. -/
def recordRows (workspace : Text) (w : World) (rows : List FailureRow) (tool : Text) (args : Option Json)
    (output : Text) : List FailureRow :=
  let discover :=
    let root := normalizedEvidencePath workspace w ((argString args "path").getD (ascii ".")) 2048
    let top := normalizedEvidencePath workspace w (ascii ".") 2048
    (output.splitOn 10).foldl (fun rows line =>
      match discoveredPath workspace w tool root line with
      | none => rows
      | some candidate =>
        rows.map fun r =>
          if r.failure.tool = ascii "file_read" ∧ suffixFound root top candidate r.failure.scope then
            { r with failure := { r.failure with discovered := candidate } }
          else r) rows
  if (tool ≠ ascii "glob" ∧ tool ≠ ascii "grep") ∨ rows = [] then rows
  else
    match argString args "output_mode" with
    | some mode => if tool = ascii "grep" ∧ mode ≠ ascii "files_with_matches" then rows else discover
    | none => discover

def callRows (p : Reporting) (workspace : Text) (rows : List FailureRow) : FailureCall → List FailureRow
  | .note w tool args error =>
    if tool = [] then rows
    else
      noteRow rows tool (failureScope workspace w tool args) (p.safeArgs tool args) (snprintf 1024 (p.safe error))
  | .resolve w tool args =>
    if tool = [] then rows
    else rows.filter fun r => !resolves workspace w tool (failureScope workspace w tool args) r.failure
  | .record w tool args output => recordRows workspace w rows tool args output

theorem record_rows (output : Text) :
    (t.record workspace w tool args output).rows = recordRows workspace w t.rows tool args output := by
  have lines : ∀ (root top : Text) (lines : List Text) (t : FailureArrays),
      (lines.foldl (FailureArrays.relocate workspace w tool root top) t).rows =
        lines.foldl (fun rows line =>
          match discoveredPath workspace w tool root line with
          | none => rows
          | some candidate =>
            rows.map fun r =>
              if r.failure.tool = ascii "file_read" ∧ suffixFound root top candidate r.failure.scope then
                { r with failure := { r.failure with discovered := candidate } }
              else r) t.rows := by
    intro root top lines
    induction lines with
    | nil => exact fun _ => rfl
    | cons line lines ih => exact fun t => by rw [List.foldl_cons, List.foldl_cons, ih, relocate_rows]
  have empty : t.rows = [] ↔ t.count = 0 := by rw [← length_rows, List.length_eq_zero_iff]
  unfold FailureArrays.record recordRows
  simp only [empty]
  split
  · rfl
  · cases argString args "output_mode" with
    | none => exact lines _ _ _ t
    | some mode =>
      dsimp only
      split
      · rfl
      · exact lines _ _ _ t

theorem rows_call (c : FailureCall) (small : t.count ≤ 32) :
    (t.call p workspace c).rows = callRows p workspace t.rows c := by
  cases c with
  | note w tool args error =>
    by_cases unnamed : tool = []
    · simp [FailureArrays.call, FailureArrays.note, callRows, unnamed]
    · exact (note_rows error unnamed small).trans (if_neg unnamed).symm
  | resolve w tool args =>
    by_cases unnamed : tool = []
    · simp [FailureArrays.call, FailureArrays.resolve, callRows, unnamed]
    · exact (resolve_rows unnamed).trans (if_neg unnamed).symm
  | record w tool args output => exact record_rows output

variable {calls : List FailureCall}

theorem run_small {first : FailureArrays} (small : first.count ≤ 32)
    (run : (failureTable p workspace).Run first calls t) : t.count ≤ 32 := by
  induction run with
  | start => exact small
  | @step _ _ _ c _ taken ih => exact taken ▸ count_call c ih

theorem run_rows (run : (failureTable p workspace).Run {} calls t) :
    t.rows = calls.foldl (callRows p workspace) [] := by
  induction run with
  | start => rfl
  | @step middle _ calls c before taken ih =>
    rw [List.foldl_append, List.foldl_cons, List.foldl_nil, ← ih, ← taken]
    exact rows_call c (run_small (Nat.zero_le _) before)

theorem run_distinct (run : ((failureTable p workspace).restrict FailureCall.Named).Run {} calls t) :
    t.failures.keys.Nodup := by
  induction run with
  | start => exact List.nodup_nil
  | @step middle _ _ c before taken ih =>
    obtain ⟨named, taken⟩ := taken
    have small := run_small (Nat.zero_le _) before.unrestrict
    rw [← taken]
    change (FailureArrays.call p workspace middle c).failures.keys.Nodup
    rw [failures_call c small]
    exact call_distinct named ih

theorem run_overflow {first : FailureArrays} (small : first.count ≤ 32) (full : first.overflow = true)
    (run : (failureTable p workspace).Run first calls t) : t.overflow = true := by
  induction run with
  | start => exact full
  | @step middle _ _ c before taken ih =>
    have same := @failures_call p workspace middle c (run_small small before)
    rw [← taken]
    exact (congrArg Failures.overflow same).trans (call_overflow ih)

/-- In a run whose failed tools have names that fit, the arrays hold aligned rows of distinct entries,
an entry goes only with a success that qualifies, and an overflow is never forgotten. -/
theorem failure_table_sound {calls : List FailureCall}
    (run : ((failureTable p workspace).restrict FailureCall.Named).Run {} calls t) :
    t.rows = calls.foldl (callRows p workspace) [] ∧ t.failures.keys.Nodup ∧
      (∀ c f, f ∈ t.failures.entries → f.key ∉ (t.call p workspace c).failures.keys → c.Repairs workspace f) ∧
      (t.overflow = true → ∀ later t', (failureTable p workspace).Run t later t' → t'.overflow = true) := by
  have small := run_small (Nat.zero_le _) run.unrestrict
  refine ⟨run_rows run.unrestrict, run_distinct run, fun c f member gone => ?_,
    fun full later t' rest => run_overflow small full rest⟩
  rw [failures_call c small] at gone
  exact call_repairs member gone

def plainReporting : Reporting where
  number _ := []
  passwords := []

def failedCommand : FailureCall :=
  .note {} (ascii "shell") none []

/-- A failed command. -/
theorem failure_table_sound_command :
    ∃ t, ((failureTable plainReporting []).restrict FailureCall.Named).Run {} [failedCommand] t ∧
      t.rows = [failedCommand].foldl (callRows plainReporting []) [] ∧ t.failures.keys.Nodup ∧
      (∀ c f, f ∈ t.failures.entries → f.key ∉ (t.call plainReporting [] c).failures.keys → c.Repairs [] f) ∧
      (t.overflow = true → ∀ later t', (failureTable plainReporting []).Run t later t' → t'.overflow = true) :=
  have short : failedCommand.Named {} := (by decide : (ascii "shell").length < 48)
  have run := Machine.Run.single ⟨short, rfl⟩
  ⟨_, run, failure_table_sound run⟩

def longFailure : FailureCall :=
  .note {} (List.replicate 48 97) none []

/-- It fails twice: its name is cut in the table, and is not found again. -/
theorem long_name_repeated :
    ∃ t, (failureTable plainReporting []).Run {} [longFailure, longFailure] t ∧ ¬t.failures.keys.Nodup := by
  refine ⟨_, Machine.run_ofFun_iff.mpr rfl, ?_⟩
  have first : (FailureArrays.call plainReporting [] {} longFailure).failures = ({} : Failures).call [] longFailure :=
    failures_call longFailure (Nat.zero_le _)
  have second := @failures_call plainReporting [] (FailureArrays.call plainReporting [] {} longFailure) longFailure
    (count_call longFailure (Nat.zero_le _))
  rw [List.foldl_cons, List.foldl_cons, List.foldl_nil, second, first]
  have keys : ((({} : Failures).call [] longFailure).call [] longFailure).keys =
      [(List.replicate 47 97, []), (List.replicate 47 97, [])] := by decide
  rw [keys]
  simp

end CognitiveOs.Cognition
