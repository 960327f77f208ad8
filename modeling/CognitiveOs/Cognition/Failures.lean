import CognitiveOs.Cognition.Steps

/-!
# Unresolved tool failures

The table of failed tool calls that no later success has verified. Each entry has the
path that the call was about; the texts that only the model is shown are left out.
-/

namespace CognitiveOs.Cognition

open Infra Os

/-- One row of the `unresolved_…` arrays. -/
structure Failure where
  tool : Text
  scope : Text
  discovered : Text := []
  deriving DecidableEq

structure Failures where
  entries : List Failure := []
  overflow : Bool := false

def Failure.key (f : Failure) : Text × Text :=
  (f.tool, f.scope)

def Failures.keys (t : Failures) : List (Text × Text) :=
  t.entries.map Failure.key

variable (workspace : Text) (w : World)

def failureScope (tool : Text) (args : Option Json) : Text :=
  if isExploratoryTool tool || tool = ascii "file_read" || tool = ascii "file_write" ||
      tool = ascii "file_edit" then
    normalizedEvidencePath workspace w ((argString args "path").getD []) 2048
  else []

def noteFailedTool (t : Failures) (tool : Text) (args : Option Json) : Failures :=
  let scope := failureScope workspace w tool args
  if tool = [] then t
  else if t.entries.any fun f => f.tool = tool ∧ f.scope = scope then t
  else if 32 ≤ t.entries.length then { t with overflow := true }
  else { t with entries := t.entries ++ [{ tool := snprintf 48 tool, scope }] }

/-- The text below `root`, when `path` is below it. -/
def below (root path : Text) : Option Text :=
  if (root ++ [slash]).isPrefixOf path then some (path.drop (root.length + 1)) else none

/-- The file a line of a `glob` or `grep` output names, if it is one below the root. -/
def discoveredPath (tool root line : Text) : Option Text :=
  let shown : Text :=
    if (ascii "[glob] ").isPrefixOf line || (ascii "[grep] ").isPrefixOf line then line.drop 7
    else line
  let path : Text := (shown.reverse.dropWhile fun byte => byte = 13 || byte = 32).reverse
  if path ≠ [] && path.length < 2048 &&
      (tool = ascii "grep" || path.head? = some slash || (2 < path.length && path[1]? = some 58)) then
    let candidate := normalizedEvidencePath workspace w (pathResolve 2048 root path) 2048
    if w.fsExists candidate && !w.fsIsDir candidate && (below root candidate).isSome then some candidate
    else none
  else none

/-- The found file ends in the failed path, seen from the search root or the workspace. -/
def suffixFound (root top candidate failed : Text) : Bool :=
  let relative :=
    match below root failed with
    | some relative => some relative
    | none => if (below top root).isSome then below top failed else none
  relative.any fun relative =>
    slash ∈ relative && (slash :: relative).isSuffixOf candidate

def recordDiscoveredReadPaths (t : Failures) (tool : Text) (args : Option Json) (output : Text) :
    Failures :=
  if tool ≠ ascii "glob" ∧ tool ≠ ascii "grep" then t
  else
    match argString args "output_mode" with
    | some mode =>
      if tool = ascii "grep" ∧ mode ≠ ascii "files_with_matches" then t else discover t
    | none => discover t
where
  discover (t : Failures) : Failures :=
    let root := normalizedEvidencePath workspace w ((argString args "path").getD (ascii ".")) 2048
    let top := normalizedEvidencePath workspace w (ascii ".") 2048
    (output.splitOn 10).foldl (relocate root top) t
  /-- One line of the output. -/
  relocate (root top : Text) (t : Failures) (line : Text) : Failures :=
    match discoveredPath workspace w tool root line with
    | none => t
    | some candidate =>
      { t with entries := t.entries.map fun f =>
          if f.tool = ascii "file_read" ∧ suffixFound root top candidate f.scope then
            { f with discovered := candidate }
          else f }

/-- A missing `src/` header that was found under `include/`. -/
def sameRepositoryHeader (failed actual : Text) : Bool :=
  match strstr (ascii "/src/") failed, strstr (ascii "/include/") actual with
  | some src, some inc =>
    let at_src := failed.length - src.length
    let tail := src.drop 5
    at_src = actual.length - inc.length && failed.take at_src = actual.take at_src &&
      ((2 < tail.length && (ascii ".h").isSuffixOf tail) ||
        (4 < tail.length && (ascii ".hpp").isSuffixOf tail)) &&
      tail = inc.drop 9
  | _, _ => false

def sameNestedWorkspacePath (failed actual : Text) : Bool :=
  let root := normalizedEvidencePath workspace w (ascii ".") 2048
  root ≠ [] && (below root actual).isSome && !w.fsExists failed &&
    (below root failed).any fun relative =>
      slash ∈ relative && root.length + 1 + relative.length < actual.length &&
        (slash :: relative).isSuffixOf actual

def scopeNow (scope : Text) : Text :=
  if scope = [] then [] else normalizedEvidencePath workspace w scope 2048

/-- What `resolve_failed_tool` asks of an entry: a retry, a read that replaces a lookup,
a read of the relocated file, or a listing that finds the directory or its absence. -/
def resolves (tool scope : Text) (f : Failure) : Bool :=
  let failed := scopeNow workspace w f.scope
  let read := tool = ascii "file_read" && f.tool = ascii "file_read"
  let listed := tool = ascii "list_dir" && f.tool = ascii "list_dir" && !w.fsExists failed
  (f.tool = tool && failed = scope) ||
    (tool = ascii "file_read" && isExploratoryTool f.tool && failed ≠ [] && failed.isPrefixOf scope &&
      (scope.length = failed.length || scope[failed.length]? = some slash ||
        failed.getLast? = some slash)) ||
    (read && f.discovered ≠ [] && f.discovered = scope) ||
    (read && (sameRepositoryHeader failed scope || sameNestedWorkspacePath workspace w failed scope)) ||
    (listed && sameNestedWorkspacePath workspace w failed scope) ||
    (listed && (lastIndex failed slash).any fun i => scope = failed.take i)

def resolveFailedTool (t : Failures) (tool : Text) (args : Option Json) : Failures :=
  if tool = [] then t
  else
    { t with entries := t.entries.filter fun f =>
        !resolves workspace w tool (failureScope workspace w tool args) f }

/-! ### What stays in the table -/

section Keys

variable {workspace : Text} {w : World} {t : Failures} {tool : Text} {args : Option Json}

theorem noteFailedTool_keys {key : Text × Text} (noted : key ∈ t.keys) :
    key ∈ (noteFailedTool workspace w t tool args).keys := by
  unfold noteFailedTool
  simp only
  split
  · exact noted
  · split
    · exact noted
    · split
      · exact noted
      · simpa [Failures.keys] using Or.inl noted

theorem noteFailedTool_overflow (full : t.overflow = true) :
    (noteFailedTool workspace w t tool args).overflow = true := by
  unfold noteFailedTool
  simp only
  split
  · exact full
  · split
    · exact full
    · split
      · rfl
      · exact full

theorem noteFailedTool_notes (named : tool ≠ []) (short : tool.length < 48) :
    (tool, failureScope workspace w tool args) ∈ (noteFailedTool workspace w t tool args).keys ∨
      (noteFailedTool workspace w t tool args).overflow = true := by
  unfold noteFailedTool
  simp only [if_neg named]
  split
  · rename_i known
    rcases List.any_eq_true.mp known with ⟨f, member, same⟩
    have equal := of_decide_eq_true same
    exact Or.inl (List.mem_map.mpr ⟨f, member, Prod.ext equal.1 equal.2⟩)
  · split
    · exact Or.inr rfl
    · apply Or.inl
      have whole : snprintf 48 tool = tool := List.take_of_length_le (by omega)
      simp [Failures.keys, Failure.key, whole]

theorem relocate_keys {root top line : Text} :
    (recordDiscoveredReadPaths.relocate workspace w tool root top t line).keys = t.keys := by
  unfold recordDiscoveredReadPaths.relocate
  split
  · rfl
  · simp only [Failures.keys, List.map_map]
    apply List.map_congr_left
    intro f _
    simp only [Function.comp]
    split <;> rfl

theorem relocate_overflow {root top line : Text} :
    (recordDiscoveredReadPaths.relocate workspace w tool root top t line).overflow = t.overflow := by
  unfold recordDiscoveredReadPaths.relocate
  split <;> rfl

theorem recordDiscoveredReadPaths_keys {output : Text} :
    (recordDiscoveredReadPaths workspace w t tool args output).keys = t.keys ∧
      (recordDiscoveredReadPaths workspace w t tool args output).overflow = t.overflow := by
  have discovered : (recordDiscoveredReadPaths.discover workspace w tool args output t).keys = t.keys ∧
      (recordDiscoveredReadPaths.discover workspace w tool args output t).overflow = t.overflow := by
    unfold recordDiscoveredReadPaths.discover
    simp only
    generalize output.splitOn 10 = lines
    induction lines generalizing t with
    | nil => exact ⟨rfl, rfl⟩
    | cons line lines ih =>
      rw [List.foldl_cons, ih.1, ih.2, relocate_keys, relocate_overflow]
      exact ⟨rfl, rfl⟩
  unfold recordDiscoveredReadPaths
  split
  · exact ⟨rfl, rfl⟩
  · split
    · split
      · exact ⟨rfl, rfl⟩
      · exact discovered
    · exact discovered

theorem resolveFailedTool_keys {f : Failure} (member : f ∈ t.entries)
    (unresolved : tool = [] ∨
      resolves workspace w tool (failureScope workspace w tool args) f = false) :
    f.key ∈ (resolveFailedTool workspace w t tool args).keys := by
  unfold resolveFailedTool
  split
  · exact List.mem_map_of_mem member
  · rename_i named
    apply List.mem_map_of_mem
    refine List.mem_filter.mpr ⟨member, ?_⟩
    rcases unresolved with unnamed | unresolved
    · exact absurd unnamed named
    · simpa using unresolved

theorem resolveFailedTool_overflow :
    (resolveFailedTool workspace w t tool args).overflow = t.overflow := by
  unfold resolveFailedTool
  split <;> rfl

end Keys

theorem isFileMutation_iff {tool : Text} :
    isFileMutation tool = true ↔ tool = ascii "file_write" ∨ tool = ascii "file_edit" := by
  simp [isFileMutation]

theorem resolves_mutation {tool scope : Text} {f : Failure} (mutation : isFileMutation f.tool = true)
    (resolved : resolves workspace w tool scope f = true) :
    f.tool = tool ∧ scopeNow workspace w f.scope = scope := by
  have notRead : f.tool ≠ ascii "file_read" := by
    rcases isFileMutation_iff.mp mutation with same | same <;> rw [same] <;> decide
  have notListed : f.tool ≠ ascii "list_dir" := by
    rcases isFileMutation_iff.mp mutation with same | same <;> rw [same] <;> decide
  have notExploratory : isExploratoryTool f.tool = false := by
    rcases isFileMutation_iff.mp mutation with same | same <;> rw [same] <;> decide
  simpa [resolves, notRead, notListed, notExploratory] using resolved

end CognitiveOs.Cognition
