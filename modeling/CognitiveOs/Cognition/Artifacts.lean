import CognitiveOs.Cognition.Run

/-!
# Accepted artifacts

The evidence behind an accepted artifact: which action wrote or produced the file, and which
one read it back. Every receipt, step and produced file goes back to an action of the run.
-/

namespace CognitiveOs.Cognition

open Infra Os Foundation

def performed (past : List Event) : List Done :=
  past.filterMap fun event =>
    match event with
    | .done d => some d
    | _ => none

variable (c : Config)

def Done.Names (d : Done) (target : Text) : Prop :=
  ∃ path, argString d.action.args "path" = some path ∧
    normalizedEvidencePath c.workspace d.after path 2048 = target

structure Wrote (d : Done) (target : Text) (version : UInt64) : Prop where
  succeeded : d.succeeded = true
  mutation : isFileMutation d.action.tool = true
  names : d.Names c target
  left : d.after.fsFileVersion target = version

/-- A successful command that declared the file gave it this version, which it did not have. -/
structure Produced (d : Done) (target : Text) (version : UInt64) : Prop where
  executed : d.outcome = .executed
  succeeded : d.env.ok = true
  declares : ∃ item, .string item ∈ outputItems d.action.args ∧
    normalizedEvidencePath c.workspace d.after item 2048 = target
  left : d.after.fsFileVersion target = version
  changed : d.env.before.fsFileVersion target ≠ version

/-- A successful read saw this version: the file has it, or the report of an image names it. -/
structure Saw (d : Done) (target : Text) (version : UInt64) : Prop where
  succeeded : d.succeeded = true
  read : d.action.tool = ascii "file_read"
  names : d.Names c target
  version : d.after.fsFileVersion target = version ∨
    imageVersion d.after target d.env.report = some version

def Earned (done : List Done) (target : Text) (version : UInt64) : Prop :=
  ∃ (i j : Nat) (d e : Done), i < j ∧ done[i]? = some d ∧ done[j]? = some e ∧
    (Wrote c d target version ∨ Produced c d target version) ∧ Saw c e target version

def Honest (d : Done) : Prop :=
  d.outcome = .executed → d.env.ok = true → ∀ item, .string item ∈ outputItems d.action.args →
    let target := normalizedEvidencePath c.workspace d.after item 2048
    let declared := normalizedEvidencePath c.workspace d.env.before item 2048
    d.env.before.fsFileVersion target = d.after.fsFileVersion target →
      d.env.before.fsFileVersion declared = d.after.fsFileVersion target

/-! ### Steps -/

structure StepOf (d : Done) (s : RunStep) : Prop where
  written : ∀ target, s.evidencePath = some target → isFileMutation s.tool = true →
    Wrote c d target s.evidenceVersion
  read : ∀ target, s.evidencePath = some target → s.tool = ascii "file_read" →
    Saw c d target s.evidenceVersion

section Steps

variable {c : Config}

variable {d : Done}

theorem stepOk_eq_one (one : d.stepOk = 1) : d.succeeded = true := by
  unfold Done.stepOk at one
  split at one
  · assumption
  · split at one <;> cases one

theorem stepEvidence_spec {target : Text} {version : UInt64}
    (evidence : stepEvidence c.workspace d.after d.action.tool d.action.args d.stepOk =
      some (target, version)) :
    d.succeeded = true ∧ d.Names c target ∧ d.after.fsFileVersion target = version ∧
      (isFileMutation d.action.tool = true ∨ d.action.tool = ascii "file_read") := by
  unfold stepEvidence at evidence
  split at evidence
  · rename_i called
    rcases Option.map_eq_some_iff.mp evidence with ⟨path, named, same⟩
    simp only [Prod.mk.injEq] at same
    rcases same with ⟨rfl, rfl⟩
    exact ⟨stepOk_eq_one called.1, ⟨path, named, rfl⟩, rfl, called.2⟩
  · cases evidence

theorem headCopy_fileTool {tool : Text}
    (called : isFileMutation tool = true ∨ tool = ascii "file_read") : utf8HeadCopy 48 tool = tool := by
  rw [isFileMutation_iff] at called
  rcases called with (rfl | rfl) | rfl <;> decide

theorem newStep_stepOf (d : Done) (id : Nat) :
    StepOf c d (newStep c.workspace d.after id d.action.tool d.action.args d.stepOk) := by
  have spec (target : Text) (named : (newStep c.workspace d.after id d.action.tool d.action.args
      d.stepOk).evidencePath = some target) :
      d.succeeded = true ∧ d.Names c target ∧ d.after.fsFileVersion target =
        (newStep c.workspace d.after id d.action.tool d.action.args d.stepOk).evidenceVersion ∧
        (newStep c.workspace d.after id d.action.tool d.action.args d.stepOk).tool =
          d.action.tool := by
    simp only [newStep] at named ⊢
    rcases Option.map_eq_some_iff.mp named with ⟨⟨path, version⟩, evidence, rfl⟩
    rcases stepEvidence_spec evidence with ⟨succeeded, names, left, called⟩
    rw [evidence]
    exact ⟨succeeded, names, left, headCopy_fileTool called⟩
  constructor
  · intro target named mutation
    rcases spec target named with ⟨succeeded, names, left, tool⟩
    exact ⟨succeeded, tool ▸ mutation, names, left⟩
  · intro target named read
    rcases spec target named with ⟨succeeded, names, left, tool⟩
    exact ⟨succeeded, tool ▸ read, names, Or.inl left⟩

theorem modify_last {α : Type} (kept : List α) (last : α) (f : α → α) :
    (kept ++ [last]).modify kept.length f = kept ++ [f last] := by
  induction kept with
  | nil => rfl
  | cons first kept ih => simp [ih]

theorem rememberToolImage_stepOf {kept : List RunStep} {s : RunStep} {g : Registry} (steps : g.steps = kept ++ [s])
    (honest : StepOf c d s) :
    ∃ s', (rememberToolImage d.after g d.env.report).steps = kept ++ [s'] ∧ s'.id = s.id ∧
      StepOf c d s' := by
  unfold rememberToolImage
  simp only [steps, List.length_append, List.length_singleton, Nat.add_sub_cancel, modify_last]
  refine ⟨_, rfl, ?_, ?_⟩
  · split
    · split <;> rfl
    · rfl
  · split
    · rename_i called
      split
      · rename_i version found
        rcases Option.bind_eq_some_iff.mp found with ⟨path, named, image⟩
        constructor
        · intro target _ mutation
          rw [show s.tool = ascii "file_read" from called.2] at mutation
          exact absurd mutation (by decide)
        · intro target same read
          obtain rfl : path = target := Option.some.inj (named.symm.trans same)
          have saw := honest.read path named read
          exact ⟨saw.succeeded, saw.read, saw.names, Or.inr image⟩
      · exact honest
    · exact honest

theorem perform_steps (r : Reasoning) (d : Done) :
    ∃ kept s, (perform c r d).registry.steps = kept ++ [s] ∧ kept <:+ r.registry.steps ∧
      s.id = r.registry.sequence + 1 ∧ StepOf c d s := by
  rw [perform_registry]
  simp only
  let kept := if 256 ≤ r.registry.steps.length then
    r.registry.steps.drop (r.registry.steps.length - 255) else r.registry.steps
  have suffix : kept <:+ r.registry.steps := by
    show (if _ then _ else _) <:+ _
    split
    · exact List.drop_suffix _ _
    · exact List.suffix_refl _
  have honest := newStep_stepOf (c := c) d (r.registry.sequence + 1)
  split
  · rcases rememberToolImage_stepOf (g := runStepAdd c.workspace d.after r.registry d.action.tool
      d.action.args d.stepOk) rfl honest with ⟨s, steps, id, truth⟩
    exact ⟨kept, s, steps, suffix, id, truth⟩
  · exact ⟨kept, _, rfl, suffix, rfl, honest⟩

theorem perform_sequence (r : Reasoning) (d : Done) :
    (perform c r d).registry.sequence = r.registry.sequence + 1 := by
  rw [perform_registry]
  simp only
  split <;> rfl

theorem perform_receipts (r : Reasoning) (d : Done) :
    (perform c r d).registry.receipts =
      match stepEvidence c.workspace d.after d.action.tool d.action.args d.stepOk with
      | none => r.registry.receipts
      | some (target, version) => noteReceipt r.registry.receipts d.action.tool target version := by
  rw [perform_registry]
  simp only
  split <;> rfl

end Steps

/-! ### Receipts and produced files -/

section Receipts

variable {c : Config}

theorem mem_noteReceipt {receipts : List FileReceipt} {tool target : Text} {version : UInt64}
    {r : FileReceipt} (member : r ∈ noteReceipt receipts tool target version) :
    r ∈ receipts ∨
      (isFileMutation tool = true ∧ r = { path := target, written := version }) ∨
      (isFileMutation tool = false ∧ ∃ old ∈ receipts, old.path = target ∧ old.written = version ∧
        r = { old with verified := version }) := by
  unfold noteReceipt at member
  split at member
  · rename_i i found
    rcases List.mem_iff_getElem?.mp member with ⟨k, entry⟩
    rw [List.getElem?_modify] at entry
    rcases Option.map_eq_some_iff.mp entry with ⟨old, there, rfl⟩
    have known : old ∈ receipts := List.mem_of_getElem? there
    split
    · rename_i here
      subst here
      have path : old.path = target := by
        have spec := List.findIdx?_eq_some_iff_getElem.mp found
        rcases spec with ⟨bound, same, -⟩
        rw [List.getElem?_eq_getElem bound] at there
        rw [← Option.some.inj there]
        exact of_decide_eq_true same
      cases mutation : isFileMutation tool with
      | true => exact Or.inr (Or.inl ⟨by simp, by simp [← path]⟩)
      | false =>
        simp only [Bool.false_eq_true, if_false]
        split
        · rename_i written
          exact Or.inr (Or.inr ⟨by simp, old, known, path, written, rfl⟩)
        · exact Or.inl known
    · exact Or.inl known
  · split at member
    · rename_i mutation
      rcases List.mem_append.mp member with old | new
      · exact Or.inl old
      · exact Or.inr (Or.inl ⟨mutation, List.mem_singleton.mp new⟩)
    · exact Or.inl member

variable {workspace : Text}

theorem mem_declaredOutput {w : World} {step : Nat} {seen : List ArtifactSeen} {output : Json × UInt64}
    {a : ArtifactSeen} (member : a ∈ declaredOutput workspace w step seen output) :
    a ∈ seen ∨ (a.producerStep = step ∧ ∃ item, output.1 = .string item ∧
      normalizedEvidencePath workspace w item 2048 = a.path ∧ w.fsFileVersion a.path = a.version ∧
      output.2 ≠ a.version) := by
  unfold declaredOutput at member
  split at member
  · exact Or.inl member
  · rename_i item string
    have isString : output.1 = .string item := by
      cases h : output.1 <;> simp_all [Json.string?]
    simp only at member
    split at member
    · exact Or.inl member
    · rename_i changed
      split at member
      · exact Or.inl member
      · split at member
        · have recorded : a ∈ seen ∨ a = ⟨normalizedEvidencePath workspace w item 2048,
              w.fsFileVersion (normalizedEvidencePath workspace w item 2048), step⟩ := by
            unfold recordArtifact at member
            split at member
            · rcases List.mem_or_eq_of_mem_set member with old | new
              · exact Or.inl old
              · exact Or.inr new
            · rcases List.mem_append.mp member with old | new
              · apply Or.inl
                split at old
                · exact List.mem_of_mem_drop old
                · exact old
              · exact Or.inr (List.mem_singleton.mp new)
          rcases recorded with old | rfl
          · exact Or.inl old
          · refine Or.inr ⟨rfl, item, isString, rfl, rfl, ?_⟩
            intro same
            simp [same] at changed
        · exact Or.inl member

theorem captured_spec {w : World} {args : Option Json} {output : Json × UInt64}
    (member : output ∈ (outputItems args).zip (captureActionOutputVersions workspace w args)) :
    output.1 ∈ outputItems args ∧ ∀ item, output.1 = .string item →
      output.2 = w.fsFileVersion (normalizedEvidencePath workspace w item 2048) := by
  unfold captureActionOutputVersions at member
  generalize outputItems args = items at member ⊢
  generalize 128 = count at member
  induction items generalizing count with
  | nil => cases member
  | cons item items ih =>
    cases count with
    | zero => cases member
    | succ count =>
      rcases List.mem_cons.mp member with rfl | later
      · refine ⟨List.mem_cons_self, ?_⟩
        rintro name rfl
        rfl
      · rcases ih count later with ⟨declared, captured⟩
        exact ⟨List.mem_cons_of_mem item declared, captured⟩

theorem mem_declaredArtifactProgress {before after : World} {step : Nat} {seen : List ArtifactSeen}
    {args : Option Json} {a : ArtifactSeen} (member : a ∈ declaredArtifactProgress workspace after step seen args
      (captureActionOutputVersions workspace before args)) :
    a ∈ seen ∨ (a.producerStep = step ∧ ∃ item, .string item ∈ outputItems args ∧
      normalizedEvidencePath workspace after item 2048 = a.path ∧
      after.fsFileVersion a.path = a.version ∧
      before.fsFileVersion (normalizedEvidencePath workspace before item 2048) ≠ a.version) := by
  have each (output : Json × UInt64)
      (member : output ∈ (outputItems args).zip (captureActionOutputVersions workspace before args)) :=
    captured_spec member
  unfold declaredArtifactProgress at member
  generalize (outputItems args).zip (captureActionOutputVersions workspace before args) = outputs
    at member each
  induction outputs generalizing seen with
  | nil => exact Or.inl member
  | cons output outputs ih =>
    rcases ih member fun other later => each other (List.mem_cons_of_mem output later) with
      earlier | new
    · rcases mem_declaredOutput earlier with old | ⟨same, item, string, path, version, changed⟩
      · exact Or.inl old
      · have spec := each output List.mem_cons_self
        rw [spec.2 item string] at changed
        exact Or.inr ⟨same, item, string ▸ spec.1, path, version, changed⟩
    · exact Or.inr new

end Receipts

/-! ### Every piece of evidence goes back to an action -/

/-- What the loop remembers of files, with the actions behind it. -/
structure Backed (t : Traced) : Prop where
  counted : t.now.registry.sequence = (performed t.past).length
  ordered : t.now.registry.steps.Pairwise fun s s' => s.id < s'.id
  steps : ∀ s ∈ t.now.registry.steps, ∃ (i : Nat) (d : Done), s.id = i + 1 ∧ (performed t.past)[i]? = some d ∧
    StepOf c d s
  written : ∀ r ∈ t.now.registry.receipts, ∃ (i : Nat) (d : Done), (performed t.past)[i]? = some d ∧
    Wrote c d r.path r.written
  verified : ∀ r ∈ t.now.registry.receipts, r.verified ≠ 0 →
    Earned c (performed t.past) r.path r.verified
  produced : ∀ a ∈ t.now.produced, ∃ (i : Nat) (d : Done), a.producerStep = i + 1 ∧
    (performed t.past)[i]? = some d ∧ Produced c d a.path a.version

section Backed

variable {c : Config}

@[simp] theorem performed_append (past events : List Event) :
    performed (past ++ events) = performed past ++ performed events :=
  List.filterMap_append

@[simp] theorem performed_done (d : Done) : performed [.done d] = [d] :=
  rfl

variable {i : Nat}

theorem getElem?_grow {α : Type} {l : List α} {x : α} (there : l[i]? = some x) (more : List α) :
    (l ++ more)[i]? = some x := by
  rw [List.getElem?_append_left (List.getElem?_eq_some_iff.mp there).1]
  exact there

variable {target : Text} {version : UInt64}

theorem Earned.grow {done : List Done} (earned : Earned c done target version) (more : List Done) :
    Earned c (done ++ more) target version := by
  rcases earned with ⟨i, j, d, e, before, first, second, made, saw⟩
  exact ⟨i, j, d, e, before, getElem?_grow first more, getElem?_grow second more, made, saw⟩

variable {t : Traced}

theorem Backed.older (backed : Backed c t) {s : RunStep} (member : s ∈ t.now.registry.steps) :
    s.id < t.now.registry.sequence + 1 := by
  rcases backed.steps s member with ⟨i, d, id, there, -⟩
  have bound := (List.getElem?_eq_some_iff.mp there).1
  rw [← backed.counted] at bound
  omega

variable {d : Done}

theorem Backed.receipt (backed : Backed c t) {r : FileReceipt} (member : r ∈ (perform c t.now d).registry.receipts) :
    (∃ (i : Nat) (e : Done), (performed t.past ++ [d])[i]? = some e ∧ Wrote c e r.path r.written) ∧
      (r.verified ≠ 0 → Earned c (performed t.past ++ [d]) r.path r.verified) := by
  have old {r : FileReceipt} (known : r ∈ t.now.registry.receipts) :
      (∃ (i : Nat) (e : Done), (performed t.past ++ [d])[i]? = some e ∧ Wrote c e r.path r.written) ∧
        (r.verified ≠ 0 → Earned c (performed t.past ++ [d]) r.path r.verified) := by
    constructor
    · rcases backed.written r known with ⟨i, e, there, wrote⟩
      exact ⟨i, e, getElem?_grow there [d], wrote⟩
    · intro verified
      exact (backed.verified r known verified).grow [d]
  have last : (performed t.past ++ [d])[(performed t.past).length]? = some d := by simp
  rw [perform_receipts] at member
  split at member
  · exact old member
  · rename_i target version evidence
    rcases stepEvidence_spec evidence with ⟨succeeded, names, left, called⟩
    rcases mem_noteReceipt member with known | ⟨mutation, rfl⟩ | ⟨read, r', known, rfl, rfl, rfl⟩
    · exact old known
    · constructor
      · exact ⟨_, d, last, succeeded, mutation, names, left⟩
      · intro verified
        exact absurd rfl verified
    · constructor
      · exact (old known).1
      · intro _
        rcases backed.written r' known with ⟨i, e, there, wrote⟩
        have isRead : d.action.tool = ascii "file_read" := by
          rcases called with mutation | isRead
          · rw [read] at mutation
            cases mutation
          · exact isRead
        refine ⟨i, _, e, d, (List.getElem?_eq_some_iff.mp there).1, getElem?_grow there [d], last,
          Or.inl wrote, succeeded, isRead, names, Or.inl left⟩

theorem produced_of_honest (honest : Honest c d) (executed : d.outcome = .executed) (ok : d.env.ok = true)
    {item : Text} (declares : .string item ∈ outputItems d.action.args)
    (path : normalizedEvidencePath c.workspace d.after item 2048 = target)
    (left : d.after.fsFileVersion target = version)
    (changed : d.env.before.fsFileVersion (normalizedEvidencePath c.workspace d.env.before item 2048) ≠
      version) : Produced c d target version := by
  refine ⟨executed, ok, ⟨item, declares, path⟩, left, ?_⟩
  intro unchanged
  apply changed
  rw [← left, ← path]
  apply honest executed ok item declares
  rw [path, unchanged, left]

theorem Backed.made {t : Traced} (backed : Backed c t) {d : Done} (honest : Honest c d)
    {a : ArtifactSeen} (member : a ∈ (perform c t.now d).produced) :
    ∃ (i : Nat) (e : Done), a.producerStep = i + 1 ∧ (performed t.past ++ [d])[i]? = some e ∧
      Produced c e a.path a.version := by
  have old (known : a ∈ t.now.produced) : ∃ (i : Nat) (e : Done), a.producerStep = i + 1 ∧
      (performed t.past ++ [d])[i]? = some e ∧ Produced c e a.path a.version := by
    rcases backed.produced a known with ⟨i, e, id, there, made⟩
    exact ⟨i, e, id, getElem?_grow there [d], made⟩
  rw [perform_produced] at member
  split at member
  · rename_i called
    rcases mem_declaredArtifactProgress member with known | ⟨id, item, declares, path, left, changed⟩
    · exact old known
    · refine ⟨(performed t.past).length, d, ?_, by simp, ?_⟩
      · rw [id, backed.counted]
      · exact produced_of_honest honest called.1 called.2.1 declares path left changed
  · exact old member

theorem tracedStep_backed (honest : Honest c d) (backed : Backed c t) : Backed c (tracedStep c t d) := by
  rcases perform_steps (c := c) t.now d with ⟨kept, s, steps, suffix, id, truth⟩
  have past : performed (tracedStep c t d).past = performed t.past ++ [d] := by
    simp [tracedStep]
  constructor
  · show (perform c t.now d).registry.sequence = _
    rw [perform_sequence, backed.counted, past, List.length_append, List.length_singleton]
  · show (perform c t.now d).registry.steps.Pairwise _
    rw [steps, List.pairwise_append]
    refine ⟨backed.ordered.sublist suffix.sublist, List.pairwise_singleton _ _, ?_⟩
    intro s' member s'' last
    rw [List.mem_singleton.mp last, id]
    exact backed.older (suffix.subset member)
  · intro s' member
    rw [past]
    have member : s' ∈ (perform c t.now d).registry.steps := member
    rw [steps] at member
    rcases List.mem_append.mp member with old | new
    · rcases backed.steps s' (suffix.subset old) with ⟨i, e, id', there, truth'⟩
      exact ⟨i, e, id', getElem?_grow there [d], truth'⟩
    · rw [List.mem_singleton.mp new]
      refine ⟨(performed t.past).length, d, ?_, by simp, truth⟩
      rw [id, backed.counted]
  · intro r member
    rw [past]
    exact (backed.receipt member).1
  · intro r member
    rw [past]
    exact (backed.receipt member).2
  · intro a member
    rw [past]
    exact backed.made honest member

theorem Backed.quiet {u : Traced} (backed : Backed c t) (past : performed u.past = performed t.past)
    (steps : u.now.registry.steps = t.now.registry.steps)
    (sequence : u.now.registry.sequence = t.now.registry.sequence)
    (receipts : u.now.registry.receipts ⊆ t.now.registry.receipts) (produced : u.now.produced ⊆ t.now.produced) :
    Backed c u := by
  constructor
  · rw [sequence, past]
    exact backed.counted
  · rw [steps]
    exact backed.ordered
  · rw [steps, past]
    exact backed.steps
  · intro r member
    rw [past]
    exact backed.written r (receipts member)
  · intro r member
    rw [past]
    exact backed.verified r (receipts member)
  · intro a member
    rw [past]
    exact backed.produced a (produced member)

/-! ### Runs -/

variable (c) in
def HonestRound (t : Traced) : Label → Prop
  | .act round => ∀ d ∈ donesOf c t.opened.now round.actions, Honest c d
  | _ => True

theorem act_backed {round : Round} (honest : HonestRound c t (.act round)) (backed : Backed c t) :
    Backed c (step c t (.act round)) := by
  have opened : Backed c t.opened :=
    backed.quiet rfl rfl rfl (List.Subset.refl _) (List.Subset.refl _)
  have acts : Backed c ((donesOf c t.opened.now round.actions).foldl (tracedStep c) t.opened) := by
    apply @dones_invariant c (Backed c) fun _ d => Honest c d
    · intro t x honest backed
      exact tracedStep_backed honest backed
    · intro before d after split
      apply honest d
      rw [split]
      simp
    · exact opened
  rcases step_act (c := c) t round with ⟨ended, past, now⟩
  have same : ((donesOf c t.opened.now round.actions).foldl (tracedStep c) t.opened).now =
      acted c t.now round := by
    rw [foldl_tracedStep]
    rfl
  have spent : performed [ending c t.now round] = [] := by
    unfold ending
    split
    · rfl
    · split <;> rfl
  apply acts.quiet
  · rw [past, performed_append, spent, List.append_nil]
  · rw [now, same]
  · rw [now, same]
  · rw [now, same]
    exact List.Subset.refl _
  · rw [now, same]
    exact List.Subset.refl _

theorem step_backed {u : Traced} {l : Label} (backed : Backed c t) (taken : (loop c).restrict (HonestRound c) t l u) :
    Backed c u := by
  rcases taken with ⟨honest, taken⟩
  obtain rfl : step c t l = u := taken
  cases l with
  | act round => exact act_backed honest backed
  | contract w input => exact backed.quiet rfl rfl rfl (List.Subset.refl _) (List.Subset.refl _)
  | reason d =>
    rcases hReason_frame (c := c) t.now d with ⟨acceptance, failures, fileChecks, same⟩
    have now : (step c t (.reason d)).now = { t.now with acceptance, failures, fileChecks } := same
    have past : performed (step c t (.reason d)).past = performed t.past := rfl
    apply backed.quiet past <;> rw [now]
    · exact List.Subset.refl _
    · exact List.Subset.refl _
  | fold => exact backed.quiet rfl rfl rfl (List.Subset.refl _) (List.Subset.refl _)
  | steer => exact backed.quiet rfl rfl rfl (List.nil_subset _) (List.nil_subset _)
  | close g =>
    rcases gateVerified_frame (c := c) t.now g with ⟨acceptance, fileChecks, same⟩
    have now : (step c t (.close g)).now = { t.now with acceptance, fileChecks } := same
    have past : performed (step c t (.close g)).past = performed t.past :=
      (performed_append _ _).trans (List.append_nil _)
    apply backed.quiet past <;> rw [now]
    · exact List.Subset.refl _
    · exact List.Subset.refl _

theorem run_backed {ls : List Label} (run : ((loop c).restrict (HonestRound c)).Run {} ls t) : Backed c t := by
  apply run.invariant (fun _ _ _ backed taken => step_backed backed taken)
  exact ⟨rfl, List.Pairwise.nil, by simp, by simp, by simp, by simp⟩

/-! ### What is verified is earned -/

theorem lastStep_spec {steps : List RunStep} {kind : Text → Bool} {s : RunStep}
    (found : lastStep steps kind target = some (s, i)) :
    steps[i]? = some s ∧ kind s.tool = true ∧ s.evidencePath = some target := by
  have member := List.mem_of_find?_eq_some found
  have spec := List.find?_some found
  simp only [Bool.and_eq_true, decide_eq_true_eq] at spec
  rw [List.mem_reverse, List.mk_mem_zipIdx_iff_getElem?] at member
  exact ⟨member, spec.1.2, spec.2⟩

theorem stillThere_spec {w : World} (there : stillThere w target version = true) :
    version ≠ 0 ∧ version = w.fsFileVersion target ∧ w.fsIsDir target = false ∧
      0 < w.fsFileSize target := by
  simpa [stillThere, and_assoc] using there

theorem Backed.earned_of_steps (backed : Backed c t) {write read : RunStep} {j : Nat}
    (first : t.now.registry.steps[j]? = some write) (second : t.now.registry.steps[i]? = some read) (order : j < i)
    (mutation : isFileMutation write.tool = true) (wrote : write.evidencePath = some target)
    (isRead : read.tool = ascii "file_read") (saw : read.evidencePath = some target)
    (same : write.evidenceVersion = read.evidenceVersion) :
    Earned c (performed t.past) target read.evidenceVersion := by
  rcases backed.steps write (List.mem_of_getElem? first) with ⟨k, d, id, done, truth⟩
  rcases backed.steps read (List.mem_of_getElem? second) with ⟨l, e, id', done', truth'⟩
  have earlier : write.id < read.id := by
    rcases List.getElem?_eq_some_iff.mp first with ⟨bound, rfl⟩
    rcases List.getElem?_eq_some_iff.mp second with ⟨bound', rfl⟩
    exact List.pairwise_iff_getElem.mp backed.ordered j i bound bound' order
  refine ⟨k, l, d, e, by omega, done, done', Or.inl ?_, truth'.read target saw isRead⟩
  rw [← same]
  exact truth.written target wrote mutation

theorem Backed.earned_of_produced (backed : Backed c t) {read : RunStep}
    (there : t.now.registry.steps[i]? = some read) (isRead : read.tool = ascii "file_read")
    (saw : read.evidencePath = some target)
    (current : declaredOutputCurrent t.now.produced target read.evidenceVersion read.id = true) :
    Earned c (performed t.past) target read.evidenceVersion := by
  rcases List.any_eq_true.mp current with ⟨a, member, fits⟩
  simp only [Bool.and_eq_true, decide_eq_true_eq] at fits
  rcases fits with ⟨⟨⟨rfl, -⟩, same⟩, order⟩
  rcases backed.produced a member with ⟨k, d, id, done, made⟩
  rcases backed.steps read (List.mem_of_getElem? there) with ⟨l, e, id', done', truth⟩
  refine ⟨k, l, d, e, by omega, done, done', Or.inr ?_, truth.read a.path saw isRead⟩
  rw [← same]
  exact made

theorem Backed.verified_earned (backed : Backed c t) {w : World} {baseline : Baseline}
    (accepted : (runHasVerifiedArtifact w t.now.registry t.now.produced baseline target).1 = true) :
    ∃ version, stillThere w target version = true ∧ Earned c (performed t.past) target version := by
  unfold runHasVerifiedArtifact at accepted
  split at accepted
  · rename_i receipt
    rcases List.any_eq_true.mp receipt with ⟨r, member, fits⟩
    simp only [Bool.and_eq_true, decide_eq_true_eq] at fits
    rcases fits with ⟨rfl, there⟩
    exact ⟨r.verified, there, backed.verified r member (stillThere_spec there).1⟩
  · split at accepted
    · cases accepted
    · rename_i read i found
      rcases lastStep_spec found with ⟨last, isRead, saw⟩
      have isRead : read.tool = ascii "file_read" := of_decide_eq_true isRead
      split at accepted
      · cases accepted
      · rename_i there
        refine ⟨read.evidenceVersion, by simpa using there, ?_⟩
        have produced (accepted : (runHasVerifiedArtifact.produced w t.now.produced baseline target
            read).1 = true) : Earned c (performed t.past) target read.evidenceVersion := by
          unfold runHasVerifiedArtifact.produced at accepted
          simp only [Bool.and_eq_true] at accepted
          exact backed.earned_of_produced last isRead saw accepted.2
        split at accepted
        · rename_i write j written
          rcases lastStep_spec written with ⟨first, mutation, wrote⟩
          split at accepted
          · rename_i same
            exact backed.earned_of_steps first last (of_decide_eq_true accepted) mutation wrote
              isRead saw same
          · exact produced accepted
        · exact produced accepted

end Backed

/-- In every run whose commands are honest about the files they declare, an accepted artifact
was written or produced in this run and later read at the version it still has. -/
theorem verified_artifact_earned (c : Config) {ls : List Label} {t : Traced}
    (run : ((loop c).restrict (HonestRound c)).Run {} ls t) (w : World) (baseline : Baseline)
    (target : Text)
    (accepted : (runHasVerifiedArtifact w t.now.registry t.now.produced baseline target).1 = true) :
    ∃ version, Earned c (performed t.past) target version ∧ version ≠ 0 ∧
      version = w.fsFileVersion target ∧ w.fsIsDir target = false ∧ 0 < w.fsFileSize target := by
  rcases (run_backed run).verified_earned accepted with ⟨version, there, earned⟩
  exact ⟨version, earned, stillThere_spec there⟩

def fileArgs (path : String) : Option Json :=
  some (.object [(ascii "path", .string (ascii path))])

/-- A write of `a` and a read of it. -/
def writeThenRead : Round :=
  { actions :=
      [({ tool := ascii "file_write", args := fileArgs "a" }, quietly true),
      ({ tool := ascii "file_read", args := fileArgs "a" }, quietly true)]
    before := oneFile 3 1
    after := oneFile 3 1 }

theorem honest_of_undeclared {c : Config} {d : Done} (none : outputItems d.action.args = []) :
    Honest c d := by
  intro _ _ item declared
  rw [none] at declared
  cases declared

/-- The written file is accepted after the read. -/
theorem verified_artifact_earned_read :
    ∃ version, Earned transactional (performed (step transactional {} (.act writeThenRead)).past)
        (ascii "/w/a") version ∧ version ≠ 0 ∧ version = (oneFile 3 1).fsFileVersion (ascii "/w/a") ∧
      (oneFile 3 1).fsIsDir (ascii "/w/a") = false ∧ 0 < (oneFile 3 1).fsFileSize (ascii "/w/a") := by
  have honest : HonestRound transactional {} (.act writeThenRead) := by
    intro d member
    apply honest_of_undeclared
    have planned : d.action.args = fileArgs "a" := by
      have known := mem_donesOf transactional member
      simp only [writeThenRead, List.mem_cons, Prod.mk.injEq, List.not_mem_nil, or_false] at known
      rcases known with ⟨same, -⟩ | ⟨same, -⟩ <;> rw [same]
    rw [planned]
    rfl
  have run := Machine.Run.single
    (show ((loop transactional).restrict (HonestRound transactional)) {} (.act writeThenRead)
      (step transactional {} (.act writeThenRead)) from ⟨honest, rfl⟩)
  apply verified_artifact_earned transactional run (oneFile 3 1) [] (ascii "/w/a")
  decide +kernel

/-! ### A link to a file that is there -/

/-- The file `/w/real`, and `/w/out` as a link to it. -/
def linkedFile (real out : Bool) : World :=
  let name (path : Text) : Option Text :=
    if path = ascii "/w" then some path
    else if real && (path = ascii "/w/real" || (out && path = ascii "/w/out")) then
      some (ascii "/w/real")
    else none
  { realpath := name
    stat := fun path => (name path).map fun file =>
      { ino := if file = ascii "/w" then 1 else 2, size := 3, mtimeSec := 1, ctimeSec := 1
        isDir := file = ascii "/w" }
    bytes := fun path => (name path).map fun _ => ascii "abc" }

def wantsReal : Json :=
  .object [(ascii "artifacts", .array [.string (ascii "real")])]

def linkThenRead : Round :=
  { actions :=
      [({ tool := ascii "shell"
          args := some (.object [(ascii "command", .string (ascii "ln -s real out")),
            (ascii "outputs", .array [.string (ascii "out")])]) },
        { before := linkedFile true false, after := linkedFile true true }),
      ({ tool := ascii "file_read", args := fileArgs "real" },
        { before := linkedFile true true, after := linkedFile true true })]
    before := linkedFile true true
    after := linkedFile true true }

def linkRun : List Label :=
  [.contract (linkedFile false false) wantsReal, .act linkThenRead]

/-- The file comes from elsewhere, no command changes it, and it is accepted. -/
theorem verified_artifact_earned_fails :
    ∃ t, (loop transactional).Run {} linkRun t ∧
      (runHasVerifiedArtifact (linkedFile true true) t.now.registry t.now.produced
        t.now.acceptance.baseline (ascii "/w/real")).1 = true ∧
      ∀ version, ¬ Earned transactional (performed t.past) (ascii "/w/real") version := by
  refine ⟨_, Machine.run_ofFun_iff.mpr rfl, ?_, ?_⟩
  · decide +kernel
  · rintro version ⟨i, -, d, -, -, done, -, made, -⟩
    have idle : (performed (linkRun.foldl (step transactional) {}).past).all (fun d =>
        !isFileMutation d.action.tool && d.env.before.fsFileVersion (ascii "/w/real") =
          d.after.fsFileVersion (ascii "/w/real")) = true := by
      decide +kernel
    have here := List.all_eq_true.mp idle d (List.mem_of_getElem? done)
    simp only [Bool.and_eq_true, Bool.not_eq_true', decide_eq_true_eq] at here
    rcases made with wrote | produced
    · exact absurd (here.1.symm.trans wrote.mutation) (by decide)
    · exact produced.changed (here.2.trans produced.left)

end CognitiveOs.Cognition
