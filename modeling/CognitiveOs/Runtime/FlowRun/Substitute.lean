import CognitiveOs.Infra.Utf8
import CognitiveOs.Runtime.FlowRun.Graph

/-!
# Results in place of references

`flow_substitute` of `runtime/flow.c`: the references of a task give way to blocks with the
results of their nodes. It looks for them byte by byte where `flow_parse` goes from one to
the next, and both find the same ones.
-/

namespace CognitiveOs.Runtime.FlowRun

open Infra

def flowMaxExpandedContext : Nat := 512 * 1024
def flowSubstCap : Nat := 4096

def answerMark : Text := "\n回答: ".toUTF8.toList

def lastAnswer : Text → Option Text
  | [] => none
  | b :: rest =>
    match lastAnswer rest with
    | some last => some last
    | none => if answerMark.isPrefixOf (b :: rest) then some ((b :: rest).drop answerMark.length) else none

def resultBody (result : Text) : Text :=
  match lastAnswer result with
  | some last => if last = [] then result else last
  | none => result

def preview (body : Text) (path : Option Text) : Nat :=
  if path.isSome ∧ flowSubstCap < body.length then boundaryBefore body flowSubstCap else body.length

def truncatedNote (preview length : Nat) (path : Text) : Text :=
  ascii "\n[Upstream preview truncated: " ++ decimal preview ++ ascii "/" ++ decimal length ++
    ascii " bytes. Full result, original instruction and execution workspace: " ++ path ++
    ascii (". Read this file with file_read and follow next_offset_bytes to retrieve missing implementation " ++
      "details, limitations and unread-file lists. Do not treat the preview as the complete result.]\n")

def completeNote (path : Text) : Text :=
  ascii "\n[Upstream complete result/provenance (original instruction and execution workspace): " ++ path ++
    ascii ".]\n"

def upstreamBlock (ref result : Text) (path : Option Text) : Text :=
  let body := resultBody result
  let shown := preview body path
  "「上游 ".toUTF8.toList ++ ref ++ " 结果开始」\n".toUTF8.toList ++ body.take shown ++
    (match path with
      | some path => if shown < body.length then truncatedNote shown body.length path else completeNote path
      | none => []) ++
    "\n「上游结果结束」".toUTF8.toList

def tooLarge (written : Nat) (result : Text) (path : Option Text) : Bool :=
  let shown := preview (resultBody result) path
  let overhead := 512 + (path.map List.length).getD 0
  decide (flowMaxExpandedContext < shown) || decide (flowMaxExpandedContext - shown < overhead) ||
    decide (flowMaxExpandedContext - shown - overhead < written)

def referenceAt (d : FlowDag) : Text → Option (Nat × Text × Text)
  | 123 :: 123 :: body =>
    match strstr (ascii "\x7d\x7d") body with
    | some close =>
      let n := body.length - close.length
      if 0 < n ∧ n < 64 then (flowNodeIndex d (body.take n)).map fun ri => (ri, body.take n, close.drop 2) else none
    | none => none
  | _ => none

/-- The results of the nodes that have one, and the files with the full results. -/
structure Upstream where
  results : Nat → Option Text
  resultPath : Nat → Option Text

/-- The loop of `flow_substitute`; every round takes at least a byte. -/
def substituteFrom (d : FlowDag) (up : Upstream) : (rounds : Nat) → (t out : Text) → Option Text
  | 0, _, _ => none
  | _ + 1, [], out => if flowMaxExpandedContext < out.length then none else some out
  | rounds + 1, c :: rest, out =>
    match referenceAt d (c :: rest) with
    | some (ri, ref, after) =>
      match up.results ri with
      | some result =>
        if tooLarge out.length result (up.resultPath ri) then none
        else substituteFrom d up rounds after (out ++ upstreamBlock ref result (up.resultPath ri))
      | none => substituteFrom d up rounds rest (out ++ [c])
    | none => substituteFrom d up rounds rest (out ++ [c])

/-- `flow_substitute` for node `v`. -/
def flowSubstitute (d : FlowDag) (v : Nat) (up : Upstream) : Option Text :=
  substituteFrom d up ((d.task v).length + 1) (d.task v) []

/-! ### The references of a task -/

inductive Segment where
  | text (bytes : Text)
  | reference (ref : Text)

/-- A task cut at the references that `flow_parse` finds in it, one after the other. -/
inductive Segmented : Text → List Segment → Prop where
  | last {p : Text} : nextReference p = .none → Segmented p [.text p]
  | found {p front ref rest : Text} {segments : List Segment} : nextReference p = .found ref rest →
      p = front ++ (ascii "\x7b\x7b" ++ ref ++ ascii "\x7d\x7d" ++ rest) → Segmented rest segments →
      Segmented p (.text front :: .reference ref :: segments)

def render (d : FlowDag) (up : Upstream) : Segment → Text
  | .text bytes => bytes
  | .reference ref =>
    match (flowNodeIndex d ref).bind fun ri => (up.results ri).map fun result => (result, up.resultPath ri) with
    | some (result, path) => upstreamBlock ref result path
    | none => ascii "\x7b\x7b" ++ ref ++ ascii "\x7d\x7d"

variable {d d' : FlowDag} {up : Upstream} {u v : Nat}

theorem strstr_first {needle s found : Text} (search : strstr needle s = some found) :
    ∃ front, s = front ++ found ∧ ∀ k < front.length, ¬ needle <+: s.drop k := by
  induction s with
  | nil =>
    have ends := (strstr_spec search).2
    obtain rfl := List.suffix_nil.mp ends
    exact ⟨[], rfl, fun k small => absurd small (Nat.not_lt_zero k)⟩
  | cons c s ih =>
    unfold strstr at search
    split at search
    next =>
      obtain rfl := Option.some.inj search
      exact ⟨[], rfl, fun k small => absurd small (Nat.not_lt_zero k)⟩
    next later =>
      obtain ⟨front, rfl, none⟩ := ih search
      refine ⟨c :: front, rfl, ?_⟩
      intro k small here
      cases k with
      | zero => exact later (List.isPrefixOf_iff_prefix.mpr here)
      | succ k => exact none k (by simpa using small) (by simpa using here)

theorem strstr_absent {needle s : Text} (nonempty : needle ≠ []) (search : strstr needle s = none) (k : Nat) :
    ¬ needle <+: s.drop k := by
  induction s generalizing k with
  | nil =>
    intro here
    rw [List.drop_nil] at here
    exact nonempty (List.prefix_nil.mp here)
  | cons c s ih =>
    unfold strstr at search
    split at search
    next => cases search
    next later =>
      intro here
      cases k with
      | zero => exact later (List.isPrefixOf_iff_prefix.mpr here)
      | succ k => exact ih search k (by simpa using here)

variable {p ref rest : Text}

theorem nextReference_found (found : nextReference p = .found ref rest) :
    0 < ref.length ∧ ref.length < 64 ∧ ∃ front body, p = front ++ (123 :: 123 :: body) ∧
      (∀ k < front.length, ¬ ascii "\x7b\x7b" <+: p.drop k) ∧ body = ref ++ (ascii "\x7d\x7d" ++ rest) ∧
      strstr (ascii "\x7d\x7d") body = some (ascii "\x7d\x7d" ++ rest) := by
  unfold nextReference at found
  split at found
  · cases found
  next open_ opened =>
    obtain ⟨front, split_, first⟩ := strstr_first opened
    obtain ⟨body, rfl⟩ := (strstr_spec opened).1
    have body_eq : (ascii "\x7b\x7b" ++ body).drop 2 = body := rfl
    simp only [body_eq] at found
    split at found
    · cases found
    next close closed =>
      obtain ⟨ref', split', -⟩ := strstr_first closed
      obtain ⟨rest', rfl⟩ := (strstr_spec closed).1
      have size : body.length - (ascii "\x7d\x7d" ++ rest').length = ref'.length := by
        rw [split', List.length_append, Nat.add_sub_cancel]
      rw [size] at found
      have taken : body.take ref'.length = ref' := by rw [split', List.take_left]
      rw [taken] at found
      split at found
      · cases found
      next fits =>
        cases found
        exact ⟨by omega, by omega, front, body, split_, first, split', closed⟩

theorem segmented_of_flowReferences {i fuel : Nat} (wf : d.Wf) (inside : i < d.n)
    (done : flowReferences i fuel d p = .ok d') :
    ∃ segments, Segmented p segments ∧ ∀ ref, .reference ref ∈ segments → Mentions p ref ∧
      ∃ u, flowNodeIndex d ref = some u := by
  induction fuel generalizing d p with
  | zero => cases done
  | succ fuel ih =>
    unfold flowReferences at done
    split at done
    · next last =>
      refine ⟨[.text p], .last last, ?_⟩
      intro ref member
      simp at member
    · cases done
    · next ref rest found =>
      split at done
      · cases done
      · next u index =>
        split at done
        · cases done
        · next middle added =>
          have grown := flowAddEdge_grown wf (flowNodeIndex_lt index) inside added
          obtain ⟨segments, cut, known⟩ := ih grown.wf (grown.n ▸ inside) done
          obtain ⟨-, -, front, body, whole, -, split_, -⟩ := nextReference_found found
          refine ⟨.text front :: .reference ref :: segments, .found found ?_ cut, ?_⟩
          · rw [whole, split_]
            simp [ascii]
          · intro ref' member
            rw [mentions_found found]
            simp only [List.mem_cons, reduceCtorEq, false_or, Segment.reference.injEq] at member
            rcases member with rfl | later
            · exact ⟨.inl rfl, u, index⟩
            · obtain ⟨mentioned, w, found'⟩ := known ref' later
              rw [grown.index] at found'
              exact ⟨.inr mentioned, w, found'⟩

theorem segmented_of_foldlM {is : List Nat} (wf : d.Wf) (inside : ∀ i ∈ is, i < d.n)
    (done : is.foldlM (fun d i => flowReferences i ((d.task i).length + 1) d (d.task i)) d = .ok d') :
    ∀ i ∈ is, ∃ segments, Segmented (d.task i) segments ∧ ∀ ref, .reference ref ∈ segments → Mentions (d.task i) ref ∧
      ∃ u, flowNodeIndex d ref = some u := by
  induction is generalizing d with
  | nil => exact fun i member => absurd member List.not_mem_nil
  | cons j is ih =>
    rw [List.foldlM_cons] at done
    cases first : flowReferences j ((d.task j).length + 1) d (d.task j) with
    | error message =>
      rw [first] at done
      cases done
    | ok middle =>
      rw [first] at done
      obtain ⟨here, later⟩ := List.forall_mem_cons.mp inside
      have grown := flowReferences_grown wf here first
      intro i member
      rcases List.mem_cons.mp member with rfl | rest
      · exact segmented_of_flowReferences wf here first
      · have found := ih grown.wf (fun i member => grown.n ▸ later i member) done i rest
        rw [grown.task, grown.index] at found
        exact found

theorem flowParse_segmented {root : Json} (parsed : flowParse root = .ok d) (small : v < d.n) :
    ∃ segments, Segmented (d.task v) segments ∧
      ∀ ref, .reference ref ∈ segments → ∃ u, flowNodeIndex d ref = some u ∧ v ∈ d.adj u := by
  obtain ⟨-, -, -, depends⟩ := flowParse_spec parsed
  obtain ⟨items, nodes, edges, middle, -, -, mapped, -, -, first, last⟩ := flowParse_cases parsed
  have explicit := flowEdges_grown (mapM_flowNode mapped).2 first
  have one : ∀ {pairs : Nat → Nat → Prop} {d d' : FlowDag} {i : Nat}, i ∈ List.range middle.n →
      Grown middle pairs d → flowReferences i ((d.task i).length + 1) d (d.task i) = .ok d' →
      Grown d (fun u v => v = i ∧ ∃ ref, Mentions (middle.task i) ref ∧ flowNodeIndex middle ref = some u) d' := by
    intro pairs d d' i member grown done
    have step := flowReferences_grown grown.wf (grown.n ▸ List.mem_range.mp member) done
    rw [grown.index, grown.task] at step
    exact step
  have all := foldlM_grown one (Grown.refl explicit.wf) last
  have found := segmented_of_foldlM explicit.wf (fun i member => List.mem_range.mp member) last v
    (List.mem_range.mpr (all.n ▸ small))
  rw [← all.task, ← all.index] at found
  obtain ⟨segments, cut, known⟩ := found
  refine ⟨segments, cut, ?_⟩
  intro ref member
  obtain ⟨mentioned, u, index⟩ := known ref member
  exact ⟨u, index, (depends u v).mpr (.inr ⟨small, ref, mentioned, flowNodeIndex_id index⟩)⟩

/-! ### The loop -/

theorem referenceAt_eq_none {t : Text} (plain : ¬ ascii "\x7b\x7b" <+: t) : referenceAt d t = none := by
  unfold referenceAt
  split
  · next body => exact absurd ⟨body, rfl⟩ plain
  · rfl

theorem substituteFrom_text (front t out : Text) (rounds : Nat)
    (plain : ∀ k < front.length, ¬ ascii "\x7b\x7b" <+: (front ++ t).drop k) :
    substituteFrom d up (rounds + front.length) (front ++ t) out = substituteFrom d up rounds t (out ++ front) := by
  induction front generalizing out with
  | nil => simp
  | cons c front ih =>
    have here : referenceAt d (c :: (front ++ t)) = none :=
      referenceAt_eq_none (by simpa using plain 0 (by simp))
    have later : ∀ k < front.length, ¬ ascii "\x7b\x7b" <+: (front ++ t).drop k := by
      intro k small
      simpa using plain (k + 1) (by simpa using small)
    rw [List.length_cons, ← Nat.add_assoc, List.cons_append, substituteFrom, here]
    simp only
    rw [ih (out ++ [c]) later, List.append_assoc, List.singleton_append]

theorem referenceAt_found {body : Text} (short : 0 < ref.length ∧ ref.length < 64)
    (split_ : body = ref ++ (ascii "\x7d\x7d" ++ rest))
    (closed : strstr (ascii "\x7d\x7d") body = some (ascii "\x7d\x7d" ++ rest)) (index : flowNodeIndex d ref = some u) :
    referenceAt d (123 :: 123 :: body) = some (u, ref, rest) := by
  have size : body.length - (ascii "\x7d\x7d" ++ rest).length = ref.length := by
    rw [split_, List.length_append, Nat.add_sub_cancel]
  have taken : body.take ref.length = ref := by rw [split_, List.take_left]
  have after : (ascii "\x7d\x7d" ++ rest).drop 2 = rest := rfl
  unfold referenceAt
  simp only [closed, size, taken, after]
  rw [if_pos short, index]
  rfl

def Lone (ref : Text) : Prop :=
  ¬ ascii "\x7b\x7b" <:+: 123 :: ref

theorem lone_brace (lone : Lone ref) :
    ∀ k < (123 :: (ref ++ ascii "\x7d\x7d")).length,
      ¬ ascii "\x7b\x7b" <+: ((123 :: (ref ++ ascii "\x7d\x7d")) ++ rest).drop k := by
  have whole : 123 :: (ref ++ ascii "\x7d\x7d") ++ rest = (123 :: ref) ++ (125 :: 125 :: rest) := by simp [ascii]
  rw [whole]
  rintro k small ⟨more, here⟩
  have size : k < ref.length + 3 := by
    simp [ascii] at small
    omega
  have first : ((123 :: ref) ++ (125 :: 125 :: rest))[k]? = some 123 := by
    rw [← List.head?_drop, ← here]
    rfl
  have second : ((123 :: ref) ++ (125 :: 125 :: rest))[k + 1]? = some 123 := by
    rw [← List.head?_drop, ← List.drop_drop, ← here]
    rfl
  rcases Nat.lt_trichotomy k ref.length with inside | edge | behind
  · refine lone ?_
    have fits : k + 2 ≤ (123 :: ref).length := by simp; omega
    rw [List.drop_append_of_le_length (by omega)] at here
    have start : ascii "\x7b\x7b" <+: (123 :: ref).drop k := by
      refine List.prefix_of_prefix_length_le ⟨more, here⟩ (List.prefix_append _ _) ?_
      rw [List.length_drop]
      simp [ascii] at fits ⊢
      omega
    exact start.isInfix.trans (List.drop_suffix k _).isInfix
  · rw [List.getElem?_append_right (by simp; omega)] at second
    simp [edge] at second
  · rw [List.getElem?_append_right (by simp; omega)] at first
    have two : k - (ref.length + 1) = 0 ∨ k - (ref.length + 1) = 1 := by omega
    rcases two with zero | one
    · simp [zero] at first
    · simp [one] at first

/-- What a run of the loop may give: the whole text, or nothing when that is too long. -/
def Outcome (up : Upstream) (whole : Text) (r : Option Text) : Prop :=
  r = some whole ∨ r = none ∧ ∀ bound, (∀ ri path, up.resultPath ri = some path → path.length ≤ bound) →
    flowMaxExpandedContext < whole.length + 512 + bound

theorem length_preview_le (body : Text) (path : Option Text) : preview body path ≤ body.length := by
  unfold preview
  split
  next long => exact (boundaryBefore_le body _).trans (Nat.le_of_lt long.2)
  next => exact Nat.le_refl _

theorem preview_le_block (ref result : Text) (path : Option Text) :
    preview (resultBody result) path ≤ (upstreamBlock ref result path).length := by
  have part : ((resultBody result).take (preview (resultBody result) path)).length =
      preview (resultBody result) path := by
    rw [List.length_take, Nat.min_eq_left (length_preview_le _ _)]
  unfold upstreamBlock
  simp only [List.length_append, part]
  omega

theorem outcome_of_tooLarge {out ref result more : Text}
    (refused : tooLarge out.length result (up.resultPath u) = true) :
    Outcome up (out ++ upstreamBlock ref result (up.resultPath u) ++ more) none := by
  refine .inr ⟨rfl, ?_⟩
  intro bound paths
  have shown := preview_le_block ref result (up.resultPath u)
  have path : ((up.resultPath u).map List.length).getD 0 ≤ bound := by
    cases here : up.resultPath u with
    | none => exact Nat.zero_le _
    | some path => exact paths u path here
  unfold tooLarge at refused
  simp only [Bool.or_eq_true, decide_eq_true_eq] at refused
  simp only [List.length_append]
  omega

theorem nextReference_none (none_ : nextReference p = .none) (k : Nat) : ¬ ascii "\x7b\x7b" <+: p.drop k := by
  unfold nextReference at none_
  split at none_
  · next absent => exact strstr_absent (by decide) absent k
  · simp only at none_
    split at none_
    · cases none_
    · split at none_ <;> cases none_

theorem substituteFrom_last (none_ : nextReference p = .none) {rounds : Nat} (enough : p.length < rounds) (out : Text) :
    Outcome up (out ++ p) (substituteFrom d up rounds p out) := by
  obtain ⟨more, rfl⟩ := Nat.exists_eq_add_of_lt enough
  have plain : ∀ k < p.length, ¬ ascii "\x7b\x7b" <+: (p ++ []).drop k := by
    intro k _
    rw [List.append_nil]
    exact nextReference_none none_ k
  have copied := @substituteFrom_text d up p [] out (more + 1) plain
  rw [List.append_nil] at copied
  rw [show p.length + more + 1 = more + 1 + p.length by omega, copied, substituteFrom]
  split
  next long =>
    refine .inr ⟨rfl, fun bound _ => ?_⟩
    omega
  next => exact .inl rfl

theorem substituteFrom_found {p front ref rest : Text} (found : nextReference p = .found ref rest)
    (whole : p = front ++ (ascii "\x7b\x7b" ++ ref ++ ascii "\x7d\x7d" ++ rest)) (index : flowNodeIndex d ref = some u)
    (rounds : Nat) (out : Text) :
    ∃ body, 123 :: body = (123 :: (ref ++ ascii "\x7d\x7d")) ++ rest ∧
      referenceAt d (123 :: 123 :: body) = some (u, ref, rest) ∧
      substituteFrom d up (rounds + front.length) p out =
        substituteFrom d up rounds (123 :: 123 :: body) (out ++ front) := by
  obtain ⟨some_, short, front', body, split_, plain, inner, closed⟩ := nextReference_found found
  have length : front'.length = front.length := by
    have size := congrArg List.length (split_.symm.trans whole)
    rw [inner] at size
    simp [ascii] at size
    omega
  obtain ⟨rfl, -⟩ := List.append_inj (split_.symm.trans whole) length
  refine ⟨body, by rw [inner]; simp, referenceAt_found ⟨some_, short⟩ inner closed index, ?_⟩
  rw [split_] at plain ⊢
  exact substituteFrom_text front' _ out rounds plain

theorem substituteFrom_lone (lone : Lone ref) (rounds : Nat) (out : Text) :
    substituteFrom d up (rounds + (ref.length + 3)) ((123 :: (ref ++ ascii "\x7d\x7d")) ++ rest) out =
      substituteFrom d up rounds rest (out ++ 123 :: (ref ++ ascii "\x7d\x7d")) := by
  have size : (123 :: (ref ++ ascii "\x7d\x7d")).length = ref.length + 3 := by simp [ascii]
  rw [← size]
  exact substituteFrom_text _ rest out rounds (lone_brace lone)

theorem substituteFrom_segmented {segments : List Segment} (cut : Segmented p segments)
    (known : ∀ ref, .reference ref ∈ segments → ∃ u, flowNodeIndex d ref = some u ∧ (up.results u = none → Lone ref))
    (rounds : Nat) (enough : p.length < rounds) (out : Text) :
    Outcome up (out ++ segments.flatMap (render d up)) (substituteFrom d up rounds p out) := by
  induction cut generalizing rounds out with
  | @last p none_ =>
    simpa only [List.flatMap_cons, List.flatMap_nil, List.append_nil, render] using
      substituteFrom_last none_ enough out
  | @found p front ref rest segments next_ whole cut ih =>
    obtain ⟨u, index, braces⟩ := known ref (by simp)
    have rest_known : ∀ ref, .reference ref ∈ segments →
        ∃ u, flowNodeIndex d ref = some u ∧ (up.results u = none → Lone ref) :=
      fun ref member => known ref (List.mem_cons_of_mem _ (List.mem_cons_of_mem _ member))
    have size : p.length = front.length + (ref.length + rest.length + 4) := by
      rw [whole]
      simp [ascii]
      omega
    obtain ⟨more, rfl⟩ := Nat.exists_eq_add_of_lt enough
    obtain ⟨body, tail, here, copied⟩ :=
      @substituteFrom_found d up u p front ref rest next_ whole index (ref.length + rest.length + 3 + more + 1 + 1) out
    rw [size, show front.length + (ref.length + rest.length + 4) + more + 1 =
      ref.length + rest.length + 3 + more + 1 + 1 + front.length by omega, copied, substituteFrom, here]
    simp only [List.flatMap_cons, render, index, Option.bind_some]
    cases produced : up.results u with
    | some result =>
      simp only [Option.map_some]
      split
      next refused =>
        rw [← List.append_assoc, ← List.append_assoc]
        have long := @outcome_of_tooLarge up u (out ++ front) ref result (segments.flatMap (render d up)) refused
        exact long
      next =>
        have later := ih rest_known (ref.length + rest.length + 3 + more + 1) (by omega)
          (out ++ front ++ upstreamBlock ref result (up.resultPath u))
        simpa [List.append_assoc] using later
    | none =>
      simp only [Option.map_none]
      -- the first brace is copied; no two braces stand in what is left of the reference
      rw [tail, show ref.length + rest.length + 3 + more + 1 = rest.length + more + 1 + (ref.length + 3) by omega,
        substituteFrom_lone (braces produced)]
      have later := ih rest_known (rest.length + more + 1) (by omega)
        (out ++ front ++ [123] ++ 123 :: (ref ++ ascii "\x7d\x7d"))
      have text : out ++ front ++ [123] ++ 123 :: (ref ++ ascii "\x7d\x7d") ++ segments.flatMap (render d up) =
          out ++ (front ++ (ascii "\x7b\x7b" ++ ref ++ ascii "\x7d\x7d" ++ segments.flatMap (render d up))) := by
        simp [ascii]
      rw [text] at later
      exact later

/-- In an accepted flow the references that became dependencies, and no others, give way to blocks. -/
theorem flow_substitute_agrees {root : Json} (parsed : flowParse root = .ok d) (small : v < d.n) :
    ∃ segments, Segmented (d.task v) segments ∧
      (∀ ref, .reference ref ∈ segments → ∃ u, flowNodeIndex d ref = some u ∧ v ∈ d.adj u) ∧
      ∀ up, (∀ ref u, .reference ref ∈ segments → flowNodeIndex d ref = some u → up.results u = none → Lone ref) →
        Outcome up (segments.flatMap (render d up)) (flowSubstitute d v up) := by
  obtain ⟨segments, cut, known⟩ := flowParse_segmented parsed small
  refine ⟨segments, cut, known, ?_⟩
  intro up lone
  have each : ∀ ref, .reference ref ∈ segments →
      ∃ u, flowNodeIndex d ref = some u ∧ (up.results u = none → Lone ref) := by
    intro ref member
    obtain ⟨u, index, -⟩ := known ref member
    exact ⟨u, index, lone ref u member index⟩
  exact substituteFrom_segmented cut each ((d.task v).length + 1) (Nat.lt_succ_self _) []

def quoted : Json :=
  .object [(ascii "nodes", .array
    [.object [(ascii "id", .string [97]), (ascii "agent", .string [120]), (ascii "task", .string [116])],
      .object [(ascii "id", .string [98]), (ascii "agent", .string [120]),
        (ascii "task", .string (ascii "\x7b\x7ba\x7d\x7d"))]])]

/-- Node `b` refers to the result of node `a`. -/
def quotedDag : FlowDag where
  nodes := [⟨[97], [120], [116], 0, [1]⟩, ⟨[98], [120], ascii "\x7b\x7ba\x7d\x7d", 1, []⟩]

def quoting : Upstream where
  results := fun _ => some (ascii "\x7b\x7bb\x7d\x7d")
  resultPath := fun _ => none

theorem flow_substitute_agrees_quoted :
    ∃ segments, Segmented (quotedDag.task 1) segments ∧
      Outcome quoting (segments.flatMap (render quotedDag quoting))
        (some (upstreamBlock [97] (ascii "\x7b\x7bb\x7d\x7d") none)) := by
  have parsed : flowParse quoted = .ok quotedDag := by decide +kernel
  obtain ⟨segments, cut, -, outcome⟩ := @flow_substitute_agrees quotedDag 1 quoted parsed (by decide)
  have ran : flowSubstitute quotedDag 1 quoting = some (upstreamBlock [97] (ascii "\x7b\x7bb\x7d\x7d") none) := by
    decide +kernel
  have here := outcome quoting (by rintro ref u - - ⟨⟩)
  rw [ran] at here
  exact ⟨segments, cut, here⟩

/-- Without a result the dependency stays in the task as it is. -/
theorem flow_substitute_missing :
    flowParse quoted = .ok quotedDag ∧ 1 ∈ quotedDag.adj 0 ∧
      flowSubstitute quotedDag 1 ⟨fun _ => none, fun _ => none⟩ = some (quotedDag.task 1) ∧
      ∀ result path, upstreamBlock [97] result path ≠ quotedDag.task 1 := by
  refine ⟨by decide +kernel, by decide, by decide +kernel, ?_⟩
  intro result path same
  have first := congrArg List.head? same
  have mark : "「上游 ".toUTF8.toList.head? = some 227 := by decide +kernel
  simp only [upstreamBlock, List.append_assoc, List.head?_append, mark, Option.some_or] at first
  exact absurd first (by decide)

end CognitiveOs.Runtime.FlowRun
