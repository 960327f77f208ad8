import CognitiveOs.Cognition.Planner.Control

/-!
# Complete batches

The calls of a reply in each of the three formats, and that a batch has exactly these.
-/

namespace CognitiveOs.Cognition.Planner

open Foundation Infra Cjson

/-! ### JSON plans -/

variable {plan : Text}

/-- Arguments that are one JSON object: as such, as a string that holds one, or left out. -/
inductive ArgumentsOf : Option Json → Json → Prop where
  | missing : ArgumentsOf none (.object [])
  | object (members : List (Text × Json)) : ArgumentsOf (some (.object members)) (.object members)
  | text {s : Text} {members : List (Text × Json)} : parseWhole s = some (.object members) →
      ArgumentsOf (some (.string s)) (.object members)

/-- An element is a call with a valid identifier and one JSON object of arguments. -/
structure CallOf (it : Json) (action : PlannedAction) : Prop where
  identifier : validActionName action.tool = true
  parts : ∃ args, callParts it = (some (.string action.tool), args) ∧ ArgumentsOf args action.args

/-- The elements of a plan: of its `tool_calls`, of an array, or the one call itself. -/
inductive Elements : Json → List Json → Prop where
  | wire {root : Json} {items : List Json} : item (some root) "tool_calls" = some (.array items) →
      Elements root items
  | array (items : List Json) : Elements (.array items) items
  | single {root : Json} : item (some root) "tool_calls" = none → isCall root = true → Elements root [root]

/-- The value of a plan: at the start of the text, or its first bracketed span. -/
inductive PlanValue (plan : Text) : Json → Prop where
  | start {root : Json} : parse plan = some root → PlanValue plan root
  | span {span : Text} {root : Json} : parse plan = none → extractJsonSpan plan = some span →
      parse span = some root → PlanValue plan root

inductive JsonPlan (plan : Text) (actions : List PlannedAction) : Prop where
  | intro {root : Json} {items : List Json} : PlanValue plan root → Elements root items →
      List.Forall₂ CallOf items actions → JsonPlan plan actions

theorem argumentsOf {args : Option Json} {json : Json} (made : argsToJson args = some json) :
    ArgumentsOf args json := by
  unfold argsToJson at made
  split at made
  · cases made
    exact .missing
  · cases made
    exact .object _
  · split at made
    · next whole =>
      cases made
      exact .text whole
    · cases made
  · cases made

theorem callOf {it : Json} {action : PlannedAction} (made : actionOf it = some action) : CallOf it action := by
  unfold actionOf at made
  split at made
  · split at made
    · next name args parts =>
      obtain ⟨valid, made⟩ := Option.ite_none_right_eq_some.mp made
      obtain ⟨json, object, same⟩ := Option.map_eq_some_iff.mp made
      cases same
      exact ⟨valid, args, parts, argumentsOf object⟩
    · cases made
  · cases made

theorem planBatch_elements {root : Json} {actions : List PlannedAction} (made : planBatch root = .batch actions) :
    ∃ items, Elements root items ∧ List.Forall₂ CallOf items actions := by
  unfold planBatch at made
  simp only at made
  split at made
  · cases made
  · cases made
  · next items listed =>
    have elements : Elements root items := by
      split at listed
      · next items' wire =>
        cases listed
        exact .wire wire
      · cases listed
      · next nothing =>
        split at listed
        · cases listed
          exact .array _
        · split at listed
          · next call =>
            cases listed
            exact .single nothing call
          · cases listed
    cases mapped : items.mapM actionOf with
    | none => rw [mapped] at made; cases made
    | some found =>
      rw [mapped] at made
      cases made
      exact ⟨items, elements, (forall₂_mapM mapped).imp fun _ _ => callOf⟩

theorem parsePlanActions_plan {actions : List PlannedAction} (made : parsePlanActions plan = .batch actions) :
    JsonPlan plan actions := by
  unfold parsePlanActions at made
  cases read : parse plan with
  | some root =>
    rw [read] at made
    obtain ⟨items, elements, calls⟩ := planBatch_elements made
    exact .intro (.start read) elements calls
  | none =>
    rw [read, Option.none_or] at made
    cases found : (extractJsonSpan plan).bind parse with
    | none => rw [found] at made; cases made
    | some root =>
      rw [found] at made
      obtain ⟨span, cut, value⟩ := Option.bind_eq_some_iff.mp found
      obtain ⟨items, elements, calls⟩ := planBatch_elements made
      exact .intro (.span read cut value) elements calls

/-! ### Tagged calls -/

variable {s p : Text} {fuel : Nat}

/-- Text with exactly these tagged calls outside Markdown code, each with a valid identifier and a
bracketed span that is read as an object; the next tag is looked for behind the span. -/
inductive TaggedReply : Text → List PlannedAction → Prop where
  | done {text : Text} : nextToolMarkup text false = none → TaggedReply text []
  | call {text before name after body rest : Text} {members : List (Text × Json)}
      {actions : List PlannedAction} :
      nextToolMarkup text false = some (ascii "<tool_call>" ++ (before ++ (name ++ (after ++ (body ++ rest))))) →
      White before → White after → validActionName name = true →
      extractJsonSpan (body ++ rest) = some body → parse body = some (.object members) →
      TaggedReply rest actions → TaggedReply text ({ tool := name, args := .object members } :: actions)

theorem white_takeWhile (s : Text) : White (s.takeWhile isWhite) :=
  fun _ member => List.mem_takeWhile_imp member

theorem trim_end (s : Text) : ∃ after, White after ∧ s = (s.reverse.dropWhile isWhite).reverse ++ after := by
  refine ⟨(s.reverse.takeWhile isWhite).reverse, ?_, ?_⟩
  · intro c member
    exact white_takeWhile s.reverse c (List.mem_reverse.mp member)
  · rw [← List.reverse_append, List.takeWhile_append_dropWhile, List.reverse_reverse]

theorem balancedSpan_within {scan : Scan} {span : Text} (cut : balancedSpan scan s = some span) : span <+: s := by
  induction s generalizing scan span with
  | nil => cases cut
  | cons c s ih =>
    unfold balancedSpan at cut
    split at cut
    · cases cut
      exact ⟨s, rfl⟩
    · obtain ⟨later, found, same⟩ := Option.map_eq_some_iff.mp cut
      subst same
      exact List.cons_prefix_cons.mpr ⟨rfl, ih found⟩

theorem taggedName_split {name json : Text} (tag : (ascii "<tool_call>").isPrefixOf p = true)
    (named : taggedName p = (name, json)) :
    ∃ before after, White before ∧ White after ∧
      p = ascii "<tool_call>" ++ (before ++ (name ++ (after ++ json))) := by
  obtain ⟨q, rfl⟩ := List.isPrefixOf_iff_prefix.mp tag
  have behind : (ascii "<tool_call>" ++ q).drop 11 = q := List.drop_left' (by simp [ascii])
  unfold taggedName at named
  simp only [behind] at named
  obtain ⟨rfl, rfl⟩ := Prod.mk.inj named
  obtain ⟨after, white, trimmed⟩ :=
    trim_end ((q.dropWhile isWhite).takeWhile fun c => !(isBracket c || c = 60))
  refine ⟨q.takeWhile isWhite, after, white_takeWhile q, white, ?_⟩
  congr 1
  have rejoined := List.prefix_iff_eq_append.mp
    (List.takeWhile_prefix (l := q.dropWhile isWhite) fun c => !(isBracket c || c = 60))
  rw [← List.append_assoc _ after, ← trimmed, rejoined, List.takeWhile_append_dropWhile]

theorem extractJsonSpan_within {json body : Text} (start : startsJson json = true)
    (cut : extractJsonSpan json = some body) : body <+: json := by
  cases json with
  | nil => cases start
  | cons c rest =>
    have bracket : isBracket c = true := start
    have visible : c ≠ 0 := by
      rintro rfl
      cases bracket
    have same : ((cstr (c :: rest)).dropWhile fun c => !isBracket c) = cstr (c :: rest) := by
      simp [cstr, visible, bracket]
    unfold extractJsonSpan at cut
    rw [same] at cut
    exact (balancedSpan_within cut).trans (List.takeWhile_prefix _)

theorem taggedCalls_reply {text : Text} {actions : List PlannedAction} (made : taggedCalls fuel text = some actions) :
    TaggedReply text actions := by
  induction fuel generalizing text actions with
  | zero => cases made
  | succ fuel ih =>
    unfold taggedCalls at made
    cases found : nextToolMarkup text false with
    | none =>
      rw [found] at made
      cases made
      exact .done found
    | some p =>
      rw [found] at made
      simp only at made
      split at made
      · cases made
      · next tag =>
        rcases named : taggedName p with ⟨name, json⟩
        rw [named] at made
        simp only at made
        split at made
        · cases made
        · next valid =>
          rw [Bool.or_eq_true, not_or, Bool.not_eq_true', Bool.not_eq_true', Bool.not_eq_false,
            Bool.not_eq_false] at valid
          cases cut : extractJsonSpan json with
          | none => rw [cut] at made; cases made
          | some body =>
            rw [cut] at made
            simp only at made
            split at made
            · next members object =>
              obtain ⟨later, others, same⟩ := Option.map_eq_some_iff.mp made
              subst same
              obtain ⟨before, after, white, white', split⟩ := taggedName_split (by simpa using tag) named
              obtain ⟨rest, rfl⟩ := extractJsonSpan_within valid.1 cut
              rw [List.drop_left] at others
              exact .call (split ▸ found) white white' valid.2 cut object (ih others)
            · cases made

/-! ### DSML envelopes -/

structure Opens (tag : DsmlTag) (kind : String) : Prop where
  opening : tag.closing = false
  kind : tag.kind = ascii kind
  named : tag.name ≠ []

/-- The parameters of a call up to its closing tag, with its arguments; an envelope of arguments is
the only parameter. -/
inductive Parameters : Text → List (Text × Json) → Bool → List (Text × Json) → Text → Prop where
  | done {s rest : Text} {args : List (Text × Json)} {envelope : Bool} {tag : DsmlTag} :
      dsmlTagRead s = some (tag, rest) → closesWith tag (ascii "invoke") = true → Parameters s args envelope args rest
  | arguments {s s₁ s₂ s₃ rest : Text} {members final : List (Text × Json)} {tag close : DsmlTag} :
      dsmlTagRead s = some (tag, s₁) → Opens tag "parameter" → parameterValue tag s₁ = some (.object members, s₂) →
      dsmlTagRead s₂ = some (close, s₃) → closesWith close (ascii "parameter") = true →
      tag.name = ascii "args" ∨ tag.name = ascii "arguments" → Parameters s₃ members true final rest →
      Parameters s [] false final rest
  | parameter {s s₁ s₂ s₃ rest : Text} {args final : List (Text × Json)} {value : Json} {tag close : DsmlTag} :
      dsmlTagRead s = some (tag, s₁) → Opens tag "parameter" → parameterValue tag s₁ = some (value, s₂) →
      dsmlTagRead s₂ = some (close, s₃) → closesWith close (ascii "parameter") = true →
      (Json.object args).get? tag.name = none → Parameters s₃ (args ++ [(tag.name, value)]) false final rest →
      Parameters s args false final rest

inductive Invokes (outer : Text) : Text → List PlannedAction → Text → Prop where
  | done {s rest : Text} {tag : DsmlTag} : dsmlTagRead s = some (tag, rest) → closesWith tag outer = true →
      Invokes outer s [] rest
  | call {s s₁ s₂ rest : Text} {args : List (Text × Json)} {actions : List PlannedAction} {tag : DsmlTag} :
      dsmlTagRead s = some (tag, s₁) → Opens tag "invoke" → Parameters s₁ [] false args s₂ →
      Invokes outer s₂ actions rest → Invokes outer s ({ tool := tag.name, args := .object args } :: actions) rest

/-- An envelope with exactly these calls, up to the end of the reply. -/
inductive DsmlReply (plan : Text) (actions : List PlannedAction) : Prop where
  | intro {s rest : Text} {tag : DsmlTag} : dsmlTagRead (dsmlStart (cstr plan)) = some (tag, s) →
      tag.closing = false → tag.kind = ascii "calls" ∨ tag.kind = ascii "function_calls" →
      Invokes tag.kind s actions rest → dsmlSpace rest = [] → DsmlReply plan actions

theorem opens_of {tag : DsmlTag} {kind : String}
    (other : ¬ (tag.closing = true ∨ tag.kind ≠ ascii kind ∨ tag.name = [])) : Opens tag kind := by
  rw [not_or, not_or, not_not] at other
  exact ⟨Bool.eq_false_iff.mpr other.1, other.2.1, other.2.2⟩

theorem dsmlParameters_spec {rest : Text} {args : List (Text × Json)} {envelope : Bool} {json : Json}
    (made : dsmlParameters fuel args envelope s = some (json, rest)) :
    ∃ final, json = .object final ∧ Parameters s args envelope final rest := by
  induction fuel generalizing s args envelope with
  | zero => cases made
  | succ fuel ih =>
    unfold dsmlParameters at made
    split at made
    · cases made
    · next tag s₁ read =>
      split at made
      · next closes =>
        cases made
        exact ⟨_, rfl, .done read closes⟩
      · split at made
        · cases made
        · next opening =>
          split at made
          · cases made
          · next fresh =>
            rw [not_or] at fresh
            have flat : envelope = false := Bool.eq_false_iff.mpr fresh.1
            have new : (Json.object args).get? tag.name = none := Option.not_isSome_iff_eq_none.mp fresh.2
            subst flat
            split at made
            · cases made
            · next value s₂ valued =>
              split at made
              · cases made
              · next close s₃ closed =>
                split at made
                · cases made
                · next ends =>
                  have ends : closesWith close (ascii "parameter") = true := by simpa using ends
                  have opens := opens_of opening
                  split at made
                  · next members =>
                    split at made
                    · next envelope =>
                      split at made
                      · cases made
                      · next first =>
                        cases not_not.mp first
                        obtain ⟨final, same, later⟩ := ih made
                        exact ⟨final, same, .arguments read opens valued closed ends envelope later⟩
                    · obtain ⟨final, same, later⟩ := ih made
                      exact ⟨final, same, .parameter read opens valued closed ends new later⟩
                  · obtain ⟨final, same, later⟩ := ih made
                    exact ⟨final, same, .parameter read opens valued closed ends new later⟩

theorem dsmlInvokes_spec {outer : Text} {rest : Text} {actions : List PlannedAction}
    (made : dsmlInvokes outer fuel s = some (actions, rest)) : Invokes outer s actions rest := by
  induction fuel generalizing s actions with
  | zero => cases made
  | succ fuel ih =>
    unfold dsmlInvokes at made
    split at made
    · cases made
    · next tag s₁ read =>
      split at made
      · next closes =>
        cases made
        exact .done read closes
      · split at made
        · cases made
        · next opening =>
          split at made
          · cases made
          · next args s₂ given =>
            obtain ⟨⟨later, rest'⟩, others, same⟩ := Option.map_eq_some_iff.mp made
            cases same
            obtain ⟨members, rfl, parameters⟩ := dsmlParameters_spec given
            exact .call read (opens_of opening) parameters (ih others)

theorem parseDsmlToolCalls_reply {actions : List PlannedAction} (made : parseDsmlToolCalls plan = .batch actions) :
    DsmlReply plan actions := by
  unfold parseDsmlToolCalls at made
  simp only at made
  split at made
  · cases made
  · split at made
    · cases made
    · split at made
      · cases made
      · next tag s read =>
        split at made
        · cases made
        · next outer =>
          rw [not_or, Bool.not_eq_true, not_and_or, not_not, not_not] at outer
          split at made
          · cases made
          · cases made
          · next found rest _ invokes =>
            split at made
            · next ends =>
              cases made
              exact .intro read outer.1 outer.2 (dsmlInvokes_spec invokes) ends
            · cases made

/-! ### The first tag -/

theorem closeRun_suffix {quote : UInt8} {n : Nat} {after : Text} (closed : closeRun quote n fuel s = some after) :
    after <:+ s := by
  induction fuel generalizing s with
  | zero => cases closed
  | succ fuel ih =>
    have run : s.dropWhile (· ≠ quote) <:+ s := List.dropWhile_suffix _
    unfold closeRun at closed
    simp only at closed
    split at closed
    · cases closed
    · split at closed
      · cases closed
        exact (List.drop_suffix _ _).trans run
      · exact ((ih closed).trans (List.drop_suffix _ _)).trans run

theorem codeEnd_suffix {after : Text} (code : codeEnd s = some after) : after <:+ s := by
  unfold codeEnd at code
  split at code
  · cases code
  · split at code
    · exact (closeRun_suffix code).trans (List.drop_suffix _ _)
    · cases code

structure Marked (includeDsml : Bool) (p : Text) : Prop where
  outside : codeEnd p = none
  marked : (startsTag p || (includeDsml && startsDsml p)) = true

theorem nextMarkup_spec {includeDsml : Bool} (found : nextMarkup includeDsml fuel s = some p) :
    Marked includeDsml p ∧ p ≠ [] ∧ p <:+ s := by
  induction fuel generalizing s with
  | zero => cases found
  | succ fuel ih =>
    cases s with
    | nil => cases found
    | cons c rest =>
      unfold nextMarkup at found
      split at found
      · next after code =>
        rcases ih found with ⟨marked, some_, within⟩
        exact ⟨marked, some_, within.trans (codeEnd_suffix code)⟩
      · next outside =>
        split at found
        · next marked =>
          cases found
          exact ⟨⟨outside, marked⟩, List.cons_ne_nil _ _, List.suffix_refl _⟩
        · rcases ih found with ⟨marked, some_, within⟩
          exact ⟨marked, some_, within.trans (List.suffix_cons ..)⟩

theorem nextToolMarkup_again {text : Text} {includeDsml : Bool} (found : nextToolMarkup text includeDsml = some p) :
    nextToolMarkup p includeDsml = some p := by
  rcases nextMarkup_spec found with ⟨⟨outside, marked⟩, some_, within⟩
  have clean : 0 ∉ p := by
    intro nul
    have kept := List.mem_takeWhile_imp (within.subset nul)
    simp at kept
  obtain ⟨c, rest, rfl⟩ := List.exists_cons_of_ne_nil some_
  unfold nextToolMarkup
  rw [cstr_eq_self clean]
  unfold nextMarkup
  rw [outside]
  exact if_pos marked

theorem parseTaggedToolCalls_reply {actions : List PlannedAction} (made : parseTaggedToolCalls plan = .batch actions) :
    TaggedReply ((cstr plan).dropWhile isSpace) actions := by
  unfold parseTaggedToolCalls at made
  simp only at made
  split at made
  · cases made
  · split at made
    · cases made
    · split at made
      · cases made
      · cases made
      · next _ calls =>
        cases made
        have reply := taggedCalls_reply calls
        cases found : nextToolMarkup ((cstr plan).dropWhile isSpace) false with
        | none =>
          rw [found] at reply
          exact reply
        | some first =>
          rw [found] at reply
          cases reply with
          | done nothing =>
            rw [Option.getD_some, nextToolMarkup_again found] at nothing
            cases nothing
          | call tagged white white' valid cut object others =>
            rw [Option.getD_some, nextToolMarkup_again found, ← found] at tagged
            exact .call tagged white white' valid cut object others

/-! ### Every batch is complete -/

/-- A batch of exactly the calls of its reply, in their order, each with one JSON object of arguments,
and with a valid identifier in a JSON plan or a tagged call. -/
structure CompleteBatch (plan : Text) (actions : List PlannedAction) : Prop where
  arguments : ∀ action ∈ actions, ∃ members, action.args = .object members
  identifiers : parseDsmlToolCalls plan = .none → ∀ action ∈ actions, validActionName action.tool = true
  calls : DsmlReply plan actions ∨ TaggedReply ((cstr plan).dropWhile isSpace) actions ∨ JsonPlan plan actions

theorem CallOf.object {it : Json} {action : PlannedAction} (call : CallOf it action) :
    ∃ members, action.args = .object members := by
  obtain ⟨args, -, arguments⟩ := call.parts
  generalize action.args = json at arguments
  cases arguments with
  | missing => exact ⟨[], rfl⟩
  | object members => exact ⟨members, rfl⟩
  | text whole => exact ⟨_, rfl⟩

theorem JsonPlan.actions {plan : Text} {actions : List PlannedAction} (reply : JsonPlan plan actions) :
    ∀ action ∈ actions, validActionName action.tool = true ∧ ∃ members, action.args = .object members := by
  rcases reply with ⟨-, -, calls⟩
  induction calls with
  | nil => intro action member; cases member
  | cons call _ ih =>
    rw [List.forall_mem_cons]
    exact ⟨⟨call.identifier, call.object⟩, ih⟩

theorem TaggedReply.actions {text : Text} {actions : List PlannedAction} (reply : TaggedReply text actions) :
    ∀ action ∈ actions, validActionName action.tool = true ∧ ∃ members, action.args = .object members := by
  induction reply with
  | done => intro action member; cases member
  | call _ _ _ valid _ _ _ ih =>
    rw [List.forall_mem_cons]
    exact ⟨⟨valid, _, rfl⟩, ih⟩

theorem Invokes.actions {outer s rest : Text} {actions : List PlannedAction}
    (invokes : Invokes outer s actions rest) : ∀ action ∈ actions, ∃ members, action.args = .object members := by
  induction invokes with
  | done => intro action member; cases member
  | call _ _ _ _ ih =>
    rw [List.forall_mem_cons]
    exact ⟨⟨_, rfl⟩, ih⟩

/-- Every reply is turned into a complete batch or into nothing. -/
theorem readCalls_complete (plan : Text) :
    match readCalls plan with
    | .batch actions => CompleteBatch plan actions
    | _ => True := by
  unfold readCalls
  cases dsml : parseDsmlToolCalls plan with
  | invalid => trivial
  | batch actions =>
    have reply := parseDsmlToolCalls_reply dsml
    refine ⟨?_, fun other => ?_, .inl reply⟩
    · rcases reply with ⟨-, -, -, invokes, -⟩
      exact invokes.actions
    · rw [dsml] at other
      cases other
  | none =>
    cases tagged : parseTaggedToolCalls plan with
    | invalid => trivial
    | batch actions =>
      have reply := parseTaggedToolCalls_reply tagged
      have calls := reply.actions
      exact ⟨fun action member => (calls action member).2, fun _ action member => (calls action member).1,
        .inr (.inl reply)⟩
    | none =>
      cases parsed : parsePlanActions plan with
      | invalid => trivial
      | none => trivial
      | batch actions =>
        have reply := parsePlanActions_plan parsed
        have calls := reply.actions
        exact ⟨fun action member => (calls action member).2, fun _ action member => (calls action member).1,
          .inr (.inr reply)⟩

def fencedPlan : Text :=
  ascii "```\n[\x7b\"tool\":\"a\"\x7d]\n```"

def Parsed.some : Parsed → Bool
  | .batch (_ :: _) => true
  | _ => false

/-- Outside its Markdown code the reply has no call, and it is turned into a batch. -/
theorem readCalls_complete_fails :
    (readCalls fencedPlan).some = true ∧ (callsIn (fencedPlan.length + 1) fencedPlan).isEmpty = true := by
  decide +kernel

end CognitiveOs.Cognition.Planner
