import CognitiveOs.Cognition.Planner.Dsml.Tags
import CognitiveOs.Infra.Print
import Mathlib.Data.List.Infix

/-!
# Round trips of DSML calls

What is written as a DSML envelope is read back, and of an envelope that is cut off nothing is
executed.
-/

namespace CognitiveOs.Cognition.Planner.Dsml

open Infra Cjson

/-! ### Calls that are written -/

/-- The name of a tool or a parameter, as an attribute can hold it. -/
structure Name where
  bytes : Text
  some_bytes : bytes ≠ []
  fits : bytes.length < 256
  unquoted : 34 ∉ bytes ∧ 39 ∉ bytes
  text : 0 ∉ bytes

/-- What stands in a parameter: a string without a closing tag, or JSON and the value that is read of it. -/
inductive Payload where
  | string (s : Text) (free : ClosingFree s) (text : 0 ∉ s)
  | json (source : Text) (value : Json) (spaces : Text) (read : parseWithEnd source = some (value, spaces))
      (blank : ∀ c ∈ spaces, isSpace c = true) (text : 0 ∉ source)

def Payload.source : Payload → Text
  | .string s _ _ => s
  | .json source .. => source

def Payload.value : Payload → Json
  | .string s _ _ => .string s
  | .json _ value .. => value

def Payload.isString : Payload → Bool
  | .string .. => true
  | .json .. => false

structure Param where
  name : Name
  payload : Payload

structure Call where
  tool : Name
  params : List Param

/-- The choices of a writer: the mark of the tags, the kind of the outer one, the quotes, and the spaces between
tags. -/
structure Style where
  dsml : Text
  outer : Text
  quote : UInt8
  gap : Text
  known : dsml ∈ dsmlPrefixes
  isOuter : outer = ascii "calls" ∨ outer = ascii "function_calls"
  isQuote : quote = 34 ∨ quote = 39
  blank : ∀ c ∈ gap, isSpace c = true

namespace Style

variable (st : Style)

def opening (kind attributes : Text) : Text :=
  60 :: (st.dsml ++ (kind ++ (attributes ++ [62])))

def closing (kind : Text) : Text :=
  60 :: 47 :: (st.dsml ++ (kind ++ [62]))

def name (n : Name) : Text :=
  attributeText st.quote (ascii "name") n.bytes

def isString (isString : Bool) : Text :=
  attributeText st.quote (ascii "string") (ascii (if isString then "true" else "false"))

def param (p : Param) : Text :=
  st.opening (ascii "parameter") (st.name p.name ++ st.isString p.payload.isString) ++
    (p.payload.source ++ st.closing (ascii "parameter"))

def params : List Param → Text
  | [] => st.gap ++ st.closing (ascii "invoke")
  | p :: ps => st.gap ++ (st.param p ++ params ps)

def call (c : Call) : Text :=
  st.opening (ascii "invoke") (st.name c.tool) ++ st.params c.params

def calls : List Call → Text
  | [] => st.gap ++ st.closing st.outer
  | c :: cs => st.gap ++ (st.call c ++ calls cs)

def render (cs : List Call) : Text :=
  st.opening st.outer [] ++ st.calls cs

end Style

/-! ### What is read of them -/

/-- The arguments of a call: an object under `args` is all of them, and no name is taken twice. -/
def collect : List (Text × Json) → Bool → List (Text × Json) → Option Json
  | args, _, [] => some (.object args)
  | args, envelope, (name, value) :: params =>
    if envelope = true ∨ ((Json.object args).get? name).isSome = true then none
    else
      match value with
      | .object members =>
        if name = ascii "args" ∨ name = ascii "arguments" then
          if args ≠ [] then none else collect members true params
        else collect (args ++ [(name, value)]) false params
      | _ => collect (args ++ [(name, value)]) false params

theorem collect_cons (args : List (Text × Json)) (envelope : Bool) (name : Text) (value : Json)
    (params : List (Text × Json)) : collect args envelope ((name, value) :: params) =
      if envelope = true ∨ ((Json.object args).get? name).isSome = true then none
      else
        match value with
        | .object members =>
          if name = ascii "args" ∨ name = ascii "arguments" then
            if args ≠ [] then none else collect members true params
          else collect (args ++ [(name, value)]) false params
        | _ => collect (args ++ [(name, value)]) false params := by
  cases value <;> rfl

def Param.member (p : Param) : Text × Json :=
  (p.name.bytes, p.payload.value)

def Call.action (c : Call) : Option PlannedAction :=
  (collect [] false (c.params.map Param.member)).map fun args => { tool := c.tool.bytes, args }

/-! ### Tags that are written -/

structure IsKind (kind : Text) : Prop where
  named : kind ≠ []
  short : kind.length < 32
  letters : ∀ c ∈ kind, isKindChar c = true

theorem isKind_parameter : IsKind (ascii "parameter") :=
  ⟨by decide, by decide, List.all_eq_true.mp (by decide)⟩

theorem isKind_invoke : IsKind (ascii "invoke") :=
  ⟨by decide, by decide, List.all_eq_true.mp (by decide)⟩

theorem Style.isKind_outer (st : Style) : IsKind st.outer := by
  rcases st.isOuter with isCalls | isCalls <;> rw [isCalls] <;>
    exact ⟨by decide, by decide, List.all_eq_true.mp (by decide)⟩

section

variable (st : Style) {spaces kind : Text}

theorem read_closing (blank : ∀ c ∈ spaces, isSpace c = true) (isKind : IsKind kind) (t : Text) :
    dsmlTagRead (spaces ++ (st.closing kind ++ t)) = some ({ kind, closing := true }, t) := by
  refine dsmlTagRead_iff.mpr ⟨spaces, true, st.dsml, kind ++ 62 :: t, ?_, .inl blank, st.known, ?_⟩
  · simp [Style.closing, slash]
  · rw [← List.nil_append (kind ++ 62 :: t),
      readKind_run (by simp) isKind.named isKind.short isKind.letters (by decide),
      readAttributes_end (dsmlSpace_cons (by decide) t)]

theorem read_opening {attributes t s : Text} {tag : DsmlTag} {c : UInt8} (blank : ∀ c ∈ spaces, isSpace c = true)
    (isKind : IsKind kind) (first : attributes ++ 62 :: t = c :: s) (stop : isKindChar c = false)
    (reads : readAttributes 3 { kind } (attributes ++ 62 :: t) = some (tag, t)) :
    dsmlTagRead (spaces ++ (st.opening kind attributes ++ t)) = some (tag, t) := by
  refine dsmlTagRead_iff.mpr ⟨spaces, false, st.dsml, kind ++ (attributes ++ 62 :: t), ?_, .inl blank, st.known, ?_⟩
  · simp [Style.opening, slash]
  · have some_kind := List.length_pos_iff.mpr isKind.named
    rw [← List.nil_append (kind ++ (attributes ++ 62 :: t)), first,
      readKind_run (by simp) isKind.named isKind.short isKind.letters stop, ← first]
    have longer := readAttributes_local reads
      (show 3 ≤ (kind ++ (attributes ++ 62 :: t)).length + 1 by simp; omega) []
    rw [List.append_nil, List.append_nil] at longer
    exact longer

theorem readAttributes_name {fuel : Nat} {tag : DsmlTag} (opening : tag.closing = false) (unnamed : tag.name = [])
    (n : Name) (s : Text) :
    readAttributes (fuel + 1) tag (st.name n ++ s) = readAttributes fuel { tag with name := n.bytes } s := by
  have unquoted : st.quote ∉ n.bytes := by
    rcases st.isQuote with isQuote | isQuote <;> rw [isQuote]
    · exact n.unquoted.1
    · exact n.unquoted.2
  have set : tag.set (ascii "name") n.bytes = some { tag with name := n.bytes } := by
    rw [DsmlTag.set, if_pos rfl, if_neg]
    rw [not_or, not_or, not_le, not_not]
    exact ⟨n.some_bytes, n.fits, unnamed⟩
  rw [Style.name,
    readAttributes_attribute opening st.isQuote (by decide) (List.all_eq_true.mp (by decide)) unquoted, set]
  rfl

theorem readAttributes_isString {fuel : Nat} {tag : DsmlTag} (opening : tag.closing = false)
    (unset : tag.stringValue = none) (isString : Bool) (s : Text) :
    readAttributes (fuel + 1) tag (st.isString isString ++ s) =
      readAttributes fuel { tag with stringValue := some isString } s := by
  have unquoted : st.quote ∉ ascii (if isString then "true" else "false") := by
    rcases st.isQuote with isQuote | isQuote <;> rw [isQuote] <;> cases isString <;> decide
  have set : tag.set (ascii "string") (ascii (if isString then "true" else "false")) =
      some { tag with stringValue := some isString } := by
    rw [DsmlTag.set, if_neg (by decide), if_pos rfl, if_neg (by rw [unset]; decide)]
    cases isString
    · rw [if_neg (by decide)]
      exact if_pos rfl
    · exact if_pos rfl
  rw [Style.isString,
    readAttributes_attribute opening st.isQuote (by decide) (List.all_eq_true.mp (by decide)) unquoted, set]
  rfl

theorem Name.opens (n : Name) {kind : Text} : ¬ (false = true ∨ kind ≠ kind ∨ n.bytes = []) := by
  rintro (no | no | no)
  · cases no
  · exact no rfl
  · exact n.some_bytes no

theorem read_outer (t : Text) : dsmlTagRead (st.opening st.outer [] ++ t) = some ({ kind := st.outer }, t) := by
  refine @read_opening st [] _ [] t _ _ _ (by simp) st.isKind_outer rfl (by decide) ?_
  exact readAttributes_end (dsmlSpace_cons (by decide) t) _ _

theorem read_invoke (blank : ∀ c ∈ spaces, isSpace c = true) (n : Name) (t : Text) :
    dsmlTagRead (spaces ++ (st.opening (ascii "invoke") (st.name n) ++ t)) =
      some ({ kind := ascii "invoke", name := n.bytes }, t) := by
  refine read_opening st blank isKind_invoke rfl (by decide) ?_
  rw [readAttributes_name st rfl rfl]
  exact readAttributes_end (dsmlSpace_cons (by decide) t) _ _

theorem read_parameter (blank : ∀ c ∈ spaces, isSpace c = true) (n : Name) (isString : Bool) (t : Text) :
    dsmlTagRead (spaces ++ (st.opening (ascii "parameter") (st.name n ++ st.isString isString) ++ t)) =
      some ({ kind := ascii "parameter", name := n.bytes, stringValue := some isString }, t) := by
  refine read_opening st blank isKind_parameter rfl (by decide) ?_
  rw [List.append_assoc, readAttributes_name st rfl rfl, readAttributes_isString st rfl rfl]
  exact readAttributes_end (dsmlSpace_cons (by decide) t) _ _

end

/-! ### Texts without NUL -/

section

variable (st : Style)

theorem clean_blank {spaces : Text} (blank : ∀ c ∈ spaces, isSpace c = true) : 0 ∉ spaces := by
  intro member
  have := blank 0 member
  revert this
  decide

theorem clean_kind {kind : Text} (isKind : IsKind kind) : 0 ∉ kind :=
  fun member => (kindChar_visible (isKind.letters 0 member)).2.2 rfl

theorem clean_attribute {key value : Text} (named : 0 ∉ key) (text : 0 ∉ value) :
    0 ∉ attributeText st.quote key value := by
  have quote : ¬ 0 = st.quote := by
    rcases st.isQuote with isQuote | isQuote <;> rw [isQuote] <;> decide
  simp only [attributeText, List.mem_cons, List.mem_append, List.not_mem_nil, or_false, not_or]
  exact ⟨by decide, named, by decide, quote, text, quote⟩

theorem clean_opening {kind attributes : Text} (isKind : IsKind kind) (text : 0 ∉ attributes) :
    0 ∉ st.opening kind attributes := by
  simp only [Style.opening, List.mem_cons, List.mem_append, List.not_mem_nil, or_false, not_or]
  exact ⟨by decide, (dsml_head st.known).2.2.2, clean_kind isKind, text, by decide⟩

theorem clean_closing {kind : Text} (isKind : IsKind kind) : 0 ∉ st.closing kind := by
  simp only [Style.closing, List.mem_cons, List.mem_append, List.not_mem_nil, or_false, not_or]
  exact ⟨by decide, by decide, (dsml_head st.known).2.2.2, clean_kind isKind, by decide⟩

theorem clean_name (n : Name) : 0 ∉ st.name n :=
  clean_attribute st (by decide) n.text

theorem clean_isString (isString : Bool) : 0 ∉ st.isString isString := by
  cases isString <;> exact clean_attribute st (by decide) (by decide)

theorem Payload.clean (payload : Payload) : 0 ∉ payload.source := by
  cases payload with
  | string s free text => exact text
  | json source value spaces read blank text => exact text

theorem clean_params (ps : List Param) : 0 ∉ st.params ps := by
  induction ps with
  | nil =>
    rw [Style.params, List.mem_append, not_or]
    exact ⟨clean_blank st.blank, clean_closing st isKind_invoke⟩
  | cons p ps ih =>
    simp only [Style.params, Style.param, List.mem_append, not_or]
    refine ⟨clean_blank st.blank, ⟨clean_opening st isKind_parameter ?_, p.payload.clean,
      clean_closing st isKind_parameter⟩, ih⟩
    rw [List.mem_append, not_or]
    exact ⟨clean_name st p.name, clean_isString st _⟩

theorem clean_calls (cs : List Call) : 0 ∉ st.calls cs := by
  induction cs with
  | nil =>
    rw [Style.calls, List.mem_append, not_or]
    exact ⟨clean_blank st.blank, clean_closing st st.isKind_outer⟩
  | cons c cs ih =>
    simp only [Style.calls, Style.call, List.mem_append, not_or]
    exact ⟨clean_blank st.blank, ⟨clean_opening st isKind_invoke (clean_name st c.tool), clean_params st c.params⟩, ih⟩

theorem clean_render (cs : List Call) : 0 ∉ st.render cs := by
  rw [Style.render, List.mem_append, not_or]
  exact ⟨clean_opening st st.isKind_outer (by simp), clean_calls st cs⟩

/-! ### Calls are read back -/

theorem read_payload {n : Text} (payload : Payload) {t : Text} (clean : 0 ∉ t) : ∃ spaces,
    (∀ c ∈ spaces, isSpace c = true) ∧
      parameterValue { kind := ascii "parameter", name := n, stringValue := some payload.isString }
        (payload.source ++ (st.closing (ascii "parameter") ++ t)) =
      some (payload.value, spaces ++ (st.closing (ascii "parameter") ++ t)) := by
  cases payload with
  | string s free text =>
    refine ⟨[], by simp, ?_⟩
    have closes : closesParameter (st.closing (ascii "parameter") ++ t) = true :=
      closesParameter_iff.mpr ⟨_, _, @read_closing st [] _ (by simp) isKind_parameter t, by decide⟩
    rw [parameterValue, if_pos (show some (Payload.string s free text).isString = some true from rfl)]
    show (parameterText (s ++ (st.closing _ ++ t))).map _ = _
    rw [Style.closing, List.cons_append] at closes ⊢
    rw [parameterText_append free closes]
    rfl
  | json source value spaces read blank text =>
    refine ⟨spaces, blank, ?_⟩
    have behind : 0 ∉ st.closing (ascii "parameter") ++ t := by
      rw [List.mem_append, not_or]
      exact ⟨clean_closing st isKind_parameter, clean⟩
    rw [parameterValue, if_neg (by simp [Payload.isString])]
    show parseWithEnd (source ++ (st.closing _ ++ t)) = _
    rw [Style.closing, List.cons_append] at behind ⊢
    exact parseWithEnd_before read (by decide) text behind

theorem params_read (ps : List Param) (args : List (Text × Json)) (envelope : Bool) {fuel : Nat}
    (enough : ps.length < fuel) {t : Text} (clean : 0 ∉ t) :
    dsmlParameters fuel args envelope (st.params ps ++ t) =
      (collect args envelope (ps.map Param.member)).map fun found => (found, t) := by
  induction ps generalizing args envelope fuel with
  | nil =>
    obtain ⟨fuel, rfl⟩ : ∃ f, fuel = f + 1 := ⟨fuel - 1, by simp at enough; omega⟩
    rw [dsmlParameters, Style.params, List.append_assoc, read_closing st st.blank isKind_invoke]
    simp only
    rw [if_pos (by decide)]
    rfl
  | cons p ps ih =>
    rw [List.length_cons] at enough
    obtain ⟨fuel, rfl⟩ : ∃ f, fuel = f + 1 := ⟨fuel - 1, by omega⟩
    have later : 0 ∉ st.params ps ++ t := by
      rw [List.mem_append, not_or]
      exact ⟨clean_params st ps, clean⟩
    obtain ⟨spaces, blank, valued⟩ := @read_payload st p.name.bytes p.payload _ later
    have shape : st.params (p :: ps) ++ t = st.gap ++ (st.opening (ascii "parameter")
        (st.name p.name ++ st.isString p.payload.isString) ++
          (p.payload.source ++ (st.closing (ascii "parameter") ++ (st.params ps ++ t)))) := by
      simp only [Style.params, Style.param, List.append_assoc]
    rw [dsmlParameters, shape, read_parameter st st.blank]
    simp only
    rw [if_neg (by simp [closesWith]), if_neg p.name.opens, List.map_cons, Param.member, collect_cons, valued]
    simp only
    rw [read_closing st blank isKind_parameter]
    simp only
    have below : ps.length < fuel := by omega
    by_cases taken : envelope = true ∨ ((Json.object args).get? p.name.bytes).isSome = true
    · rw [if_pos taken, if_pos taken]
      rfl
    · rw [if_neg taken, if_neg (by decide), if_neg taken]
      cases p.payload.value with
      | object members =>
        simp only
        by_cases isArgs : p.name.bytes = ascii "args" ∨ p.name.bytes = ascii "arguments"
        · rw [if_pos isArgs, if_pos isArgs]
          by_cases first : args ≠ []
          · rw [if_pos first, if_pos first]
            rfl
          · rw [if_neg first, if_neg first]
            exact ih _ _ below
        · rw [if_neg isArgs, if_neg isArgs]
          exact ih _ _ below
      | _ => exact ih _ _ below

theorem length_params (ps : List Param) : ps.length ≤ (st.params ps).length := by
  induction ps with
  | nil => exact Nat.zero_le _
  | cons p ps ih =>
    simp only [Style.params, Style.param, Style.opening, List.length_append, List.length_cons]
    omega

theorem length_calls (cs : List Call) : cs.length ≤ (st.calls cs).length := by
  induction cs with
  | nil => exact Nat.zero_le _
  | cons c cs ih =>
    simp only [Style.calls, Style.call, Style.opening, List.length_append, List.length_cons]
    omega

theorem calls_read (cs : List Call) {fuel : Nat} (enough : cs.length < fuel) {t : Text} (clean : 0 ∉ t) :
    dsmlInvokes st.outer fuel (st.calls cs ++ t) = (cs.mapM Call.action).map fun actions => (actions, t) := by
  induction cs generalizing fuel with
  | nil =>
    obtain ⟨fuel, rfl⟩ : ∃ f, fuel = f + 1 := ⟨fuel - 1, by simp at enough; omega⟩
    rw [dsmlInvokes, Style.calls, List.append_assoc, read_closing st st.blank st.isKind_outer]
    simp only
    rw [if_pos (by simp [closesWith])]
    rfl
  | cons c cs ih =>
    rw [List.length_cons] at enough
    obtain ⟨fuel, rfl⟩ : ∃ f, fuel = f + 1 := ⟨fuel - 1, by omega⟩
    have later : 0 ∉ st.calls cs ++ t := by
      rw [List.mem_append, not_or]
      exact ⟨clean_calls st cs, clean⟩
    have shape : st.calls (c :: cs) ++ t = st.gap ++ (st.opening (ascii "invoke") (st.name c.tool) ++
        (st.params c.params ++ (st.calls cs ++ t))) := by
      simp only [Style.calls, Style.call, List.append_assoc]
    rw [dsmlInvokes, shape, read_invoke st st.blank]
    simp only
    have longer := length_params st c.params
    rw [if_neg (by simp [closesWith]), if_neg c.tool.opens,
      params_read st c.params [] false (by rw [List.length_append]; omega) later]
    rw [List.mapM_cons, Call.action]
    cases collect [] false (c.params.map Param.member) with
    | none => rfl
    | some args =>
      simp only [Option.map_some]
      rw [ih (by omega)]
      cases cs.mapM Call.action <;> rfl

/-! ### Envelopes -/

theorem strstr_longer {needle s : Text} (found : (strstr needle s).isSome = true) (t : Text) :
    (strstr needle (s ++ t)).isSome = true := by
  induction s with
  | nil =>
    cases needle with
    | nil => cases t <;> rfl
    | cons b needle => cases found
  | cons c s ih =>
    rw [List.cons_append, strstr]
    rw [strstr] at found
    split
    · rfl
    · next other =>
      refine ih ?_
      rwa [if_neg] at found
      intro here
      obtain ⟨more, split⟩ := List.isPrefixOf_iff_prefix.mp here
      exact other (List.isPrefixOf_iff_prefix.mpr ⟨more ++ t, by rw [← List.append_assoc, split]; rfl⟩)

theorem mark_start : ∀ dsml ∈ dsmlPrefixes,
    ((60 :: wideBar).isPrefixOf (60 :: dsml) || (ascii "<|").isPrefixOf (60 :: dsml)) = true ∧
      (strstr (ascii "DSML") (60 :: dsml)).isSome = true := by
  decide

theorem isPrefixOf_longer {u s : Text} (front : u.isPrefixOf s = true) (t : Text) : u.isPrefixOf (s ++ t) = true := by
  rw [List.isPrefixOf_iff_prefix] at front ⊢
  exact front.trans (List.prefix_append _ _)

theorem dsmlStart_mark {dsml : Text} (known : dsml ∈ dsmlPrefixes) {t : Text} (clean : 0 ∉ 60 :: (dsml ++ t)) :
    dsmlStart (60 :: (dsml ++ t)) = 60 :: (dsml ++ t) := by
  have marked : startsDsml (60 :: (dsml ++ t)) = true := by
    rw [startsDsml, List.any_eq_true]
    exact ⟨dsml, known, List.isPrefixOf_iff_prefix.mpr ⟨t, rfl⟩⟩
  have code : codeEnd (60 :: (dsml ++ t)) = none := by
    unfold codeEnd
    simp
  have markup : nextToolMarkup (60 :: (dsml ++ t)) true = some (60 :: (dsml ++ t)) := by
    rw [nextToolMarkup, cstr_eq_self clean, nextMarkup, code]
    simp only
    rw [if_pos]
    rw [marked]
    simp
  unfold dsmlStart
  rw [dsmlSpace_cons (by decide)]
  simp only
  rw [if_neg (by simp [startsJson, isBracket]), markup]
  simp only
  rw [if_pos marked]

theorem parse_mark {dsml : Text} (known : dsml ∈ dsmlPrefixes) {t : Text} (clean : 0 ∉ 60 :: (dsml ++ t)) :
    parseDsmlToolCalls (60 :: (dsml ++ t)) =
      match dsmlTagRead (60 :: (dsml ++ t)) with
      | none => .invalid
      | some (tag, s) =>
        if tag.closing ∨ (tag.kind ≠ ascii "calls" ∧ tag.kind ≠ ascii "function_calls") then .invalid
        else
          match dsmlInvokes tag.kind (s.length + 1) s with
          | none => .invalid
          | some ([], _) => .invalid
          | some (actions, s) => if dsmlSpace s = [] then .batch actions else .invalid := by
  obtain ⟨bar, word⟩ := mark_start dsml known
  have shown : ((60 :: wideBar).isPrefixOf (60 :: dsml ++ t) || (ascii "<|").isPrefixOf (60 :: dsml ++ t)) = true := by
    rw [Bool.or_eq_true] at bar ⊢
    exact bar.imp (fun front => isPrefixOf_longer front t) fun front => isPrefixOf_longer front t
  have named : (strstr (ascii "DSML") (60 :: dsml ++ t)).isNone = false := by
    rw [← Option.not_isSome, strstr_longer word t]
    rfl
  rw [List.cons_append] at shown named
  unfold parseDsmlToolCalls
  rw [cstr_eq_self clean, dsmlStart_mark known clean]
  simp only
  rw [shown, named]
  rfl

theorem parse_render (cs : List Call) : parseDsmlToolCalls (st.render cs) =
    match cs.mapM Call.action with
    | none => .invalid
    | some [] => .invalid
    | some actions => .batch actions := by
  have shape : st.render cs = 60 :: (st.dsml ++ (st.outer ++ ([] ++ [62]) ++ st.calls cs)) := by
    simp [Style.render, Style.opening]
  have clean := clean_render st cs
  have known := st.isOuter
  have longer := length_calls st cs
  have calls := @calls_read st cs ((st.calls cs).length + 1) (by omega) [] (by simp)
  rw [List.append_nil] at calls
  rw [shape] at clean ⊢
  rw [parse_mark st.known clean, ← shape, Style.render, read_outer]
  simp only
  rw [if_neg, calls]
  · cases cs.mapM Call.action with
    | none => rfl
    | some actions => cases actions <;> rfl
  · rintro (no | ⟨other, other'⟩)
    · cases no
    · exact known.elim other other'

theorem mark_cut : ∀ dsml ∈ dsmlPrefixes, ∀ t ∈ (60 :: dsml).inits,
    (match parseDsmlToolCalls t with
      | .batch _ => true
      | _ => false) = false := by
  decide +kernel

theorem parse_cut {cs : List Call} {t : Text} (cut : t <+: st.render cs) (short : t ≠ st.render cs)
    (actions : List PlannedAction) : parseDsmlToolCalls t ≠ .batch actions := by
  intro parsed
  have front : 60 :: st.dsml <+: st.render cs := by
    refine ⟨st.outer ++ ([] ++ [62]) ++ st.calls cs, ?_⟩
    simp [Style.render, Style.opening]
  rcases List.prefix_or_prefix_of_prefix cut front with inside | ⟨body, rfl⟩
  · have none := mark_cut st.dsml st.known t (List.mem_inits _ _ |>.mpr inside)
    rw [parsed] at none
    cases none
  · obtain ⟨more, whole⟩ := cut
    have clean : 0 ∉ 60 :: st.dsml ++ body ++ more := by
      rw [whole]
      exact clean_render st cs
    rw [List.mem_append, not_or] at clean
    rw [List.cons_append, parse_mark st.known clean.1] at parsed
    split at parsed
    · cases parsed
    · next tag s read =>
      have again := dsmlTagRead_local read more
      rw [← List.cons_append, whole, Style.render, read_outer] at again
      obtain ⟨rfl, same⟩ := Prod.mk.inj (Option.some.inj again)
      split at parsed
      · cases parsed
      · split at parsed
        · cases parsed
        · cases parsed
        · next found rest _ reads =>
          have inner := not_mem_of_suffix (dsmlTagRead_suffix read) clean.1
          have longer := length_calls st cs
          have full := dsmlInvokes_local reads
            (show s.length + 1 ≤ (s ++ more).length + 1 by rw [List.length_append]; omega) inner clean.2
          have calls := @calls_read st cs ((s ++ more).length + 1) (by rw [← same]; omega) [] (by simp)
          rw [List.append_nil, same, full] at calls
          obtain ⟨found', -, pair⟩ := Option.map_eq_some_iff.mp calls.symm
          have ends : rest ++ more = [] := (Prod.mk.inj pair).2.symm
          obtain ⟨-, rfl⟩ := List.append_eq_nil_iff.mp ends
          rw [List.append_nil] at whole
          exact short whole

end

/-! ### Calls as they are given -/

/-- No parameter is an envelope of all arguments, and no name is there twice. -/
structure Call.Direct (c : Call) : Prop where
  distinct : (c.params.map fun p => p.name.bytes).Nodup
  direct : ∀ p ∈ c.params, p.name.bytes = ascii "args" ∨ p.name.bytes = ascii "arguments" →
    ∀ members, p.payload.value ≠ .object members

theorem collect_direct {params : List Param} (args : List (Text × Json))
    (distinct : (args.map Prod.fst ++ params.map fun p => p.name.bytes).Nodup)
    (direct : ∀ p ∈ params, p.name.bytes = ascii "args" ∨ p.name.bytes = ascii "arguments" →
      ∀ members, p.payload.value ≠ .object members) :
    collect args false (params.map Param.member) = some (.object (args ++ params.map Param.member)) := by
  induction params generalizing args with
  | nil => simp [collect]
  | cons p params ih =>
    have fresh : ¬ (false = true ∨ ((Json.object args).get? p.name.bytes).isSome = true) := by
      rintro (no | found)
      · cases no
      · rw [Json.get?, Option.isSome_map, List.find?_isSome] at found
        obtain ⟨member, inArgs, same⟩ := found
        have apart := (List.nodup_append.mp distinct).2.2 member.1 (List.mem_map_of_mem inArgs) p.name.bytes (by simp)
        exact apart (by simpa using same)
    have later : collect (args ++ [(p.name.bytes, p.payload.value)]) false (params.map Param.member) =
        some (.object (args ++ (p.name.bytes, p.payload.value) :: params.map Param.member)) := by
      rw [ih]
      · simp
      · simpa using distinct
      · exact fun q member => direct q (List.mem_cons_of_mem _ member)
    rw [List.map_cons, Param.member, collect_cons, if_neg fresh]
    cases value : p.payload.value with
    | object members =>
      have other := fun isArgs => direct p (by simp) isArgs members value
      rw [value] at later
      simp only
      rw [if_neg other]
      exact later
    | _ =>
      rw [value] at later
      exact later

def Call.given (c : Call) : PlannedAction :=
  { tool := c.tool.bytes, args := .object (c.params.map Param.member) }

theorem Call.Direct.action {c : Call} (direct : c.Direct) : c.action = some c.given := by
  rw [Call.action, collect_direct [] (by simpa using direct.distinct) direct.direct]
  rfl

theorem actions_given {cs : List Call} (direct : ∀ c ∈ cs, c.Direct) :
    cs.mapM Call.action = some (cs.map Call.given) := by
  induction cs with
  | nil => rfl
  | cons c cs ih =>
    rw [List.mapM_cons, (direct c (by simp)).action, ih fun d member => direct d (List.mem_cons_of_mem _ member)]
    rfl

theorem plain_strings {params : List Param} (strings : ∀ p ∈ params, p.payload.isString = true) :
    Json.PlainMembers 0 (params.map Param.member) := by
  induction params with
  | nil => exact .nil
  | cons p params ih =>
    refine .cons p.name.text ?_ (ih fun q member => strings q (List.mem_cons_of_mem _ member))
    have isString := strings p (by simp)
    cases value : p.payload with
    | string s free text => exact .string text
    | json source value spaces read blank text =>
      rw [value] at isString
      cases isString

def plainStyle : Style where
  dsml := ascii "|DSML|"
  outer := ascii "calls"
  quote := 34
  gap := [10]
  known := by decide
  isOuter := .inl rfl
  isQuote := .inl rfl
  blank := by simp [isSpace]

def write : Name where
  bytes := ascii "write"
  some_bytes := by decide
  fits := by decide
  unquoted := by decide
  text := by decide

def argsName : Name where
  bytes := ascii "args"
  some_bytes := by decide
  fits := by decide
  unquoted := by decide
  text := by decide

/-- A call with this for its `args`. -/
def oneCall (payload : Payload) : Call where
  tool := write
  params := [{ name := argsName, payload }]

def markup : Payload :=
  .string (ascii "<b>a</b>") (closingFree_of_none (by decide +kernel)) (by decide)

def emptyObject : Payload :=
  .json (ascii "\x7b\x7d") (.object []) [] rfl (by simp) (by decide)

end CognitiveOs.Cognition.Planner.Dsml
