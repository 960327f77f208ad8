import CognitiveOs.Cognition.Searches
import CognitiveOs.Infra.Spelled
import Mathlib.Algebra.BigOperators.Group.Multiset.Defs
import Mathlib.Data.Set.Countable

/-!
# Signatures of plans

`plan_action_signature`, `semantic_action_signature` and `observation_json_hash` of
`cognition/reasoning.c`: what they do not see of a call, and what they see. They are written once
over the operations they are built of, of which the code's are one instance.
-/

namespace CognitiveOs.Cognition

open Infra Json

structure Call where
  tool : Option Text
  argsJson : Option Text

def Call.planned (c : Call) : PlannedAction where
  tool := c.tool.getD []
  argsJson := c.argsJson.getD []
  args := Cjson.parse (c.argsJson.getD (ascii "\x7b\x7d"))

section Source

variable (number : Rat → Text)

def actionPart (a : PlannedAction) : UInt64 :=
  match a.args with
  | some args => hash64 a.tool ^^^ observationJsonHash number args
  | none => hash64 a.tool ^^^ hash64 a.argsJson

def planActionSignature (actions : List PlannedAction) : UInt64 :=
  if actions = [] then 0
  else
    let h := actions.foldl (fun h a => (h ^^^ actionPart number a) * 0x100000001b3)
      (0xcbf29ce484222325 ^^^ actions.length.toUInt64)
    if h = 0 then 1 else h

end Source

/-! ### The operations -/

/-- The operations of the signatures: hashes of texts and kinds that are put together in any order,
members in any order, items and calls in theirs. -/
structure Mixing (σ : Type) where
  text : Text → σ
  kind : UInt64 → σ
  xor : σ → σ → σ
  array : List σ → σ
  object : Multiset σ → σ
  single : σ → σ
  plan : List σ → σ
  comm : ∀ a b, xor a b = xor b a
  assoc : ∀ a b c, xor (xor a b) c = xor a (xor b c)
  cancel : ∀ a b, xor a (xor a b) = b

namespace Mixing

variable {σ : Type} (m : Mixing σ) (number : Rat → Text)

mutual

def json : Json → σ
  | .array items => m.array (jsonItems items)
  | .object members => m.object (jsonMembers members)
  | .null => m.xor (m.kind 5) (m.text (printScalar number .null))
  | .bool value => m.xor (m.kind ((Json.bool value).typeCode + 1)) (m.text (printScalar number (.bool value)))
  | .number value => m.xor (m.kind 9) (m.text (printScalar number (.number value)))
  | .string value => m.xor (m.kind 17) (m.text (printScalar number (.string value)))

def jsonItems : List Json → List σ
  | [] => []
  | item :: items => json item :: jsonItems items

def jsonMembers : List (Text × Json) → List σ
  | [] => []
  | (key, value) :: members => m.xor (json value) (m.text key) :: jsonMembers members

end

def part (a : PlannedAction) : σ :=
  match a.args with
  | some args => m.xor (m.text a.tool) (m.json number args)
  | none => m.xor (m.text a.tool) (m.text a.argsJson)

def planSignature (calls : List Call) : σ :=
  m.plan (calls.map fun c => m.part number c.planned)

end Mixing

def chained (h : UInt64) (parts : List UInt64) : UInt64 :=
  parts.foldl (fun h part => (h ^^^ part) * 0x100000001b3) h

instance mixed : RightCommutative fun h part : UInt64 => h + part * 0x9e3779b185ebca87 where
  right_comm h a b := by
    rw [UInt64.add_assoc, UInt64.add_assoc, UInt64.add_comm (a * _)]

def source : Mixing UInt64 where
  text := hash64
  kind := id
  xor := (· ^^^ ·)
  array := chained 33
  object := Multiset.foldl (fun h part => h + part * 0x9e3779b185ebca87) 65
  single h := if h = 0 then 1 else h
  plan parts :=
    if parts = [] then 0
    else
      let h := chained (0xcbf29ce484222325 ^^^ parts.length.toUInt64) parts
      if h = 0 then 1 else h
  comm := UInt64.xor_comm
  assoc := UInt64.xor_assoc
  cancel a b := by rw [← UInt64.xor_assoc, UInt64.xor_self, UInt64.zero_xor]

section

variable {number : Rat → Text}

mutual

theorem observationJsonHash_eq : ∀ json, observationJsonHash number json = source.json number json
  | .array items => by
    rw [observationJsonHash, Mixing.json]
    exact arrayHash_eq 33 items
  | .object members => by
    rw [observationJsonHash, Mixing.json]
    exact objectHash_eq 65 members
  | .null => by rw [observationJsonHash, Mixing.json]; rfl
  | .bool _ => by rw [observationJsonHash, Mixing.json]; rfl
  | .number _ => by rw [observationJsonHash, Mixing.json]; rfl
  | .string _ => by rw [observationJsonHash, Mixing.json]; rfl

theorem arrayHash_eq : ∀ h items, arrayHash number h items = chained h (source.jsonItems number items)
  | h, [] => by rw [arrayHash, Mixing.jsonItems]; rfl
  | h, item :: items => by
    rw [arrayHash, Mixing.jsonItems, arrayHash_eq _ items, observationJsonHash_eq item]
    rfl

theorem objectHash_eq : ∀ h members, objectHash number h members =
    (source.jsonMembers number members).foldl (fun h part => h + part * 0x9e3779b185ebca87) h
  | h, [] => by rw [objectHash, Mixing.jsonMembers]; rfl
  | h, (key, value) :: members => by
    rw [objectHash, Mixing.jsonMembers, objectHash_eq _ members, observationJsonHash_eq value]
    rfl

end

theorem actionPart_eq (a : PlannedAction) : actionPart number a = source.part number a := by
  unfold actionPart Mixing.part
  split
  · rw [observationJsonHash_eq]
    rfl
  · rfl

theorem semanticActionSignature_eq (a : PlannedAction) :
    semanticActionSignature number a = source.single (source.part number a) := by
  rw [← actionPart_eq]
  rfl

theorem planActionSignature_eq (calls : List Call) :
    planActionSignature number (calls.map Call.planned) = source.planSignature number calls := by
  have same : (fun (h : UInt64) (a : PlannedAction) => (h ^^^ actionPart number a) * 0x100000001b3) =
      fun h a => (h ^^^ source.part number a) * 0x100000001b3 := by
    funext h a
    rw [actionPart_eq]
  unfold planActionSignature Mixing.planSignature
  rw [same]
  simp only [source, chained, List.foldl_map, List.length_map, List.map_eq_nil_iff]

end

/-! ### What is not seen -/

section

variable (number : Rat → Text)

mutual

/-- The same value but for the order of members at any depth; scalars that are printed alike count
as one. -/
inductive Alike : Json → Json → Prop where
  | scalar {a b : Json} : Cjson.IsScalar a → Cjson.IsScalar b → a.typeCode = b.typeCode →
      printScalar number a = printScalar number b → Alike a b
  | array {items others : List Json} : AlikeItems items others → Alike (.array items) (.array others)
  | object {members middle others : List (Text × Json)} : AlikeMembers members middle → middle.Perm others →
      Alike (.object members) (.object others)

inductive AlikeItems : List Json → List Json → Prop where
  | nil : AlikeItems [] []
  | cons {item other : Json} {items others : List Json} : Alike item other → AlikeItems items others →
      AlikeItems (item :: items) (other :: others)

inductive AlikeMembers : List (Text × Json) → List (Text × Json) → Prop where
  | nil : AlikeMembers [] []
  | cons {key : Text} {value other : Json} {members others : List (Text × Json)} : Alike value other →
      AlikeMembers members others → AlikeMembers ((key, value) :: members) ((key, other) :: others)

end

def AlikeCall (c d : Call) : Prop :=
  c.planned.tool = d.planned.tool ∧
    match c.planned.args, d.planned.args with
    | some args, some others => Alike number args others
    | none, none => c.planned.argsJson = d.planned.argsJson
    | _, _ => False

end

/-- The arguments are written anew: their members in another order, other white space. -/
inductive Rewritten : Call → Call → Prop where
  | same (c : Call) : Rewritten c c
  | args {tool : Option Text} {s t : Text} {json other : Json} : Cjson.Writes s json → Cjson.Writes t other →
      Json.Same json other → Rewritten ⟨tool, some s⟩ ⟨tool, some t⟩

namespace Mixing

variable {σ : Type} (m : Mixing σ) {number : Rat → Text}

theorem jsonItems_eq (items : List Json) : m.jsonItems number items = items.map (m.json number) := by
  induction items with
  | nil => rw [jsonItems, List.map_nil]
  | cons item items ih => rw [jsonItems, List.map_cons, ih]

theorem jsonMembers_eq (members : List (Text × Json)) :
    m.jsonMembers number members = members.map fun member => m.xor (m.json number member.2) (m.text member.1) := by
  induction members with
  | nil => rw [jsonMembers, List.map_nil]
  | cons member members ih =>
    obtain ⟨key, value⟩ := member
    rw [jsonMembers, List.map_cons, ih]

theorem json_same {json other : Json} (same : Json.Same json other) : m.json number json = m.json number other := by
  induction same with
  | refl json => rfl
  | trans _ _ first second => exact first.trans second
  | order perm =>
    rw [Mixing.json, Mixing.json, jsonMembers_eq, jsonMembers_eq]
    exact congrArg m.object (Multiset.coe_eq_coe.mpr (perm.map _))
  | member _ ih =>
    rw [Mixing.json, Mixing.json, jsonMembers_eq, jsonMembers_eq, List.map_append, List.map_append, List.map_cons,
      List.map_cons, ih]
  | item _ ih =>
    rw [Mixing.json, Mixing.json, jsonItems_eq, jsonItems_eq, List.map_append, List.map_append, List.map_cons,
      List.map_cons, ih]

theorem part_rewritten {c d : Call} (rewritten : Rewritten c d) :
    m.part number c.planned = m.part number d.planned := by
  cases rewritten with
  | same => rfl
  | @args tool s t json other written written' same =>
    have read : Cjson.parse s = some json := written.parse_eq
    have read' : Cjson.parse t = some other := written'.parse_eq
    simp only [part, Call.planned, Option.getD_some, read, read', m.json_same same]

theorem planSignature_rewritten {calls others : List Call} (rewritten : List.Forall₂ Rewritten calls others) :
    m.planSignature number calls = m.planSignature number others := by
  have parts : calls.map (fun c => m.part number c.planned) = others.map fun c => m.part number c.planned := by
    induction rewritten with
    | nil => rfl
    | cons first _ ih => rw [List.map_cons, List.map_cons, m.part_rewritten first, ih]
  rw [planSignature, planSignature, parts]

end Mixing

/-! ### What is seen -/

def FedAlike (number : Rat → Text) (calls others : List Call) : Prop :=
  ∀ (σ : Type) (m : Mixing σ), m.planSignature number calls = m.planSignature number others

section Named

variable (number : Rat → Text) (name : Text → Prop)

mutual

def NamedJson : Json → Prop
  | .array items => NamedItems items
  | .object members => NamedMembers members
  | .null => ¬ name (printScalar number .null)
  | .bool value => ¬ name (printScalar number (.bool value))
  | .number value => ¬ name (printScalar number (.number value))
  | .string value => ¬ name (printScalar number (.string value))

def NamedItems : List Json → Prop
  | [] => True
  | item :: items => NamedJson item ∧ NamedItems items

def NamedMembers : List (Text × Json) → Prop
  | [] => True
  | (key, value) :: members => name key ∧ NamedJson value ∧ NamedMembers members

end

def NamedCall (c : Call) : Prop :=
  name c.planned.tool ∧
    match c.planned.args with
    | some args => NamedJson number name args
    | none => ¬ name c.planned.argsJson

end Named

/-- What is put together without an order. -/
abbrev Atom :=
  List Nat ⊕ Nat ⊕ List (Finset Nat) ⊕ Multiset (Finset Nat) ⊕ List (Finset Nat)

def free (code : Atom → Nat) : Mixing (Finset Nat) where
  text t := {code (.inl (t.map UInt8.toNat))}
  kind k := {code (.inr (.inl k.toNat))}
  xor := symmDiff
  array parts := {code (.inr (.inr (.inl parts)))}
  object parts := {code (.inr (.inr (.inr (.inl parts))))}
  single := id
  plan parts := {code (.inr (.inr (.inr (.inr parts))))}
  comm := symmDiff_comm
  assoc := symmDiff_assoc
  cancel := symmDiff_symmDiff_cancel_left

section Free

variable {code : Atom → Nat} (injective : Function.Injective code) {number : Rat → Text} {name : Text → Prop}

include injective

variable {s t : Text}

theorem text_inj (same : code (.inl (s.map UInt8.toNat)) = code (.inl (t.map UInt8.toNat))) : s = t :=
  List.map_injective_iff.mpr (fun _ _ => UInt8.toNat_inj.mp) (Sum.inl.inj (injective same))

variable {json : Json}

theorem text_not_mem (named : NamedJson number name json) (isName : name t) :
    code (.inl (t.map UInt8.toNat)) ∉ (free code).json number json := by
  have scalar : ∀ (k : UInt64) (printed : Text), ¬ name printed →
      code (.inl (t.map UInt8.toNat)) ∉ (free code).xor ((free code).kind k) ((free code).text printed) := by
    intro k printed none member
    rcases Finset.mem_symmDiff.mp member with ⟨kind, -⟩ | ⟨text, -⟩
    · exact absurd (injective (Finset.mem_singleton.mp kind)) Sum.inl_ne_inr
    · exact none (text_inj injective (Finset.mem_singleton.mp text) ▸ isName)
  cases json with
  | array items =>
    rw [Mixing.json]
    intro member
    exact absurd (injective (Finset.mem_singleton.mp member)) Sum.inl_ne_inr
  | object members =>
    rw [Mixing.json]
    intro member
    exact absurd (injective (Finset.mem_singleton.mp member)) Sum.inl_ne_inr
  | null =>
    rw [Mixing.json]
    exact scalar _ _ (by rwa [NamedJson] at named)
  | bool value =>
    rw [Mixing.json]
    exact scalar _ _ (by rwa [NamedJson] at named)
  | number value =>
    rw [Mixing.json]
    exact scalar _ _ (by rwa [NamedJson] at named)
  | string value =>
    rw [Mixing.json]
    exact scalar _ _ (by rwa [NamedJson] at named)

theorem split_named {a b : Finset Nat} (first : code (.inl (s.map UInt8.toNat)) ∉ a)
    (second : code (.inl (s.map UInt8.toNat)) ∉ b)
    (same : (free code).xor a ((free code).text s) = (free code).xor b ((free code).text t)) : s = t ∧ a = b := by
  have member : code (.inl (s.map UInt8.toNat)) ∈ (free code).xor b ((free code).text t) := by
    rw [← same]
    exact Finset.mem_symmDiff.mpr (.inr ⟨Finset.mem_singleton_self _, first⟩)
  rcases Finset.mem_symmDiff.mp member with ⟨inside, -⟩ | ⟨text, -⟩
  · exact absurd inside second
  · obtain rfl := text_inj injective (Finset.mem_singleton.mp text)
    exact ⟨rfl, symmDiff_left_injective _ same⟩

omit injective in
theorem json_scalar {σ : Type} (m : Mixing σ) (scalar : Cjson.IsScalar json) :
    m.json number json = m.xor (m.kind (json.typeCode + 1)) (m.text (printScalar number json)) := by
  cases json with
  | array items => exact absurd scalar id
  | object members => exact absurd scalar id
  | null => rw [Mixing.json]; rfl
  | bool value => rw [Mixing.json]
  | number value => rw [Mixing.json]; rfl
  | string value => rw [Mixing.json]; rfl

theorem kind_mem {k : UInt64} {t : Text} :
    code (.inr (.inl k.toNat)) ∈ (free code).xor ((free code).kind k) ((free code).text t) := by
  refine Finset.mem_symmDiff.mpr (.inl ⟨Finset.mem_singleton_self _, ?_⟩)
  intro text
  exact absurd (injective (Finset.mem_singleton.mp text)) Sum.inr_ne_inl

theorem text_mem {k : UInt64} {t : Text} :
    code (.inl (t.map UInt8.toNat)) ∈ (free code).xor ((free code).kind k) ((free code).text t) := by
  refine Finset.mem_symmDiff.mpr (.inr ⟨Finset.mem_singleton_self _, ?_⟩)
  intro kind
  exact absurd (injective (Finset.mem_singleton.mp kind)) Sum.inl_ne_inr

theorem scalar_inj {k l : UInt64} (same : (free code).xor ((free code).kind k) ((free code).text s) =
      (free code).xor ((free code).kind l) ((free code).text t)) : k = l ∧ s = t := by
  have kind := @kind_mem _ injective k s
  have text := @text_mem _ injective k s
  rw [same] at kind text
  constructor
  · rcases Finset.mem_symmDiff.mp kind with ⟨here, -⟩ | ⟨here, -⟩
    · exact UInt64.toNat_inj.mp (Sum.inl.inj (Sum.inr.inj (injective (Finset.mem_singleton.mp here))))
    · exact absurd (injective (Finset.mem_singleton.mp here)) Sum.inr_ne_inl
  · rcases Finset.mem_symmDiff.mp text with ⟨here, -⟩ | ⟨here, -⟩
    · exact absurd (injective (Finset.mem_singleton.mp here)) Sum.inl_ne_inr
    · exact text_inj injective (Finset.mem_singleton.mp here)

theorem scalar_alone (scalar : Cjson.IsScalar json) {atom : Atom} (other : ∀ k, atom ≠ .inr (.inl k)) :
    (free code).json number json ≠ {code atom} := by
  intro same
  have kind := @kind_mem _ injective (json.typeCode + 1) (printScalar number json)
  rw [← json_scalar _ scalar, same] at kind
  exact other _ (injective (Finset.mem_singleton.mp kind)).symm

omit injective in
theorem scalar_or (json : Json) :
    Cjson.IsScalar json ∨ (∃ items, json = .array items) ∨ ∃ members, json = .object members := by
  cases json with
  | array items => exact .inr (.inl ⟨items, rfl⟩)
  | object members => exact .inr (.inr ⟨members, rfl⟩)
  | _ => exact .inl trivial

variable {other : Json}

theorem array_inv {items : List Json} (same : (free code).json number (.array items) = (free code).json number other) :
    ∃ others, other = .array others ∧ (free code).jsonItems number items = (free code).jsonItems number others := by
  rw [Mixing.json] at same
  rcases scalar_or other with scalar | ⟨others, rfl⟩ | ⟨members, rfl⟩
  · exact absurd same.symm (scalar_alone injective scalar (by simp))
  · rw [Mixing.json] at same
    exact ⟨others, rfl, by simpa using injective (Finset.singleton_injective same)⟩
  · rw [Mixing.json] at same
    exact absurd (injective (Finset.singleton_injective same)) (by simp)

theorem object_inv {members : List (Text × Json)}
    (same : (free code).json number (.object members) = (free code).json number other) :
    ∃ others, other = .object others ∧
      ((free code).jsonMembers number members).Perm ((free code).jsonMembers number others) := by
  rw [Mixing.json] at same
  rcases scalar_or other with scalar | ⟨items, rfl⟩ | ⟨others, rfl⟩
  · exact absurd same.symm (scalar_alone injective scalar (by simp))
  · rw [Mixing.json] at same
    exact absurd (injective (Finset.singleton_injective same)) (by simp)
  · rw [Mixing.json] at same
    exact ⟨others, rfl, by simpa using injective (Finset.singleton_injective same)⟩

theorem scalar_inv (scalar : Cjson.IsScalar json)
    (same : (free code).json number json = (free code).json number other) : Alike number json other := by
  rcases scalar_or other with scalar' | ⟨items, rfl⟩ | ⟨others, rfl⟩
  · rw [json_scalar _ scalar, json_scalar _ scalar'] at same
    obtain ⟨kind, text⟩ := scalar_inj injective same
    exact .scalar scalar scalar' (UInt64.add_left_inj _ |>.mp kind) text
  · rw [Mixing.json.eq_1] at same
    exact absurd same (scalar_alone injective scalar (by simp))
  · rw [Mixing.json.eq_2] at same
    exact absurd same (scalar_alone injective scalar (by simp))

omit injective in
theorem namedMembers_iff {members : List (Text × Json)} :
    NamedMembers number name members ↔ ∀ member ∈ members, name member.1 ∧ NamedJson number name member.2 := by
  induction members with
  | nil => simp [NamedMembers]
  | cons member members ih =>
    obtain ⟨key, value⟩ := member
    rw [NamedMembers, ih, List.forall_mem_cons, and_assoc]

mutual

theorem alike_of_json : ∀ (json : Json) {other : Json}, NamedJson number name json → NamedJson number name other →
    (free code).json number json = (free code).json number other → Alike number json other
  | .array items, other, named, named', same => by
    obtain ⟨others, rfl, parts⟩ := array_inv injective same
    rw [NamedJson] at named named'
    exact .array (alike_of_items items named named' parts)
  | .object members, other, named, named', same => by
    obtain ⟨others, rfl, parts⟩ := object_inv injective same
    rw [NamedJson] at named named'
    obtain ⟨middle, alike, perm⟩ := alike_of_members members named named' parts
    exact .object alike perm
  | .null, _, _, _, same => scalar_inv injective trivial same
  | .bool _, _, _, _, same => scalar_inv injective trivial same
  | .number _, _, _, _, same => scalar_inv injective trivial same
  | .string _, _, _, _, same => scalar_inv injective trivial same

theorem alike_of_items : ∀ (items : List Json) {others : List Json}, NamedItems number name items →
    NamedItems number name others → (free code).jsonItems number items = (free code).jsonItems number others →
    AlikeItems number items others
  | [], others, _, _, same => by
    cases others with
    | nil => exact .nil
    | cons other others =>
      rw [Mixing.jsonItems, Mixing.jsonItems] at same
      cases same
  | item :: items, others, named, named', same => by
    cases others with
    | nil =>
      rw [Mixing.jsonItems, Mixing.jsonItems] at same
      cases same
    | cons other others =>
      rw [Mixing.jsonItems, Mixing.jsonItems, List.cons.injEq] at same
      rw [NamedItems] at named named'
      exact .cons (alike_of_json item named.1 named'.1 same.1) (alike_of_items items named.2 named'.2 same.2)

theorem alike_of_members : ∀ (members : List (Text × Json)) {others : List (Text × Json)},
    NamedMembers number name members → NamedMembers number name others →
    ((free code).jsonMembers number members).Perm ((free code).jsonMembers number others) →
    ∃ middle, AlikeMembers number members middle ∧ middle.Perm others
  | [], others, _, _, same => by
    rw [Mixing.jsonMembers_eq, Mixing.jsonMembers_eq, List.map_nil] at same
    have none := List.map_eq_nil_iff.mp same.symm.eq_nil
    exact ⟨[], .nil, none ▸ .nil⟩
  | (key, value) :: members, others, named, named', same => by
    rw [NamedMembers] at named
    rw [Mixing.jsonMembers, Mixing.jsonMembers_eq _ others] at same
    -- the part of the first member is the part of one of the others
    obtain ⟨⟨key', other⟩, member, part⟩ := List.mem_map.mp (same.mem_iff.mp List.mem_cons_self)
    obtain ⟨before, after, rfl⟩ := List.append_of_mem member
    have each := namedMembers_iff.mp named'
    obtain ⟨isName, namedOther⟩ := each _ member
    obtain ⟨rfl, values⟩ := split_named injective (text_not_mem injective namedOther isName)
      (text_not_mem injective named.2.1 isName) part
    have rest : ((free code).jsonMembers number members).Perm ((free code).jsonMembers number (before ++ after)) := by
      rw [List.map_append, List.map_cons, part] at same
      rw [Mixing.jsonMembers_eq _ (before ++ after), List.map_append]
      exact (same.trans List.perm_middle).cons_inv
    have namedRest : NamedMembers number name (before ++ after) := by
      refine namedMembers_iff.mpr fun member inside => each member ?_
      rcases List.mem_append.mp inside with first | second
      · exact List.mem_append_left _ first
      · exact List.mem_append_right _ (List.mem_cons_of_mem _ second)
    obtain ⟨middle, alike, perm⟩ := alike_of_members members named.2.2 namedRest rest
    exact ⟨(key', other) :: middle, .cons (alike_of_json value named.2.1 namedOther values.symm) alike,
      (perm.cons _).trans List.perm_middle.symm⟩

end

theorem text_ne {u : Text} (isName : name t) (none : ¬ name u) :
    code (.inl (t.map UInt8.toNat)) ∉ (free code).text u := by
  intro member
  exact none (text_inj injective (Finset.mem_singleton.mp member) ▸ isName)

theorem json_ne_text (json : Json) (t : Text) : (free code).json number json ≠ (free code).text t := by
  rcases @scalar_or json with scalar | ⟨items, rfl⟩ | ⟨members, rfl⟩
  · exact scalar_alone injective scalar (by simp)
  · intro same
    rw [Mixing.json] at same
    exact absurd (injective (Finset.singleton_injective same)) Sum.inr_ne_inl
  · intro same
    rw [Mixing.json] at same
    exact absurd (injective (Finset.singleton_injective same)) Sum.inr_ne_inl

theorem alike_of_part {c d : Call} (named : NamedCall number name c) (named' : NamedCall number name d)
    (same : (free code).part number c.planned = (free code).part number d.planned) : AlikeCall number c d := by
  obtain ⟨tool, rest⟩ := named
  obtain ⟨-, rest'⟩ := named'
  unfold Mixing.part at same
  unfold AlikeCall
  cases args : c.planned.args with
  | some json =>
    cases args' : d.planned.args with
    | some other =>
      simp only [args, args'] at rest rest' same ⊢
      rw [(free code).comm, (free code).comm ((free code).text d.planned.tool)] at same
      obtain ⟨equal, values⟩ := split_named injective (text_not_mem injective rest tool)
        (text_not_mem injective rest' tool) same
      exact ⟨equal, alike_of_json injective json rest rest' values⟩
    | none =>
      simp only [args, args'] at rest rest' same ⊢
      rw [(free code).comm, (free code).comm ((free code).text d.planned.tool)] at same
      obtain ⟨-, values⟩ := split_named injective (text_not_mem injective rest tool) (text_ne injective tool rest') same
      exact absurd values (json_ne_text injective json _)
  | none =>
    cases args' : d.planned.args with
    | some other =>
      simp only [args, args'] at rest rest' same ⊢
      rw [(free code).comm, (free code).comm ((free code).text d.planned.tool)] at same
      obtain ⟨-, values⟩ := split_named injective (text_ne injective tool rest) (text_not_mem injective rest' tool) same
      exact absurd values.symm (json_ne_text injective other _)
    | none =>
      simp only [args, args'] at rest rest' same ⊢
      rw [(free code).comm, (free code).comm ((free code).text d.planned.tool)] at same
      obtain ⟨equal, values⟩ := split_named injective (text_ne injective tool rest) (text_ne injective tool rest') same
      exact ⟨equal, text_inj injective (Finset.singleton_injective values)⟩

end Free

theorem alike_of_fedAlike {number : Rat → Text} {name : Text → Prop} {calls others : List Call}
    (named : ∀ c ∈ calls ++ others, NamedCall number name c) (fed : FedAlike number calls others) :
    List.Forall₂ (AlikeCall number) calls others := by
  obtain ⟨code, injective⟩ := exists_injective_nat Atom
  have same := fed _ (free code)
  have parts : calls.map (fun c => (free code).part number c.planned) =
      others.map fun c => (free code).part number c.planned := by
    simpa using injective (Finset.singleton_injective same)
  clear same fed
  induction calls generalizing others with
  | nil =>
    rw [List.map_nil] at parts
    rw [List.map_eq_nil_iff.mp parts.symm]
    exact .nil
  | cons c calls ih =>
    cases others with
    | nil => cases parts
    | cons d others =>
      rw [List.map_cons, List.map_cons, List.cons.injEq] at parts
      refine .cons (alike_of_part injective (named c (by simp)) (named d (by simp)) parts.1) (ih ?_ parts.2)
      intro e member
      rcases List.mem_append.mp member with first | second
      · exact named e (List.mem_append_left _ (List.mem_cons_of_mem _ first))
      · exact named e (List.mem_append_right _ (List.mem_cons_of_mem _ second))

/-- Representation is not seen; of what is printed everything is, if names can be told from it. -/
theorem signatures_ignore_representation (number : Rat → Text) :
    (∀ json other, Json.Same json other → observationJsonHash number json = observationJsonHash number other) ∧
    (∀ c d, Rewritten c d →
      semanticActionSignature number c.planned = semanticActionSignature number d.planned) ∧
    (∀ calls others, List.Forall₂ Rewritten calls others →
      planActionSignature number (calls.map Call.planned) = planActionSignature number (others.map Call.planned)) ∧
    (∀ calls, planActionSignature number (calls.map Call.planned) = source.planSignature number calls) ∧
    ∀ (name : Text → Prop) (calls others : List Call), (∀ c ∈ calls ++ others, NamedCall number name c) →
      FedAlike number calls others → List.Forall₂ (AlikeCall number) calls others := by
  refine ⟨?_, ?_, ?_, fun calls => planActionSignature_eq calls, fun name calls others => alike_of_fedAlike⟩
  · intro json other same
    rw [observationJsonHash_eq, observationJsonHash_eq, source.json_same same]
  · intro c d rewritten
    rw [semanticActionSignature_eq, semanticActionSignature_eq, source.part_rewritten rewritten]
  · intro calls others rewritten
    rw [planActionSignature_eq, planActionSignature_eq, source.planSignature_rewritten rewritten]

def pairText (white : Text) (k n : Nat) : Text :=
  123 :: ((white ++ (printString (decimal k) ++ ([] ++ 58 :: ([] ++ (decimal n ++ []))))) ++ [125])

theorem writes_pairText {white : Text} (blank : Grammar.White white) (k n : Nat) :
    Cjson.Writes (pairText white k n) (.object [(decimal k, .number n)]) := by
  have clean : 0 ∉ decimal k := fun zero => absurd (isDigit_decimal zero) (by decide)
  have names : Cjson.Names (printString (decimal k)) (decimal k) :=
    ⟨(Cjson.printString_clean _).1, fun rest => Cjson.parseString_print clean rest⟩
  have shows := (Cjson.numeral_decimal n).shows
  rw [Cjson.strtod_decimal] at shows
  have none : Grammar.White [] := fun c member => absurd member List.not_mem_nil
  refine ⟨1, [], pairText white k n, [], by decide, none, ?_, none, by simp⟩
  exact .object (.one blank names none none (.scalar trivial shows) none)

/-- One call of a tool `t`. -/
def pairCall (white : Text) (k n : Nat) : Call :=
  ⟨some [116], some (pairText white k n)⟩

theorem planned_pairCall {white : Text} (blank : Grammar.White white) (k n : Nat) :
    (pairCall white k n).planned.args = some (.object [(decimal k, .number n)]) :=
  (writes_pairText blank k n).parse_eq

/-- `{"1":2}` and `{"2":1}` are fed to the hash alike. -/
theorem signatures_swapped :
    FedAlike Cjson.integerText [pairCall [] 1 2] [pairCall [] 2 1] ∧
      planActionSignature Cjson.integerText [(pairCall [] 1 2).planned] =
        planActionSignature Cjson.integerText [(pairCall [] 2 1).planned] ∧
      ¬ List.Forall₂ (AlikeCall Cjson.integerText) [pairCall [] 1 2] [pairCall [] 2 1] := by
  have none : Grammar.White [] := fun c member => absurd member List.not_mem_nil
  have prints (n : Nat) (small : n < 10 ^ 15) : Cjson.integerText n = decimal n :=
    Cjson.printsIntegers_integerText.integers n small
  have fed : FedAlike Cjson.integerText [pairCall [] 1 2] [pairCall [] 2 1] := by
    intro σ m
    have swap (a b c : σ) : m.xor (m.xor a b) c = m.xor (m.xor a c) b := by
      rw [m.assoc, m.assoc, m.comm b c]
    simp only [Mixing.planSignature, Mixing.part, planned_pairCall none, List.map_cons, List.map_nil, Mixing.json,
      Mixing.jsonMembers, printScalar, prints 1 (by decide), prints 2 (by decide), swap _ (m.text (decimal 2))]
    rfl
  refine ⟨fed, ?_, ?_⟩
  · have same := fed _ source
    rwa [← planActionSignature_eq, ← planActionSignature_eq] at same
  · intro alike
    cases alike with
    | cons first _ =>
      obtain ⟨-, args⟩ := first
      simp only [planned_pairCall none] at args
      cases args with
      | scalar object => exact object
      | object members perm =>
        cases members with
        | cons _ rest =>
          cases rest with
          | nil =>
            have keys := congrArg (List.map Prod.fst) (List.perm_singleton.mp perm.symm)
            have differ : [decimal 2] ≠ [decimal 1] := by decide
            exact differ keys

theorem signatures_ignore_representation_spaced :
    planActionSignature Cjson.integerText [(pairCall [] 1 2).planned] =
      planActionSignature Cjson.integerText [(pairCall [32, 10] 1 2).planned] := by
  obtain ⟨-, -, plans, -, -⟩ := signatures_ignore_representation Cjson.integerText
  have none : Grammar.White [] := fun c member => absurd member List.not_mem_nil
  have blank : Grammar.White [32, 10] := by
    intro c member
    simp at member
    rcases member with rfl | rfl <;> rfl
  exact plans [pairCall [] 1 2] [pairCall [32, 10] 1 2]
    (.cons (.args (writes_pairText none 1 2) (writes_pairText blank 1 2) (.refl _)) .nil)

end CognitiveOs.Cognition
