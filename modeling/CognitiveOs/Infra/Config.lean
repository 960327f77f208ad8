import CognitiveOs.Infra.Numerals
import Mathlib.Data.List.Nodup

/-!
# The configuration

`infra/config.c`: a JSON object that is updated key by key, with overrides from the environment beside it.
-/

namespace CognitiveOs.ConfigStore

open Infra Infra.Json

/-- `struct config`: the members of the root, and the items before them where the root is an array. -/
structure Config where
  members : List (Text × Json) := []
  array : Option (List Json) := none
  env : List (Text × Json) := []

/-! ### The vendored library -/

def tolower (c : UInt8) : UInt8 :=
  if 65 ≤ c ∧ c ≤ 90 then c + 32 else c

/-- `case_insensitive_strcmp(a, b) == 0`. -/
def sameLetters (a b : Text) : Bool :=
  a.map tolower = b.map tolower

/-- `cJSON_DeleteItemFromObject`: the first member whose name is the same but for case. -/
def deleteItem (members : List (Text × Json)) (key : Text) : List (Text × Json) :=
  members.eraseP fun member => sameLetters key member.1

/-- `cJSON_AddItemToObject`. -/
def addItem (members : List (Text × Json)) (key : Text) (item : Json) : List (Text × Json) :=
  members ++ [(key, item)]

/-! ### Updates -/

def put (members : List (Text × Json)) (key : Text) (item : Json) : List (Text × Json) :=
  addItem (deleteItem members key) key item

/-- `config_apply_json`; the answer 0 is `true`. -/
def configApplyJson (c : Config) (text : Text) : Config × Bool :=
  match Cjson.parse text with
  | some (.object items) =>
    ({ c with members := items.foldl (fun members item => put members item.1 item.2) c.members }, true)
  | some (.array items) => ({ c with members := [], array := some items }, true)
  | _ => (c, false)

/-- `config_set_str`; without a value the key is deleted. -/
def configSetStr (c : Config) (key : Text) (value : Option Text) : Config :=
  if key = [] then c
  else
    match value with
    | some value => { c with members := put c.members key (.string value) }
    | none => { c with members := deleteItem c.members key }

def configSetInt (c : Config) (key : Text) (value : Int) : Config :=
  if key = [] then c else { c with members := put c.members key (.number (toDouble value)) }

/-! ### Lookups -/

/-- `cJSON_GetObjectItemCaseSensitive(c->root, key)`. -/
def Config.get? (c : Config) (key : Text) : Option Json :=
  if c.array.isSome then none else (Json.object c.members).get? key

def flatDouble : (j : Nat) → Text → Text
  | _, [] => []
  | j, b :: rest =>
    if j + 2 < 512 then (if b = 46 then 95 :: 95 :: flatDouble (j + 2) rest else b :: flatDouble (j + 1) rest) else []

def flatSingle (key : Text) : Text :=
  (key.take 511).map fun b => if b = 46 then 95 else b

/-- `config_get_path`: the environment, then the key, then the path that its dots spell. -/
def configGetPath (c : Config) (key : Text) : Option Json :=
  if c.array.isSome ∨ key = [] then none
  else
    let root := Json.object c.members
    let env := Json.object c.env
    ((env.get? (flatDouble 0 key)).or (env.get? (flatSingle key))).or <|
      (root.get? key).or (((snprintf 512 key).splitOn 46).foldlM (fun node segment => node.get? segment) root)

/-! ### Runs -/

inductive ConfigOp where
  | apply (text : Text)
  | setStr (key : Text) (value : Option Text)
  | setInt (key : Text) (value : Int)

def configStep (c : Config) : ConfigOp → Config
  | .apply text => (configApplyJson c text).1
  | .setStr key value => configSetStr c key value
  | .setInt key value => configSetInt c key value

def configRun (env : List (Text × Json)) (ops : List ConfigOp) : Config :=
  ops.foldl configStep { env }

/-! ### What an update is -/

/-- The keys that an update names, each with what it is to be from then on; `none` is a rejected update. -/
def named : ConfigOp → Option (List (Text × Option Json))
  | .apply text =>
    match Cjson.parse text with
    | some (.object items) => some (items.map fun item => (item.1, some item.2))
    | _ => none
  | .setStr key value => if key = [] then none else some [(key, value.map .string)]
  | .setInt key value => if key = [] then none else some [(key, some (.number value))]

def lastNamed (updates : List (Text × Option Json)) (key : Text) : Option (Option Json) :=
  (updates.reverse.find? fun update => update.1 = key).map Prod.snd

/-- Exactly the keys that are named change, to their last values, and no key is there twice. -/
structure Frame (c : Config) (op : ConfigOp) (c' : Config) : Prop where
  updated : ∀ updates, named op = some updates → ∀ key, c'.get? key = (lastNamed updates key).getD (c.get? key)
  rejected : named op = none → c' = c
  once : (c'.members.map Prod.fst).Nodup

/-- A named key differs from every other key, of the configuration and of the update, not only in case; a number is
a double; and the update is no array. -/
structure Apart (c : Config) (op : ConfigOp) : Prop where
  keys : ∀ updates, named op = some updates → ∀ update ∈ updates,
    ∀ key ∈ c.members.map Prod.fst ++ updates.map Prod.fst, sameLetters update.1 key = true → key = update.1
  number : ∀ key value, op = .setInt key value → key ≠ [] → toDouble value = value
  object : ∀ text items, op = .apply text → Cjson.parse text ≠ some (.array items)

/-! ### One member -/

variable {members : List (Text × Json)} {key : Text} {K : Text → Prop}

def keys (members : List (Text × Json)) : List Text :=
  members.map Prod.fst

def Distinct (K : Text → Prop) : Prop :=
  ∀ a b, K a → K b → sameLetters a b = true → b = a

structure Holds (K : Text → Prop) (members : List (Text × Json)) : Prop where
  keys : ∀ key ∈ keys members, K key
  once : (ConfigStore.keys members).Nodup

theorem sameLetters_self (a : Text) : sameLetters a a = true :=
  decide_eq_true rfl

theorem deleteItem_eq (distinct : Distinct K) (named : K key) (holds : Holds K members) :
    deleteItem members key = members.filter fun member => member.1 ≠ key := by
  obtain ⟨inside, once⟩ := holds
  induction members with
  | nil => rfl
  | cons member rest ih =>
    rw [keys, List.map_cons] at inside once
    obtain ⟨first, others⟩ := List.forall_mem_cons.mp inside
    obtain ⟨new, once⟩ := List.nodup_cons.mp once
    rw [deleteItem, List.eraseP_cons]
    by_cases same : member.1 = key
    · have gone : rest.filter (fun member => member.1 ≠ key) = rest := by
        rw [List.filter_eq_self]
        intro other member'
        refine decide_eq_true fun twice => new ?_
        rw [same, ← twice]
        exact List.mem_map_of_mem member'
      rw [same, sameLetters_self, cond_true, List.filter_cons_of_neg (by simp [same]), gone]
    · have apart : sameLetters key member.1 = false := by
        rw [← Bool.not_eq_true]
        exact fun letters => same (distinct key member.1 named first letters)
      rw [apart, cond_false, List.filter_cons_of_pos (by simpa using same)]
      exact congrArg _ (ih others once)

theorem get?_filter (members : List (Text × Json)) (key other : Text) :
    (Json.object (members.filter fun member => member.1 ≠ key)).get? other =
      if other = key then none else (Json.object members).get? other := by
  rw [Json.get?, Json.get?, List.find?_filter]
  split
  · rename_i same
    have none : ∀ member ∈ members, ¬ (decide (member.1 ≠ key ∧ decide (member.1 = other) = true)) = true := by
      simp [same]
    simpa using none
  · rename_i apart
    congr 2
    funext member
    by_cases is : member.1 = other <;> simp [is, apart]

theorem get?_append (members : List (Text × Json)) (key : Text) (item : Json) (other : Text) :
    (Json.object (members ++ [(key, item)])).get? other =
      ((Json.object members).get? other).or (if key = other then some item else none) := by
  rw [Json.get?, Json.get?, List.find?_append]
  cases members.find? fun member => member.1 = other with
  | some member => rfl
  | none => by_cases same : key = other <;> simp [same]

theorem Holds.delete (holds : Holds K members) (key : Text) :
    Holds K (members.filter fun member => member.1 ≠ key) where
  keys k inside := holds.keys k ((List.filter_sublist.map Prod.fst).subset inside)
  once := holds.once.sublist (List.filter_sublist.map Prod.fst)

theorem put_spec (distinct : Distinct K) (named : K key) (holds : Holds K members) (item : Json) :
    Holds K (put members key item) ∧
      ∀ other, (Json.object (put members key item)).get? other =
        if other = key then some item else (Json.object members).get? other := by
  have gone : key ∉ keys (members.filter fun member => member.1 ≠ key) := by
    simp [keys]
  rw [put, addItem, deleteItem_eq distinct named holds]
  refine ⟨⟨fun k inside => ?_, ?_⟩, fun other => ?_⟩
  · rw [keys, List.map_append] at inside
    rcases List.mem_append.mp inside with old | new
    · exact (holds.delete key).keys k old
    · rw [List.map_singleton, List.mem_singleton] at new
      exact new ▸ named
  · rw [keys, List.map_append, List.map_singleton]
    exact List.concat_eq_append ▸ (holds.delete key).once.concat gone
  · rw [get?_append, get?_filter]
    by_cases same : other = key
    · rw [if_pos same, if_pos same, if_pos same.symm, Option.none_or]
    · rw [if_neg same, if_neg same, if_neg (Ne.symm same), Option.or_none]

/-! ### Many members -/

theorem lastNamed_cons (update : Text × Option Json) (rest : List (Text × Option Json)) (key : Text) :
    lastNamed (update :: rest) key = (lastNamed rest key).or (if update.1 = key then some update.2 else none) := by
  rw [lastNamed, lastNamed, List.reverse_cons, List.find?_append]
  cases rest.reverse.find? fun update => update.1 = key with
  | some other => rfl
  | none => by_cases same : update.1 = key <;> simp [same]

theorem merge_spec (distinct : Distinct K) {items : List (Text × Json)} (named : ∀ item ∈ items, K item.1)
    (holds : Holds K members) :
    Holds K (items.foldl (fun members item => put members item.1 item.2) members) ∧
      ∀ key, (Json.object (items.foldl (fun members item => put members item.1 item.2) members)).get? key =
        (lastNamed (items.map fun item => (item.1, some item.2)) key).getD ((Json.object members).get? key) := by
  induction items generalizing members with
  | nil => exact ⟨holds, fun key => rfl⟩
  | cons item rest ih =>
    obtain ⟨first, others⟩ := List.forall_mem_cons.mp named
    obtain ⟨held, one⟩ := put_spec distinct first holds item.2
    obtain ⟨held', all⟩ := ih others held
    refine ⟨held', fun key => ?_⟩
    rw [List.foldl_cons, all key, one key, List.map_cons, lastNamed_cons]
    cases lastNamed (rest.map fun item => (item.1, some item.2)) key with
    | some value => rfl
    | none =>
      by_cases same : item.1 = key
      · simp [same]
      · simp [same, Ne.symm same]

/-! ### Steps -/

variable {c : Config} {op : ConfigOp}

structure Wf (c : Config) : Prop where
  object : c.array = none
  holds : Holds (fun key => key ∈ keys c.members) c.members
  distinct : Distinct fun key => key ∈ keys c.members

theorem Config.get?_of_object (object : c.array = none) (key : Text) :
    c.get? key = (Json.object c.members).get? key := by
  rw [Config.get?, object]
  rfl

theorem distinct_of_apart (wf : Wf c) (apart : Apart c op) {updates : List (Text × Option Json)}
    (is : named op = some updates) : Distinct fun key => key ∈ keys c.members ++ updates.map Prod.fst := by
  have later : ∀ a b, a ∈ updates.map Prod.fst → b ∈ keys c.members ++ updates.map Prod.fst →
      sameLetters a b = true → b = a := by
    intro a b first second letters
    obtain ⟨update, inside, rfl⟩ := List.mem_map.mp first
    exact apart.keys updates is update inside b second letters
  intro a b first second letters
  rcases List.mem_append.mp first with old | new
  · rcases List.mem_append.mp second with old' | new'
    · exact wf.distinct a b old old' letters
    · have turned : sameLetters b a = true := decide_eq_true (of_decide_eq_true letters).symm
      exact (later b a new' first turned).symm
  · exact later a b new second letters

theorem Wf.of_holds (object : c.array = none) (distinct : Distinct K) (holds : Holds K c.members) :
    Wf c where
  object := object
  holds := ⟨fun _ inside => inside, holds.once⟩
  distinct a b first second := distinct a b (holds.keys a first) (holds.keys b second)

theorem wf_new (env : List (Text × Json)) : Wf { env } where
  object := rfl
  holds := ⟨nofun, List.nodup_nil⟩
  distinct := nofun

theorem frame_rejected (wf : Wf c) (is : named op = none) : Wf c ∧ Frame c op c := by
  refine ⟨wf, fun updates some => ?_, fun _ => rfl, wf.holds.once⟩
  rw [is] at some
  cases some

theorem frame_one {c' : Config} {key : Text} {value : Option Json} (wf : Wf c) (distinct : Distinct K)
    (object : c'.array = none) (is : named op = some [(key, value)]) (holds : Holds K c'.members) (get : ∀ other,
      (Json.object c'.members).get? other = if other = key then value else (Json.object c.members).get? other) :
    Wf c' ∧ Frame c op c' := by
  refine ⟨.of_holds object distinct holds, fun updates some other => ?_, fun none => ?_, holds.once⟩
  · obtain rfl := Option.some.inj (is.symm.trans some)
    rw [Config.get?_of_object object, Config.get?_of_object wf.object, get, lastNamed_cons]
    by_cases same : other = key
    · simp [same, lastNamed]
    · simp [same, Ne.symm same, lastNamed]
  · rw [is] at none
    cases none

theorem Wf.within (wf : Wf c) {updates : List (Text × Option Json)} :
    Holds (fun key => key ∈ keys c.members ++ updates.map Prod.fst) c.members :=
  ⟨fun _ inside => List.mem_append_left _ inside, wf.holds.once⟩

theorem apply_spec {text : Text} (wf : Wf c) (apart : Apart c (.apply text)) :
    Wf (configStep c (.apply text)) ∧ Frame c (.apply text) (configStep c (.apply text)) := by
  cases read : Cjson.parse text with
  | none =>
    have same : configStep c (.apply text) = c := by simp [configStep, configApplyJson, read]
    exact same.symm ▸ frame_rejected wf (by simp [named, read])
  | some json =>
    have rejected (value : Json) (read : Cjson.parse text = some value) (scalar : ∀ items, value ≠ .array items)
        (plain : ∀ items, value ≠ .object items) :
        Wf (configStep c (.apply text)) ∧ Frame c (.apply text) (configStep c (.apply text)) := by
      have same : configStep c (.apply text) = c := by
        cases value <;> simp_all [configStep, configApplyJson]
      have none : named (.apply text) = none := by
        cases value <;> simp_all [named]
      exact same.symm ▸ frame_rejected wf none
    cases json with
    | array items => exact absurd read (apart.object text items rfl)
    | object items =>
      have is : named (.apply text) = some (items.map fun item => (item.1, some item.2)) := by simp [named, read]
      have distinct := distinct_of_apart wf apart is
      obtain ⟨held, get⟩ := merge_spec distinct
        (fun item inside => List.mem_append_right _ (by simpa using ⟨item.2, inside⟩)) wf.within
      have step : configStep c (.apply text) =
          { c with members := items.foldl (fun members item => put members item.1 item.2) c.members } := by
        simp only [configStep, configApplyJson, read]
      rw [step]
      refine ⟨.of_holds wf.object distinct held, fun updates some key => ?_, fun none => ?_, held.once⟩
      · obtain rfl := Option.some.inj (is.symm.trans some)
        rw [Config.get?_of_object (c := c) wf.object]
        exact Eq.trans (Config.get?_of_object (by exact wf.object) key) (get key)
      · rw [is] at none
        cases none
    | null | bool | number | string => exact rejected _ read nofun nofun

theorem setStr_spec {key : Text} {value : Option Text} (wf : Wf c) (apart : Apart c (.setStr key value)) :
    Wf (configStep c (.setStr key value)) ∧ Frame c (.setStr key value) (configStep c (.setStr key value)) := by
  by_cases empty : key = []
  · have same : configStep c (.setStr key value) = c := by simp [configStep, configSetStr, empty]
    exact same.symm ▸ frame_rejected wf (by simp [named, empty])
  · have is : named (.setStr key value) = some [(key, value.map .string)] := if_neg empty
    have distinct := distinct_of_apart wf apart is
    cases value with
    | some value =>
      obtain ⟨held, get⟩ := @put_spec _ key _ distinct (by simp) wf.within (.string value)
      rw [configStep, configSetStr, if_neg empty]
      exact frame_one wf distinct wf.object is held get
    | none =>
      have gone := @deleteItem_eq _ key _ distinct (by simp) wf.within
      rw [configStep, configSetStr, if_neg empty]
      simp only [gone]
      exact frame_one wf distinct wf.object is (wf.within.delete key) (get?_filter c.members key)

theorem step_spec (wf : Wf c) (apart : Apart c op) : Wf (configStep c op) ∧ Frame c op (configStep c op) := by
  cases op with
  | apply text => exact apply_spec wf apart
  | setStr key value => exact setStr_spec wf apart
  | setInt key value =>
    by_cases empty : key = []
    · have same : configStep c (.setInt key value) = c := by simp [configStep, configSetInt, empty]
      exact same.symm ▸ frame_rejected wf (by simp [named, empty])
    · have is : named (.setInt key value) = some [(key, some (.number value))] := if_neg empty
      have distinct := distinct_of_apart wf apart is
      obtain ⟨held, get⟩ := @put_spec _ key _ distinct (by simp) wf.within (.number value)
      rw [configStep, configSetInt, if_neg empty, apart.number key value rfl empty]
      exact frame_one wf distinct wf.object is held get

theorem configGetPath_eq {key : Text} (nonempty : key ≠ [])
    (double : (Json.object c.env).get? (flatDouble 0 key) = none)
    (single : (Json.object c.env).get? (flatSingle key) = none) {value : Json} (there : c.get? key = some value) :
    configGetPath c key = some value := by
  rw [Config.get?] at there
  split at there
  · cases there
  · rename_i object
    rw [configGetPath, if_neg (by simp [nonempty, object])]
    simp [double, single, there]

/-! ### Runs -/

variable {env : List (Text × Json)}

theorem configRun_append (before : List ConfigOp) (op : ConfigOp) :
    configRun env (before ++ [op]) = configStep (configRun env before) op := by
  rw [configRun, List.foldl_append]
  rfl

theorem wf_run {ops : List ConfigOp}
    (apart : ∀ before op after, ops = before ++ op :: after → Apart (configRun env before) op) :
    Wf (configRun env ops) := by
  induction ops using List.reverseRecOn with
  | nil => exact wf_new env
  | append_singleton before op ih =>
    rw [configRun_append]
    refine (step_spec (ih fun before' op' after split => ?_) (apart before op [] rfl)).1
    exact apart before' op' (after ++ [op]) (by rw [split]; simp)

/-- In a run whose updates name no key that differs from another only in case, every update changes exactly the keys
that it names. -/
theorem frame_run {ops : List ConfigOp}
    (apart : ∀ before op after, ops = before ++ op :: after → Apart (configRun env before) op) :
    ∀ before op after, ops = before ++ op :: after →
      Frame (configRun env before) op (configRun env (before ++ [op])) := by
  intro before op after split
  have wf : Wf (configRun env before) := by
    refine wf_run fun before' op' after' split' => apart before' op' (after' ++ op :: after) ?_
    rw [split, split', List.append_assoc]
    rfl
  rw [configRun_append]
  exact (step_spec wf (apart before op after split)).2

def setTwice : List ConfigOp :=
  [.setStr (ascii "a") (some (ascii "1")), .setStr (ascii "a") (some (ascii "2"))]

theorem apart_setStr {key : Text} {value : Option Text}
    (apart : ∀ k ∈ keys c.members, sameLetters key k = true → k = key) : Apart c (.setStr key value) where
  keys updates some update inside k member letters := by
    rw [named] at some
    split at some
    · cases some
    · cases some
      rw [List.mem_singleton.mp inside] at letters ⊢
      rcases List.mem_append.mp member with old | new
      · exact apart k old letters
      · simpa using new
  number := nofun
  object := nofun

theorem frame_run_setTwice :
    Frame (configRun [] [.setStr (ascii "a") (some (ascii "1"))]) (.setStr (ascii "a") (some (ascii "2")))
      (configRun [] setTwice) := by
  refine @frame_run _ setTwice ?_ [.setStr (ascii "a") (some (ascii "1"))] _ [] rfl
  intro before op after split
  match before, split with
  | [], split =>
    obtain ⟨rfl, rfl⟩ := List.cons.inj split
    exact apart_setStr (by decide)
  | [first], split =>
    obtain ⟨is, split⟩ := List.cons.inj split
    obtain ⟨rfl, -⟩ := List.cons.inj split
    rw [← is]
    exact apart_setStr (by decide)
  | first :: second :: before, split => simp [setTwice] at split

/-- A key that differs from another only in case deletes it. -/
theorem not_frame_case :
    ¬ Frame (configRun [] [.setStr (ascii "A") (some (ascii "1"))]) (.setStr (ascii "a") (some (ascii "2")))
      (configRun [] [.setStr (ascii "A") (some (ascii "1")), .setStr (ascii "a") (some (ascii "2"))]) := by
  intro frame
  have kept := frame.updated [(ascii "a", some (.string (ascii "2")))] rfl (ascii "A")
  have before : (configRun [] [.setStr (ascii "A") (some (ascii "1"))]).get? (ascii "A") =
      some (.string (ascii "1")) := rfl
  have after : (configRun [] [.setStr (ascii "A") (some (ascii "1")), .setStr (ascii "a") (some (ascii "2"))]).get?
      (ascii "A") = none := rfl
  have other : lastNamed [(ascii "a", some (.string (ascii "2")))] (ascii "A") = none := rfl
  rw [after, before, other] at kept
  cases kept

end CognitiveOs.ConfigStore
