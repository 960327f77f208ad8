import CognitiveOs.Foundation.Upsert
import CognitiveOs.Infra.Cjson

/-!
# Importing a state

`state_import` of `cognitive_os_agent.c` over `runtime/state_store.c` and `memory/kv.c`: two
documents within one file, of which the first goes to the state store and the second to the facts.
-/

namespace CognitiveOs.Runtime.StateImport

open Foundation.Upsert Infra

/-! ### The stores -/

/-- `ss_entry` -/
structure Entry where
  ns : Text
  key : Text
  val : Text
  deriving DecidableEq

def Entry.name (e : Entry) : Text × Text :=
  (e.ns, e.key)

abbrev Fact := Text × Text

/-- `ss_put` of a value. -/
def ssPut (items : List Entry) (e : Entry) : List Entry :=
  upsert Entry.name e items

/-- `memory_remember`, which is `kvstore_set` of a name that is not empty. -/
def memoryRemember (facts : List Fact) (fact : Fact) : List Fact :=
  if fact.1 = [] then facts else upsert Prod.fst fact facts

def stringMembers (members : List (Text × Json)) : List (Text × Text) :=
  members.filterMap fun member => member.2.string?.map fun value => (member.1, value)

def stateEntries (root : List (Text × Json)) : List Entry :=
  root.flatMap fun ns =>
    match ns.2 with
    | .object members => (stringMembers members).map fun member => { ns := ns.1, key := member.1, val := member.2 }
    | _ => []

/-- What `state_store_load_json` and `state_store_load` read, `none` for their answer -1. -/
def stateDocument (json : Text) : Option (List Entry) :=
  match Cjson.parse json with
  | some (.object root) => some (stateEntries root)
  | _ => none

def stateStoreLoadJson (items : List Entry) (json : Text) : Option (List Entry) :=
  (stateDocument json).map fun entries => entries.foldl ssPut items

/-! ### The import -/

structure Stores where
  state : List Entry
  facts : List Fact
  /-- What is in `state.json`, `none` when it cannot be read. -/
  file : Option Text

def stringMember (root : Json) (name : String) : Option Text :=
  (root.get? (ascii name)).bind Json.string?

/-- The second half of `state_import`; a document that is no object has no facts. -/
def importFacts (facts : List Fact) (json : Text) : Option (List Fact) :=
  match Cjson.parse json with
  | none => none
  | some (.object members) => some ((stringMembers members).foldl memoryRemember facts)
  | some _ => some facts

/-- `state_import` of a file with these bytes, and whether it answers 0. -/
def stateImport (r : Stores) (body : Option Text) : Stores × Bool :=
  match body.bind Cjson.parse with
  | some (.object members) =>
    let state :=
      match stringMember (.object members) "state" with
      | some json => stateStoreLoadJson r.state json
      | none => some r.state
    let facts :=
      match stringMember (.object members) "facts" with
      | some json => importFacts r.facts json
      | none => some r.facts
    ({ r with state := state.getD r.state, facts := facts.getD r.facts }, state.isSome && facts.isSome)
  | _ => (r, false)

/-- The next start of the process: `state_store_load` of the state file into an empty store. -/
def restarted (r : Stores) : List Entry :=
  ((r.file.bind stateDocument).getD []).foldl ssPut []

/-! ### All or nothing -/

section

variable {Item Key : Type*} [DecidableEq Key] (key : Item → Key)

def latest (document : List Item) (k : Key) : Option Item :=
  lookup key k document.reverse

def Merged (before document after : List Item) : Prop :=
  ∀ k, lookup key k after = (latest key document k).or (lookup key k before)

def Same (before after : List Item) : Prop :=
  ∀ k, lookup key k after = lookup key k before

def Present (before document : List Item) : Prop :=
  ∀ k item, latest key document k = some item → lookup key k before = some item

end

/-- The entries that a file exports, `none` when its document is not valid. -/
def stateOf (root : Json) : Option (List Entry) :=
  match stringMember root "state" with
  | some json => stateDocument json
  | none => some []

/-- The facts that a file exports, `none` when its document is not valid. -/
def factsOf (root : Json) : Option (List Fact) :=
  match stringMember root "facts" with
  | some json =>
    (Cjson.parse json).map fun document =>
      match document with
      | .object members => stringMembers members
      | _ => []
  | none => some []

def documents (body : Option Text) : Option (Option (List Entry) × Option (List Fact)) :=
  match body.bind Cjson.parse with
  | some (.object members) => some (stateOf (.object members), factsOf (.object members))
  | _ => none

def exportedEntries (body : Option Text) : List Entry :=
  ((documents body).bind Prod.fst).getD []

def exportedFacts (body : Option Text) : List Fact :=
  ((documents body).bind Prod.snd).getD []

/-- The import fails and changes nothing, or it succeeds, with all that the file exports, and a restart
keeps it. -/
structure AllOrNothing (r : Stores) (body : Option Text) : Prop where
  failed : (stateImport r body).2 = false →
    Same Entry.name r.state (stateImport r body).1.state ∧ Same Prod.fst r.facts (stateImport r body).1.facts
  succeeded : (stateImport r body).2 = true →
    Merged Entry.name r.state (exportedEntries body) (stateImport r body).1.state ∧
      Merged Prod.fst r.facts (exportedFacts body) (stateImport r body).1.facts ∧
      Merged Entry.name r.state (exportedEntries body) (restarted (stateImport r body).1)

def named (facts : List Fact) : List Fact :=
  facts.filter fun fact => fact.1 ≠ []

/-- When the import keeps its promise: of a file with one valid document, that document says nothing new; of a
file with two, the state file has the first already and is otherwise in step with the store, and the second
has no fact without a name. -/
def Harmless (r : Stores) (body : Option Text) : Prop :=
  match documents body with
  | none | some (none, none) => True
  | some (none, some facts) => Present Prod.fst r.facts (named facts)
  | some (some entries, none) => Present Entry.name r.state entries
  | some (some entries, some facts) =>
    Merged Entry.name r.state entries (restarted r) ∧
      ∀ fact, latest Prod.fst facts [] = some fact → lookup Prod.fst [] r.facts = some fact

/-! ### What is applied -/

section

variable {Item Key : Type*} [DecidableEq Key] {key : Item → Key}

theorem lookup_append (k : Key) (first later : List Item) :
    lookup key k (first ++ later) = (lookup key k first).or (lookup key k later) :=
  List.find?_append

theorem merged_foldl (document before : List Item) :
    Merged key before document (document.foldl (fun items item => upsert key item items) before) := by
  intro k
  induction document generalizing before with
  | nil => rfl
  | cons item document ih =>
    rw [List.foldl_cons, ih, latest, latest, List.reverse_cons, lookup_append, lookup_upsert, Option.or_assoc]
    congr 1
    have one : lookup key k [item] = if k = key item then some item else none := by
      rw [lookup_cons]
      exact if_congr eq_comm rfl rfl
    rw [one]
    split <;> rfl

theorem same_iff_present {before document after : List Item} (merged : Merged key before document after) :
    Same key before after ↔ Present key before document := by
  constructor
  · intro same k item found
    rw [← same k, merged k, found, Option.some_or]
  · intro present k
    rw [merged k]
    cases found : latest key document k with
    | none => rfl
    | some item =>
      rw [present k item found]
      rfl

end

theorem merged_ssPut (entries before : List Entry) : Merged Entry.name before entries (entries.foldl ssPut before) :=
  merged_foldl entries before

theorem merged_memoryRemember (facts before : List Fact) :
    Merged Prod.fst before (named facts) (facts.foldl memoryRemember before) := by
  have filtered (facts : List Fact) : facts.foldl memoryRemember before =
      (named facts).foldl (fun items fact => upsert Prod.fst fact items) before := by
    induction facts generalizing before with
    | nil => rfl
    | cons fact facts ih =>
      rw [List.foldl_cons, memoryRemember, named, List.filter_cons]
      split
      · rename_i empty
        rw [if_neg (by simp [empty])]
        exact ih before
      · rename_i some_name
        rw [if_pos (by simp [some_name])]
        exact ih _
  rw [filtered]
  exact merged_foldl (named facts) before

theorem latest_named {facts : List Fact} {k : Text} : latest Prod.fst (named facts) k =
    if k = [] then none else latest Prod.fst facts k := by
  rw [latest, latest, named, ← List.filter_reverse]
  generalize facts.reverse = items
  induction items with
  | nil => simp [lookup]
  | cons fact items ih =>
    rw [List.filter_cons, lookup_cons]
    split
    · rename_i some_name
      rw [lookup_cons, ih]
      rw [decide_eq_true_eq] at some_name
      split
      · rename_i here
        rw [if_neg (here ▸ some_name)]
      · rfl
    · rename_i empty
      rw [decide_eq_true_eq, not_not] at empty
      rw [ih]
      split
      · rfl
      · rename_i other
        rw [if_neg fun same => other (same.symm.trans empty)]

theorem merged_facts_iff (facts before : List Fact) :
    Merged Prod.fst before facts (facts.foldl memoryRemember before) ↔
      ∀ fact, latest Prod.fst facts [] = some fact → lookup Prod.fst [] before = some fact := by
  have merged := merged_memoryRemember facts before
  constructor
  · intro all fact found
    have own := all []
    rw [merged [], latest_named, if_pos rfl, found] at own
    exact own
  · intro all k
    rw [merged k, latest_named]
    split
    · rename_i empty
      subst empty
      cases found : latest Prod.fst facts [] with
      | none => rfl
      | some fact =>
        rw [all fact found]
        rfl
    · rfl

theorem state_stateOf (items : List Entry) (root : Json) :
    (match stringMember root "state" with
      | some json => stateStoreLoadJson items json
      | none => some items) = (stateOf root).map fun entries => entries.foldl ssPut items := by
  unfold stateOf
  cases stringMember root "state" <;> rfl

theorem facts_factsOf (items : List Fact) (root : Json) :
    (match stringMember root "facts" with
      | some json => importFacts items json
      | none => some items) = (factsOf root).map fun facts => facts.foldl memoryRemember items := by
  unfold factsOf
  cases stringMember root "facts" with
  | none => rfl
  | some json =>
    dsimp only
    unfold importFacts
    cases Cjson.parse json with
    | none => rfl
    | some document => cases document <;> rfl

theorem stateImport_documents (r : Stores) (body : Option Text) : stateImport r body =
    match documents body with
    | none => (r, false)
    | some (entries, facts) =>
      ({ r with
          state := (entries.getD []).foldl ssPut r.state
          facts := (facts.getD []).foldl memoryRemember r.facts },
        entries.isSome && facts.isSome) := by
  unfold stateImport documents
  cases body.bind Cjson.parse with
  | none => rfl
  | some root =>
    cases root with
    | object members =>
      dsimp only
      rw [state_stateOf, facts_factsOf]
      cases stateOf (.object members) <;> cases factsOf (.object members) <;> rfl
    | _ => rfl

section

variable {r : Stores} {body : Option Text}

theorem allOrNothing_failed {r' : Stores} (imported : stateImport r body = (r', false)) :
    AllOrNothing r body ↔ Same Entry.name r.state r'.state ∧ Same Prod.fst r.facts r'.facts := by
  constructor
  · intro all
    have same := all.failed (by rw [imported])
    rwa [imported] at same
  · intro same
    refine ⟨fun _ => ?_, fun ok => ?_⟩
    · rwa [imported]
    · rw [imported] at ok
      cases ok

theorem allOrNothing_succeeded {r' : Stores} (imported : stateImport r body = (r', true)) :
    AllOrNothing r body ↔ Merged Entry.name r.state (exportedEntries body) r'.state ∧
      Merged Prod.fst r.facts (exportedFacts body) r'.facts ∧
      Merged Entry.name r.state (exportedEntries body) (restarted r') := by
  constructor
  · intro all
    have done := all.succeeded (by rw [imported])
    rwa [imported] at done
  · intro done
    refine ⟨fun failed => ?_, fun _ => ?_⟩
    · rw [imported] at failed
      cases failed
    · rwa [imported]

end

/-- For every runtime and every file: the import is all or nothing and durable if and only if it is harmless. -/
theorem all_or_nothing_iff (r : Stores) (body : Option Text) : AllOrNothing r body ↔ Harmless r body := by
  have imported := stateImport_documents r body
  unfold Harmless
  cases found : documents body with
  | none =>
    rw [found] at imported
    rw [allOrNothing_failed imported]
    exact iff_of_true ⟨fun _ => rfl, fun _ => rfl⟩ trivial
  | some pair =>
    obtain ⟨entries, facts⟩ := pair
    rw [found] at imported
    have state := merged_ssPut (entries.getD []) r.state
    have remembered := merged_memoryRemember (facts.getD []) r.facts
    cases entries with
    | none =>
      rw [allOrNothing_failed imported]
      cases facts with
      | none => exact iff_of_true ⟨fun _ => rfl, fun _ => rfl⟩ trivial
      | some facts =>
        have changed := same_iff_present remembered
        exact ⟨fun same => changed.mp same.2, fun present => ⟨fun _ => rfl, changed.mpr present⟩⟩
    | some entries =>
      cases facts with
      | none =>
        rw [allOrNothing_failed imported]
        have changed := same_iff_present state
        exact ⟨fun same => changed.mp same.1, fun present => ⟨changed.mpr present, fun _ => rfl⟩⟩
      | some facts =>
        have document : exportedEntries body = entries := by rw [exportedEntries, found]; rfl
        have document' : exportedFacts body = facts := by rw [exportedFacts, found]; rfl
        rw [allOrNothing_succeeded imported, document, document']
        constructor
        · rintro ⟨-, values, durable⟩
          exact ⟨durable, (merged_facts_iff facts r.facts).mp values⟩
        · rintro ⟨durable, values⟩
          exact ⟨state, (merged_facts_iff facts r.facts).mpr values, durable⟩

/-! ### A file that is imported -/

def fresh : Stores where
  state := []
  facts := []
  file := some (ascii "{}")

def snapshot (facts : String) : Text :=
  ascii "\x7b\"state\":\"\x7b\\\"a\\\":\x7b\\\"k\\\":\\\"1\\\"\x7d\x7d\",\"facts\":\"" ++ ascii facts ++ ascii "\"\x7d"

/-- The import fails with the entry in the store, or it succeeds and the entry is gone after a restart. -/
theorem import_half_done : ¬ AllOrNothing fresh (some (snapshot "no")) ∧
    ¬ AllOrNothing fresh (some (snapshot "{}")) := by
  constructor
  · intro all
    have same := (all.failed (by decide +kernel)).1 (ascii "a", ascii "k")
    revert same
    decide +kernel
  · intro all
    have durable := (all.succeeded (by decide +kernel)).2.2 (ascii "a", ascii "k")
    revert durable
    decide +kernel

end CognitiveOs.Runtime.StateImport
