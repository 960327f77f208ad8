import CognitiveOs.Infra.Within
import CognitiveOs.Os.World
import CognitiveOs.Runtime.StateImport
import Mathlib.Data.List.Perm.Basic

/-!
# The state store

`runtime/state_store.c`: values under a name space and a key, what is saved of them and what is
loaded. Once a path is known, every change is written to the file.
-/

namespace CognitiveOs.Runtime.StateStore

open Foundation.Upsert Infra Os StateImport

/-- `ss_entry` has C strings. -/
structure Clean (e : Entry) : Prop where
  ns : 0 ∉ e.ns
  key : 0 ∉ e.key
  val : 0 ∉ e.val

/-- `struct state_store`: no name has two values. -/
structure Store where
  items : List Entry := []
  path : Option Text := none
  distinct : (items.map Entry.name).Nodup := by simp
  clean : ∀ e ∈ items, Clean e := by simp

/-- What `state_store_set` and `state_store_remove` are given: `none` removes. -/
structure Put where
  ns : Text
  key : Text
  val : Option Text
  names : 0 ∉ ns ∧ 0 ∉ key
  text : ∀ v ∈ val, 0 ∉ v

def Put.name (p : Put) : Text × Text :=
  (p.ns, p.key)

def ssFind (items : List Entry) (name : Text × Text) : Option Entry :=
  lookup Entry.name name items

/-- `ss_put`, and whether something has changed. -/
def ssPutOrRemove (items : List Entry) (p : Put) : List Entry × Bool :=
  match ssFind items p.name, p.val with
  | some _, none => (eraseKey Entry.name p.name items, true)
  | some e, some val => if e.val = val then (items, false) else (ssPut items ⟨p.ns, p.key, val⟩, true)
  | none, none => (items, false)
  | none, some val => (ssPut items ⟨p.ns, p.key, val⟩, true)

def addEntry (root : List (Text × List (Text × Text))) (e : Entry) : List (Text × List (Text × Text)) :=
  upsert Prod.fst (e.ns, ((lookup Prod.fst e.ns root).map Prod.snd).getD [] ++ [(e.key, e.val)]) root

def document (root : List (Text × List (Text × Text))) : Json :=
  .object (root.map fun ns => (ns.1, .object (ns.2.map fun member => (member.1, .string member.2))))

section

variable (number : Rat → Text)

/-- `ss_json_unlocked`. -/
def ssJson (items : List Entry) : Text :=
  Json.print number (document (items.foldl addEntry []))

/-- `ss_flush`; a file that cannot be written stays as it is. -/
def ssFlush (d : Disk) (s : Store) : Disk :=
  match s.path with
  | none => d
  | some path => (fsWriteFile d path (ssJson number s.items)).getD d

variable {items : List Entry}

theorem ssPutOrRemove_distinct (distinct : (items.map Entry.name).Nodup) (p : Put) :
    ((ssPutOrRemove items p).1.map Entry.name).Nodup := by
  unfold ssPutOrRemove
  split
  · exact eraseKey_distinct _ distinct
  · split
    · exact distinct
    · exact upsert_distinct _ _ distinct
  · exact distinct
  · exact upsert_distinct _ _ distinct

theorem clean_ssPut (distinct : (items.map Entry.name).Nodup) (clean : ∀ e ∈ items, Clean e) {e : Entry}
    (new : Clean e) : ∀ f ∈ ssPut items e, Clean f := by
  intro f member
  rcases (mem_upsert distinct).mp member with rfl | ⟨known, -⟩
  · exact new
  · exact clean f known

theorem ssPutOrRemove_clean (distinct : (items.map Entry.name).Nodup) (clean : ∀ e ∈ items, Clean e) (p : Put) :
    ∀ e ∈ (ssPutOrRemove items p).1, Clean e := by
  unfold ssPutOrRemove
  split
  · exact fun e member => clean e ((eraseKey_sublist _ _ _).subset member)
  · rename_i given
    split
    · exact clean
    · exact clean_ssPut distinct clean ⟨p.names.1, p.names.2, p.text _ given⟩
  · exact clean
  · rename_i given
    exact clean_ssPut distinct clean ⟨p.names.1, p.names.2, p.text _ given⟩

def Store.put (s : Store) (p : Put) : Store where
  items := (ssPutOrRemove s.items p).1
  path := s.path
  distinct := ssPutOrRemove_distinct s.distinct p
  clean := ssPutOrRemove_clean s.distinct s.clean p

/-- `state_store_set` and `state_store_remove`; a value without a name is refused. -/
def stateStoreSet (d : Disk) (s : Store) (p : Put) : Disk × Store :=
  if p.val.isSome ∧ (p.ns = [] ∨ p.key = []) then (d, s)
  else
    let s' := s.put p
    (if (ssPutOrRemove s.items p).2 then ssFlush number d s' else d, s')

def stateStoreGet (s : Store) (ns key : Text) : Option Text :=
  (ssFind s.items (ns, key)).map Entry.val

/-- `state_store_save`, `none` for a failure. -/
def stateStoreSave (d : Disk) (s : Store) (path : Text) : Option (Disk × Store) :=
  if path = [] then none
  else (fsWriteFile d path (ssJson number s.items)).map fun d => (d, { s with path := some path })

theorem foldl_ssPut_distinct (entries : List Entry) (distinct : (items.map Entry.name).Nodup) :
    ((entries.foldl ssPut items).map Entry.name).Nodup := by
  induction entries generalizing items with
  | nil => exact distinct
  | cons e entries ih => exact ih (upsert_distinct _ _ distinct)

variable {entries : List Entry}

theorem foldl_ssPut_clean (all : ∀ e ∈ entries, Clean e) (distinct : (items.map Entry.name).Nodup)
    (clean : ∀ e ∈ items, Clean e) : ∀ e ∈ entries.foldl ssPut items, Clean e := by
  induction entries generalizing items with
  | nil => exact clean
  | cons e entries ih =>
    obtain ⟨new, all⟩ := List.forall_mem_cons.mp all
    exact ih all (upsert_distinct _ _ distinct) (clean_ssPut distinct clean new)

theorem within_member {height : Nat} {members : List (Text × Json)} (within : Cjson.WithinMembers height members)
    {member : Text × Json} (inside : member ∈ members) : 0 ∉ member.1 ∧ Cjson.Within height member.2 := by
  induction members with
  | nil => cases inside
  | cons first members ih =>
    cases within with
    | cons key value rest =>
      rcases List.mem_cons.mp inside with rfl | later
      · exact ⟨key, value⟩
      · exact ih rest later

theorem stateDocument_clean {json : Text} (read : stateDocument json = some entries) : ∀ e ∈ entries, Clean e := by
  unfold stateDocument at read
  split at read
  · rename_i root parsed
    obtain rfl := Option.some.inj read
    intro e member
    cases Cjson.parse_within parsed with
    | object within =>
      unfold stateEntries at member
      obtain ⟨⟨ns, space⟩, inside, member⟩ := List.mem_flatMap.mp member
      obtain ⟨name, within⟩ := within_member within inside
      simp only at member
      split at member
      · rename_i members
        obtain ⟨⟨key, val⟩, text, rfl⟩ := List.mem_map.mp member
        obtain ⟨⟨key', json⟩, inside, string⟩ := List.mem_filterMap.mp text
        obtain ⟨val', shown, same⟩ := Option.map_eq_some_iff.mp string
        obtain ⟨rfl, rfl⟩ := Prod.mk.inj same
        cases within with
        | object within =>
          obtain ⟨key, value⟩ := within_member within inside
          cases json with
          | string val =>
            obtain rfl := Option.some.inj shown
            cases value with
            | string text => exact ⟨name, key, text⟩
          | _ => cases shown
      · cases member
  · cases read

theorem load_clean {d : Disk} {path : Text} (read : (fsReadFile d path).bind stateDocument = some entries) :
    ∀ e ∈ entries, Clean e := by
  obtain ⟨bytes, -, parsed⟩ := Option.bind_eq_some_iff.mp read
  exact stateDocument_clean parsed

/-- `state_store_load`, `none` for a failure. -/
def stateStoreLoad (d : Disk) (s : Store) (path : Text) : Option Store :=
  if path = [] then none
  else
    match read : (fsReadFile d path).bind stateDocument with
    | none => none
    | some entries =>
      some
        { items := entries.foldl ssPut s.items
          path := some path
          distinct := foldl_ssPut_distinct entries s.distinct
          clean := foldl_ssPut_clean (load_clean read) s.distinct s.clean }

end

/-! ### What is under a name -/

def Put.Writes (p : Put) (ns key : Text) : Prop :=
  p.ns = ns ∧ p.key = key ∧ ¬ (p.val.isSome ∧ (p.ns = [] ∨ p.key = []))

instance (p : Put) (ns key : Text) : Decidable (p.Writes ns key) :=
  inferInstanceAs (Decidable (_ ∧ _ ∧ ¬ _))

/-- The value under a name that some puts leave: that of the last which wrote under it. -/
def lastWritten (s : Store) (ps : List Put) (ns key : Text) : Option Text :=
  ((ps.filter fun p => p.Writes ns key).getLast?.map Put.val).getD (stateStoreGet s ns key)

theorem find_put {items : List Entry} (distinct : (items.map Entry.name).Nodup) (p : Put) (name : Text × Text) :
    (ssFind (ssPutOrRemove items p).1 name).map Entry.val =
      if name = p.name then p.val else (ssFind items name).map Entry.val := by
  unfold ssPutOrRemove
  split
  · rename_i removed
    unfold ssFind
    rw [lookup_eraseKey distinct, removed]
    split <;> rfl
  · rename_i e val found given
    split
    · rename_i same
      split
      · rename_i here
        rw [here, found, given, ← same]
        rfl
      · rfl
    · unfold ssFind ssPut
      rw [lookup_upsert, given]
      split <;> rename_i here
      · rw [if_pos (show name = p.name from here)]
        rfl
      · rw [if_neg (show ¬ name = p.name from here)]
  · rename_i missing given
    split
    · rename_i here
      rw [here, missing, given]
      rfl
    · rfl
  · rename_i val missing given
    unfold ssFind ssPut
    rw [lookup_upsert, given]
    split <;> rename_i here
    · rw [if_pos (show name = p.name from here)]
      rfl
    · rw [if_neg (show ¬ name = p.name from here)]

def puts (number : Rat → Text) (d : Disk) (s : Store) (ps : List Put) : Disk × Store :=
  ps.foldl (fun (d, s) p => stateStoreSet number d s p) (d, s)

theorem get_stateStoreSet (number : Rat → Text) (d : Disk) (s : Store) (p : Put) (ns key : Text) :
    stateStoreGet (stateStoreSet number d s p).2 ns key =
      if p.Writes ns key then p.val else stateStoreGet s ns key := by
  have named : (ns, key) = p.name ↔ p.ns = ns ∧ p.key = key := by
    unfold Put.name
    rw [Prod.mk.injEq, eq_comm, @eq_comm _ key]
  unfold stateStoreSet
  split
  · rename_i refused
    rw [if_neg (show ¬ p.Writes ns key from fun own => own.2.2 refused)]
  · rename_i taken
    have own : p.Writes ns key ↔ (ns, key) = p.name := by
      rw [named]
      exact ⟨fun own => ⟨own.1, own.2.1⟩, fun same => ⟨same.1, same.2, taken⟩⟩
    exact (find_put s.distinct p (ns, key)).trans (if_congr own.symm rfl rfl)

theorem get_puts (number : Rat → Text) (d : Disk) (s : Store) (ps : List Put) (ns key : Text) :
    stateStoreGet (puts number d s ps).2 ns key = lastWritten s ps ns key := by
  unfold puts lastWritten
  induction ps generalizing d s with
  | nil => rfl
  | cons p ps ih =>
    rw [List.foldl_cons, ih, get_stateStoreSet, List.filter_cons]
    split
    · rename_i own
      rw [if_pos (decide_eq_true own), List.getLast?_cons]
      cases (ps.filter fun p => p.Writes ns key).getLast? <;> rfl
    · rename_i other
      rw [if_neg (by simpa using other)]

/-! ### What is saved -/

def entriesOf (root : List (Text × List (Text × Text))) : List Entry :=
  root.flatMap fun ns => ns.2.map fun member => ⟨ns.1, member.1, member.2⟩

theorem entriesOf_addEntry (root : List (Text × List (Text × Text))) (e : Entry) :
    (entriesOf (addEntry root e)).Perm (entriesOf root ++ [e]) := by
  unfold addEntry entriesOf
  induction root with
  | nil => simp [upsert, lookup]
  | cons ns root ih =>
    rw [lookup_cons, upsert]
    split
    · rename_i here
      simp only [Option.map_some, Option.getD_some, List.flatMap_cons, List.map_append, List.map_singleton,
        List.append_assoc, here]
      exact (List.perm_append_comm).append_left _
    · rw [List.flatMap_cons, List.flatMap_cons, List.append_assoc]
      exact ih.append_left _

theorem entriesOf_foldl (items : List Entry) (root : List (Text × List (Text × Text))) :
    (entriesOf (items.foldl addEntry root)).Perm (entriesOf root ++ items) := by
  induction items generalizing root with
  | nil => simp
  | cons e items ih =>
    have first := (entriesOf_addEntry root e).append_right items
    rw [List.append_assoc, List.singleton_append] at first
    exact (ih _).trans first

theorem stateEntries_document (root : List (Text × List (Text × Text))) :
    (match document root with
      | .object members => stateEntries members
      | _ => []) = entriesOf root := by
  unfold document stateEntries entriesOf
  simp only [List.flatMap_map]
  congr 1
  funext ns
  simp [stringMembers, List.filterMap_map, Json.string?]

def CleanRoot (root : List (Text × List (Text × Text))) : Prop :=
  ∀ ns ∈ root, 0 ∉ ns.1 ∧ ∀ member ∈ ns.2, 0 ∉ member.1 ∧ 0 ∉ member.2

theorem CleanRoot.addEntry {root : List (Text × List (Text × Text))} (clean : CleanRoot root) {e : Entry}
    (new : Clean e) : CleanRoot (addEntry root e) := by
  have own : ∀ member ∈ ((lookup Prod.fst e.ns root).map Prod.snd).getD [] ++ [(e.key, e.val)],
      0 ∉ member.1 ∧ 0 ∉ member.2 := by
    intro member inside
    rcases List.mem_append.mp inside with old | last
    · cases found : lookup Prod.fst e.ns root with
      | none =>
        rw [found] at old
        cases old
      | some ns =>
        rw [found] at old
        exact (clean ns (List.mem_of_find?_eq_some found)).2 member old
    · rw [List.mem_singleton.mp last]
      exact ⟨new.key, new.val⟩
  intro ns member
  unfold StateStore.addEntry at member
  generalize ((lookup Prod.fst e.ns root).map Prod.snd).getD [] ++ [(e.key, e.val)] = members at own member
  induction root with
  | nil =>
    rw [List.mem_singleton.mp member]
    exact ⟨new.ns, own⟩
  | cons first root ih =>
    obtain ⟨here, later⟩ := List.forall_mem_cons.mp clean
    unfold upsert at member
    split at member
    · rcases List.mem_cons.mp member with rfl | member
      · exact ⟨new.ns, own⟩
      · exact later ns member
    · rcases List.mem_cons.mp member with rfl | member
      · exact here
      · exact ih later member

theorem CleanRoot.plain {root : List (Text × List (Text × Text))} (clean : CleanRoot root) :
    Json.Plain 2 (document root) := by
  refine .object ?_
  induction root with
  | nil => exact .nil
  | cons ns root ih =>
    obtain ⟨⟨name, members⟩, later⟩ := List.forall_mem_cons.mp clean
    refine .cons name (.object ?_) (ih later)
    generalize ns.2 = own at members
    induction own with
    | nil => exact .nil
    | cons member own ih =>
      obtain ⟨⟨key, val⟩, later⟩ := List.forall_mem_cons.mp members
      exact .cons key (.string val) (ih later)

theorem stateDocument_ssJson (number : Rat → Text) {items : List Entry} (clean : ∀ e ∈ items, Clean e) :
    ∃ entries, stateDocument (ssJson number items) = some entries ∧ entries.Perm items := by
  have root : CleanRoot (items.foldl addEntry []) := by
    have grown : ∀ root, CleanRoot root → CleanRoot (items.foldl addEntry root) := by
      induction items with
      | nil => exact fun _ clean => clean
      | cons e items ih =>
        obtain ⟨new, later⟩ := List.forall_mem_cons.mp clean
        exact fun root clean => ih later _ (clean.addEntry new)
    exact grown [] fun ns member => by cases member
  refine ⟨entriesOf (items.foldl addEntry []), ?_, by simpa [entriesOf] using entriesOf_foldl items []⟩
  rw [← stateEntries_document]
  unfold stateDocument ssJson
  rw [Cjson.parse_print number root.plain (by decide)]
  rfl

theorem foldl_ssPut_self {entries before : List Entry} (distinct : ((before ++ entries).map Entry.name).Nodup) :
    entries.foldl ssPut before = before ++ entries := by
  induction entries generalizing before with
  | nil => simp
  | cons e entries ih =>
    have absent : e.name ∉ before.map Entry.name := by
      rw [List.map_append, List.map_cons] at distinct
      exact fun inside => (List.nodup_append.mp distinct).2.2 _ inside _ List.mem_cons_self rfl
    have put : ssPut before e = before ++ [e] := upsert_of_absent _ _ absent
    rw [List.foldl_cons, put, ih (by simpa using distinct)]
    simp

theorem get_perm {s t : Store} (same : s.items.Perm t.items) (ns key : Text) :
    stateStoreGet s ns key = stateStoreGet t ns key := by
  unfold stateStoreGet ssFind
  congr 1
  apply Option.ext
  intro e
  rw [lookup_eq_some s.distinct, lookup_eq_some t.distinct, same.mem_iff]

theorem load_save {number : Rat → Text} {d d' : Disk} {s saved : Store} {path : Text}
    (done : stateStoreSave number d s path = some (d', saved)) (readable : d'.readable path = true) :
    ∃ loaded, stateStoreLoad d' {} path = some loaded ∧ loaded.items.Perm s.items := by
  unfold stateStoreSave at done
  split at done
  · cases done
  · rename_i named
    obtain ⟨disk, written, same⟩ := Option.map_eq_some_iff.mp done
    obtain ⟨rfl, -⟩ := Prod.mk.inj same
    have file : fsReadFile disk path = some (ssJson number s.items) := by
      unfold fsWriteFile at written
      split at written
      · cases written
      · obtain rfl := Option.some.inj written
        unfold fsReadFile
        simp only [setNode, Function.update_self]
        exact if_pos readable
    obtain ⟨entries, parsed, same⟩ := stateDocument_ssJson number s.clean
    have read : (fsReadFile disk path).bind stateDocument = some entries := by
      rw [file]
      exact parsed
    have distinct : (entries.map Entry.name).Nodup := (same.map Entry.name).nodup_iff.mpr s.distinct
    unfold stateStoreLoad
    rw [if_neg named]
    split
    · rename_i failed
      rw [failed] at read
      cases read
    · rename_i again
      rw [again] at read
      obtain rfl := Option.some.inj read
      refine ⟨_, rfl, ?_⟩
      have put := @foldl_ssPut_self _ [] (by simpa using distinct)
      rw [List.nil_append] at put
      change (List.foldl ssPut [] _).Perm s.items
      rwa [put]

/-- After any puts each name has its last value and no name has two, and what is saved is loaded again. -/
theorem state_store_faithful (number : Rat → Text) (d : Disk) (s : Store) (ps : List Put) :
    (∀ ns key, stateStoreGet (puts number d s ps).2 ns key = lastWritten s ps ns key) ∧
      ((puts number d s ps).2.items.map Entry.name).Nodup ∧
      ∀ path d' saved, stateStoreSave number (puts number d s ps).1 (puts number d s ps).2 path = some (d', saved) →
        d'.readable path = true →
        ∃ loaded, stateStoreLoad d' {} path = some loaded ∧ loaded.items.Perm (puts number d s ps).2.items ∧
          ∀ ns key, stateStoreGet loaded ns key = lastWritten s ps ns key := by
  refine ⟨get_puts number d s ps, (puts number d s ps).2.distinct, ?_⟩
  intro path d' saved done readable
  obtain ⟨loaded, read, same⟩ := load_save done readable
  refine ⟨loaded, read, same, fun ns key => ?_⟩
  rw [get_perm same, get_puts]

/-- Two name spaces, a value that is replaced and one that is removed. -/
theorem state_store_faithful_example :
    let put (ns key : Text) (val : Option Text) (names : 0 ∉ ns ∧ 0 ∉ key) (text : ∀ v ∈ val, 0 ∉ v) : Put :=
      { ns, key, val, names, text }
    let ps :=
      [put (ascii "a") (ascii "k") (some (ascii "1")) (by decide) (by decide),
        put (ascii "b") (ascii "k") (some (ascii "2")) (by decide) (by decide),
        put (ascii "a") (ascii "j") (some (ascii "3")) (by decide) (by decide),
        put (ascii "a") (ascii "k") (some (ascii "4")) (by decide) (by decide),
        put (ascii "b") (ascii "k") none (by decide) (by decide)]
    ∃ d' saved loaded, stateStoreSave (fun _ => []) {} (puts (fun _ => []) {} {} ps).2 (ascii "s") = some (d', saved) ∧
      stateStoreLoad d' {} (ascii "s") = some loaded ∧ stateStoreGet loaded (ascii "a") (ascii "k") = some (ascii "4") ∧
      stateStoreGet loaded (ascii "b") (ascii "k") = none := by
  intro put ps
  obtain ⟨d', saved, done⟩ : ∃ d' saved,
      stateStoreSave (fun _ => []) (puts (fun _ => []) {} {} ps).1 (puts (fun _ => []) {} {} ps).2 (ascii "s") =
        some (d', saved) := ⟨_, _, rfl⟩
  obtain ⟨loaded, read, -, kept⟩ :=
    (state_store_faithful (fun _ => []) {} {} ps).2.2 (ascii "s") d' saved done (by
      obtain rfl := (Prod.mk.inj (Option.some.inj done)).1
      rfl)
  exact ⟨d', saved, loaded, done, read, (kept _ _).trans (by decide), (kept _ _).trans (by decide)⟩

end CognitiveOs.Runtime.StateStore
