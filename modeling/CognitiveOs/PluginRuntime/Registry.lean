import CognitiveOs.Infra.Rereads
import Mathlib.Data.List.Find
import Mathlib.Data.List.Nodup

/-!
# The plugin registry

`plugin_runtime/registry.c`: the versions of the plugins, in the order of their registration, and the file they
are written to and loaded from.
-/

namespace CognitiveOs.PluginRegistry

open Infra Infra.Cjson Infra.Json

structure PluginMeta where
  name : Text
  version : Text
  signature : Option Text := none
  description : Option Text := none
  caps : List Text := []
  deps : List Text := []
  enabled : Int := 0
  builtMs : Int := 0
  deriving DecidableEq

abbrev Registry := List PluginMeta

/-! ### The registry in memory -/

/-- `meta_copy`: copies of C strings. -/
def metaCopy (m : PluginMeta) : PluginMeta :=
  { m with
    name := cstr m.name
    version := cstr m.version
    signature := m.signature.map cstr
    description := m.description.map cstr
    caps := m.caps.map cstr
    deps := m.deps.map cstr }

/-- `plugin_registry_register`; a name with a version that is there is refused. -/
def register (r : Registry) (m : PluginMeta) : Option Registry :=
  if r.any fun item => item.name = cstr m.name && item.version = cstr m.version then none else some (r ++ [metaCopy m])

def unregister (r : Registry) (name : Text) : Registry :=
  r.filter fun item => item.name ≠ name

def setFirst (name : Text) (enabled : Int) : Registry → Registry
  | [] => []
  | item :: rest =>
    if item.name = name then { item with enabled := if enabled ≠ 0 then 1 else 0 } :: rest
    else item :: setFirst name enabled rest

/-- `plugin_registry_set_enabled`, from the last item on. -/
def setEnabled (r : Registry) (name : Text) (enabled : Int) : Registry :=
  (setFirst name enabled r.reverse).reverse

/-- `plugin_registry_find`, from the last item on. -/
def find (r : Registry) (name : Text) : Option PluginMeta :=
  r.reverse.find? fun item => item.name = name

def depsMet (r : Registry) (name : Text) : Bool :=
  match find r name with
  | some m => m.deps.all fun dep => r.any fun item => item.name = dep
  | none => false

/-! ### The file -/

def strings (texts : List Text) : Json :=
  .array (texts.map fun text => .string (cstr text))

def metaMembers (m : PluginMeta) : List (Text × Json) :=
  let rest := [(ascii "enabled", Json.bool (m.enabled ≠ 0)), (ascii "built_ms", .number (toDouble m.builtMs)),
    (ascii "capabilities", strings m.caps), (ascii "dependencies", strings m.deps)]
  let rest := match m.description with
    | some text => (ascii "description", .string (cstr text)) :: rest
    | none => rest
  let rest := match m.signature with
    | some text => (ascii "signature", .string (cstr text)) :: rest
    | none => rest
  (ascii "name", .string (cstr m.name)) :: (ascii "version", .string (cstr m.version)) :: rest

/-- What `plugin_registry_persist` writes. -/
def persist (number : Rat → Text) (r : Registry) : Text :=
  print number (.array (r.map fun m => .object (metaMembers m)))

def texts : Option Json → List Text
  | some (.array items) => items.map fun item => item.string?.getD []
  | _ => []

def itemMeta (item : Json) : Option PluginMeta :=
  match item with
  | .object _ =>
    match (item.get? (ascii "name")).bind string?, (item.get? (ascii "version")).bind string? with
    | some name, some version =>
      some
        { name
          version
          signature := (item.get? (ascii "signature")).bind string?
          description := (item.get? (ascii "description")).bind string?
          caps := texts (item.get? (ascii "capabilities"))
          deps := texts (item.get? (ascii "dependencies"))
          enabled :=
            match item.get? (ascii "enabled") with
            | some (.bool value) => if value then 1 else 0
            | _ => 1 }
    | _, _ => none
  | _ => none

def loadItem (r : Registry) (item : Json) : Registry :=
  match itemMeta item with
  | some m => (register r m).getD r
  | none => r

/-- `plugin_registry_load` of a file that can be read. -/
def load (r : Registry) (text : Text) : Registry :=
  match parse text with
  | some (.array items) => items.foldl loadItem r
  | _ => r

/-! ### Runs -/

inductive RegistryOp where
  | register (m : PluginMeta)
  | unregister (name : Text)
  | setEnabled (name : Text) (enabled : Int)
  | load (text : Text)

def step (r : Registry) : RegistryOp → Registry
  | .register m => (register r m).getD r
  | .unregister name => unregister r name
  | .setEnabled name enabled => setEnabled r name enabled
  | .load text => load r text

def run (ops : List RegistryOp) : Registry :=
  ops.foldl step []

/-! ### What a restart keeps -/

structure SameMeta (m m' : PluginMeta) : Prop where
  name : m'.name = m.name
  version : m'.version = m.version
  signature : m'.signature = m.signature
  description : m'.description = m.description
  caps : m'.caps = m.caps
  deps : m'.deps = m.deps
  enabled : m'.enabled ≠ 0 ↔ m.enabled ≠ 0
  builtMs : m'.builtMs = m.builtMs

/-- The same plugins in the same order, each once, with the same answers. -/
structure Survives (r r' : Registry) : Prop where
  same : List.Forall₂ SameMeta r r'
  distinct : (r'.map fun m => (m.name, m.version)).Nodup
  latest : ∀ name, Option.Rel SameMeta (find r name) (find r' name)
  deps : ∀ name, depsMet r' name = depsMet r name

/-! ### Registries -/

def key (m : PluginMeta) : Text × Text :=
  (m.name, m.version)

structure Wf (r : Registry) : Prop where
  clean : ∀ m ∈ r, metaCopy m = m
  distinct : (r.map key).Nodup

variable {r : Registry} {number : Rat → Text}

theorem metaCopy_metaCopy (m : PluginMeta) : metaCopy (metaCopy m) = metaCopy m := by
  have copies (texts : List Text) : (texts.map cstr).map cstr = texts.map cstr := by
    rw [List.map_map]
    exact List.map_congr_left fun text _ => cstr_cstr text
  have copy (text : Option Text) : (text.map cstr).map cstr = text.map cstr := by
    cases text <;> simp [cstr_cstr]
  simp only [metaCopy, cstr_cstr, copies, copy]

variable {m : PluginMeta}

theorem register_some (new : (cstr m.name, cstr m.version) ∉ r.map key) : register r m = some (r ++ [metaCopy m]) := by
  rw [register, if_neg]
  intro there
  obtain ⟨item, inside, same⟩ := List.any_eq_true.mp there
  rw [Bool.and_eq_true, decide_eq_true_eq, decide_eq_true_eq] at same
  exact new (List.mem_map.mpr ⟨item, inside, Prod.ext same.1 same.2⟩)

theorem wf_nil : Wf [] where
  clean := nofun
  distinct := List.nodup_nil

theorem Wf.register (wf : Wf r) (m : PluginMeta) : Wf ((register r m).getD r) := by
  by_cases new : (cstr m.name, cstr m.version) ∈ r.map key
  · have there : (r.any fun item => item.name = cstr m.name && item.version = cstr m.version) = true := by
      obtain ⟨item, inside, same⟩ := List.mem_map.mp new
      rw [List.any_eq_true]
      exact ⟨item, inside, by simpa [key] using same⟩
    rwa [PluginRegistry.register, if_pos there]
  · rw [register_some new]
    refine ⟨fun item inside => ?_, ?_⟩
    · rcases List.mem_append.mp inside with old | one
      · exact wf.clean item old
      · rw [List.mem_singleton.mp one, metaCopy_metaCopy]
    · rw [Option.getD_some, List.map_append]
      exact List.concat_eq_append ▸ wf.distinct.concat new

theorem Wf.sublist {r' : Registry} (wf : Wf r) (sub : r'.Sublist r) : Wf r' where
  clean m inside := wf.clean m (sub.subset inside)
  distinct := wf.distinct.sublist (sub.map key)

theorem Wf.reverse (wf : Wf r) : Wf r.reverse where
  clean m inside := wf.clean m (List.mem_reverse.mp inside)
  distinct := by
    rw [List.map_reverse]
    exact List.nodup_reverse.mpr wf.distinct

theorem Wf.setFirst (wf : Wf r) (name : Text) (enabled : Int) : Wf (setFirst name enabled r) := by
  have keys (r : Registry) : (PluginRegistry.setFirst name enabled r).map key = r.map key := by
    induction r with
    | nil => rfl
    | cons item rest ih =>
      rw [PluginRegistry.setFirst]
      split
      · rfl
      · rw [List.map_cons, List.map_cons, ih]
  have clean (r : Registry) (each : ∀ m ∈ r, metaCopy m = m) :
      ∀ m ∈ PluginRegistry.setFirst name enabled r, metaCopy m = m := by
    induction r with
    | nil => nofun
    | cons item rest ih =>
      obtain ⟨first, others⟩ := List.forall_mem_cons.mp each
      rw [PluginRegistry.setFirst]
      split
      · refine List.forall_mem_cons.mpr ⟨?_, others⟩
        exact congrArg (fun m : PluginMeta => { m with enabled := if enabled ≠ 0 then 1 else 0 }) first
      · exact List.forall_mem_cons.mpr ⟨first, ih others⟩
  exact ⟨clean r wf.clean, keys r ▸ wf.distinct⟩

theorem Wf.load (wf : Wf r) (text : Text) : Wf (load r text) := by
  rw [PluginRegistry.load]
  split
  · rename_i items read
    clear read
    induction items generalizing r with
    | nil => exact wf
    | cons item rest ih =>
      refine ih (r := loadItem r item) ?_
      rw [loadItem]
      cases itemMeta item with
      | none => exact wf
      | some m => exact wf.register m
  · exact wf

theorem Wf.step (wf : Wf r) (op : RegistryOp) : Wf (step r op) := by
  cases op with
  | register m => exact wf.register m
  | unregister name => exact wf.sublist List.filter_sublist
  | setEnabled name enabled => exact (wf.reverse.setFirst name enabled).reverse
  | load text => exact wf.load text

theorem wf_run (ops : List RegistryOp) : Wf (run ops) := by
  have from_wf {r : Registry} (wf : Wf r) : Wf (ops.foldl step r) := by
    induction ops generalizing r with
    | nil => exact wf
    | cons op rest ih => exact ih (wf.step op)
  exact from_wf wf_nil

/-! ### Reading a plugin back -/

variable {height : Nat} {json : Json}

def reloaded (m : PluginMeta) : PluginMeta :=
  { metaCopy m with enabled := if m.enabled ≠ 0 then 1 else 0, builtMs := 0 }

theorem within_strings (texts : List Text) : Within (height + 1) (strings texts) := by
  apply Within.array
  apply within_items
  intro item member
  obtain ⟨text, -, rfl⟩ := List.mem_map.mp member
  exact .string (not_mem_cstr text)

theorem within_meta (m : PluginMeta) : Within (height + 2) (.object (metaMembers m)) := by
  have text (s : Text) : Within (height + 1) (.string (cstr s)) := .string (not_mem_cstr s)
  have last : WithinMembers (height + 1) [(ascii "enabled", Json.bool (m.enabled ≠ 0)),
      (ascii "built_ms", .number (toDouble m.builtMs)), (ascii "capabilities", strings m.caps),
      (ascii "dependencies", strings m.deps)] :=
    .cons (by decide) (.bool _) (.cons (by decide) (.number _) (.cons (by decide) (within_strings _)
      (.cons (by decide) (within_strings _) .nil)))
  apply Within.object
  apply WithinMembers.cons (by decide) (text _)
  apply WithinMembers.cons (by decide) (text _)
  cases m.signature <;> cases m.description
  · exact last
  · exact .cons (by decide) (text _) last
  · exact .cons (by decide) (text _) last
  · exact .cons (by decide) (text _) (.cons (by decide) (text _) last)

theorem get?_metaMembers (m : PluginMeta) :
    let item := Json.object (metaMembers m)
    item.get? (ascii "name") = some (.string (cstr m.name)) ∧
      item.get? (ascii "version") = some (.string (cstr m.version)) ∧
      item.get? (ascii "signature") = m.signature.map (fun text => .string (cstr text)) ∧
      item.get? (ascii "description") = m.description.map (fun text => .string (cstr text)) ∧
      item.get? (ascii "enabled") = some (.bool (m.enabled ≠ 0)) ∧
      item.get? (ascii "capabilities") = some (strings m.caps) ∧
      item.get? (ascii "dependencies") = some (strings m.deps) := by
  obtain ⟨name, version, signature, description, caps, deps, enabled, builtMs⟩ := m
  cases signature <;> cases description <;> exact ⟨rfl, rfl, rfl, rfl, rfl, rfl, rfl⟩

theorem string_rereads {text : Text} (shown : Rereads number height (.string text) json) : json = .string text := by
  cases shown
  rfl

theorem strings_rereads {list : List Text} (shown : Rereads number height (strings list) json) :
    texts (some json) = list.map cstr := by
  cases shown with
  | @array height _ items' items =>
    have each := forall₂_rereads items
    rw [texts]
    clear items
    induction list generalizing items' with
    | nil =>
      cases each
      rfl
    | cons text rest ih =>
      cases each with
      | cons one later => rw [List.map_cons, List.map_cons, string_rereads one, ih later]; rfl

theorem get?_text {members members' : List (Text × Json)} (shown : RereadsMembers number height members members')
    {key : Text} {text : Option Text} (is : (Json.object members).get? key = text.map fun text => .string (cstr text)) :
    ((Json.object members').get? key).bind string? = text.map cstr := by
  cases text with
  | none => rw [get?_rereads_none shown is, Option.bind_none, Option.map_none]
  | some text =>
    obtain ⟨json, found, one⟩ := get?_rereads shown is
    rw [found, string_rereads one]
    rfl

theorem itemMeta_rereads (shown : Rereads number height (.object (metaMembers m)) json) :
    itemMeta json = some (reloaded m) := by
  obtain ⟨name, version, signature, description, enabled, caps, deps⟩ := get?_metaMembers m
  cases shown with
  | object members =>
    obtain ⟨flag, isFlag, shownFlag⟩ := get?_rereads members enabled
    obtain ⟨caps', isCaps, shownCaps⟩ := get?_rereads members caps
    obtain ⟨deps', isDeps, shownDeps⟩ := get?_rereads members deps
    cases shownFlag
    have name' := @get?_text _ _ _ _ members _ (some m.name) name
    have version' := @get?_text _ _ _ _ members _ (some m.version) version
    simp only [itemMeta, name', version', get?_text members signature, get?_text members description, isFlag, isCaps,
      isDeps, strings_rereads shownCaps, strings_rereads shownDeps, Option.map_some]
    rw [reloaded, metaCopy]
    congr 2
    simp only [decide_eq_true_eq]

/-! ### Reading the registry back -/

theorem metaCopy_reloaded (m : PluginMeta) : metaCopy (reloaded m) = reloaded m := by
  have copy := metaCopy_metaCopy m
  exact congrArg (fun m' : PluginMeta => { m' with enabled := if m.enabled ≠ 0 then 1 else 0, builtMs := 0 }) copy

theorem reloaded_eq (clean : metaCopy m = m) :
    reloaded m = { m with enabled := if m.enabled ≠ 0 then 1 else 0, builtMs := 0 } := by
  rw [reloaded, clean]

theorem key_reloaded (clean : metaCopy m = m) : key (reloaded m) = key m := by
  rw [reloaded_eq clean]
  rfl

theorem foldl_loadItem {height : Nat} {items : List Json} (clean : ∀ m ∈ r, metaCopy m = m)
    (shown : List.Forall₂ (Rereads number height) (r.map fun m => .object (metaMembers m)) items) {before : Registry}
    (distinct : ((before ++ r).map key).Nodup) : items.foldl loadItem before = before ++ r.map reloaded := by
  induction r generalizing items before with
  | nil =>
    cases shown
    simp
  | cons m rest ih =>
    cases shown with
    | @cons _ item _ _ one later =>
      obtain ⟨first, others⟩ := List.forall_mem_cons.mp clean
      have new : (cstr (reloaded m).name, cstr (reloaded m).version) ∉ before.map key := by
        have same : (cstr (reloaded m).name, cstr (reloaded m).version) = key m :=
          (congrArg key (metaCopy_reloaded m)).trans (key_reloaded first)
        rw [same]
        intro inside
        rw [List.map_append, List.nodup_append] at distinct
        exact distinct.2.2 _ inside _ (List.mem_map_of_mem List.mem_cons_self) rfl
      have added : loadItem before item = before ++ [reloaded m] := by
        rw [loadItem, itemMeta_rereads one]
        simp only
        rw [register_some new, Option.getD_some, metaCopy_reloaded]
      rw [List.foldl_cons, added, ih others later]
      · simp
      · simpa [key_reloaded first] using distinct

theorem load_persist (prints : PrintsNumbers number) (wf : Wf r) : load [] (persist number r) = r.map reloaded := by
  have within : Within nestingLimit (.array (r.map fun m => .object (metaMembers m))) := by
    apply Within.array
    apply within_items
    intro item member
    obtain ⟨m, -, rfl⟩ := List.mem_map.mp member
    exact within_meta m
  obtain ⟨json, shown⟩ := within.rereads prints.reads
  have read : parse (persist number r) = some json := by
    rw [persist, parse, parseWithEnd_print number shown (Nat.le_refl _)]
    rfl
  generalize nestingLimit = height at shown
  cases shown with
  | array items =>
    rw [load, read]
    exact @foldl_loadItem _ _ _ _ wf.clean (forall₂_rereads items) [] wf.distinct

theorem name_reloaded (clean : metaCopy m = m) : (reloaded m).name = m.name := by
  rw [reloaded_eq clean]

theorem find_reloaded (clean : ∀ m ∈ r, metaCopy m = m) (name : Text) :
    find (r.map reloaded) name = (find r name).map reloaded := by
  rw [find, find, ← List.map_reverse, List.find?_map]
  congr 1
  refine List.find?_congr fun m inside => ?_
  rw [Function.comp_apply, name_reloaded (clean m (List.mem_reverse.mp inside))]

theorem depsMet_reloaded (clean : ∀ m ∈ r, metaCopy m = m) (name : Text) :
    depsMet (r.map reloaded) name = depsMet r name := by
  have names (dep : Text) : ((r.map reloaded).any fun item => item.name = dep) = r.any fun item => item.name = dep := by
    rw [Bool.eq_iff_iff, List.any_eq_true, List.any_eq_true]
    simp only [List.mem_map, exists_exists_and_eq_and]
    refine exists_congr fun m => and_congr_right fun inside => ?_
    rw [name_reloaded (clean m inside)]
  rw [depsMet, depsMet, find_reloaded clean]
  cases found : find r name with
  | none => rfl
  | some m =>
    have same : (reloaded m).deps = m.deps := by
      rw [reloaded_eq (clean m (List.mem_reverse.mp (List.mem_of_find?_eq_some found)))]
    simp only [Option.map_some, same, names]

theorem sameMeta_reloaded (clean : metaCopy m = m) : SameMeta m (reloaded m) ↔ m.builtMs = 0 := by
  constructor
  · exact fun same => same.builtMs.symm
  · intro zero
    rw [reloaded_eq clean]
    refine ⟨rfl, rfl, rfl, rfl, rfl, rfl, ?_, zero.symm⟩
    show (if m.enabled ≠ 0 then (1 : Int) else 0) ≠ 0 ↔ m.enabled ≠ 0
    split <;> simp_all

theorem survives_iff_of_wf (prints : PrintsNumbers number) (wf : Wf r) :
    Survives r (load [] (persist number r)) ↔ ∀ m ∈ r, m.builtMs = 0 := by
  rw [load_persist prints wf]
  constructor
  · rintro ⟨same, -, -, -⟩ m inside
    rw [List.forall₂_map_right_iff, List.forall₂_same] at same
    exact (sameMeta_reloaded (wf.clean m inside)).mp (same m inside)
  · intro zero
    have same : ∀ m ∈ r, SameMeta m (reloaded m) := fun m inside =>
      (sameMeta_reloaded (wf.clean m inside)).mpr (zero m inside)
    refine ⟨?_, ?_, fun name => ?_, depsMet_reloaded wf.clean⟩
    · rwa [List.forall₂_map_right_iff, List.forall₂_same]
    · have keys : (r.map reloaded).map key = r.map key := by
        rw [List.map_map]
        exact List.map_congr_left fun m inside => key_reloaded (wf.clean m inside)
      exact keys ▸ wf.distinct
    · rw [find_reloaded wf.clean]
      cases found : find r name with
      | none => exact .none
      | some m => exact .some (same m (List.mem_reverse.mp (List.mem_of_find?_eq_some found)))

/-- A registry that calls lead to survives a restart exactly when none of its plugins has a time it was built at. -/
theorem survives_exact (prints : PrintsNumbers number) (ops : List RegistryOp) :
    Survives (run ops) (load [] (persist number (run ops))) ↔ ∀ m ∈ run ops, m.builtMs = 0 :=
  survives_iff_of_wf prints (wf_run ops)

def oneBuilt : List RegistryOp :=
  [.register { name := ascii "p", version := ascii "1.0.0", enabled := 1, builtMs := 1000 }]

theorem survives_exact_oneBuilt :
    Survives (run oneBuilt) (load [] (persist naturalText (run oneBuilt))) ↔ ∀ m ∈ run oneBuilt, m.builtMs = 0 :=
  survives_exact printsNumbers_naturalText oneBuilt

theorem not_survives_oneBuilt : ¬ Survives (run oneBuilt) (load [] (persist naturalText (run oneBuilt))) := by
  intro survives
  have zero := (survives_iff_of_wf printsNumbers_naturalText (wf_run oneBuilt)).mp survives
  exact absurd (zero ⟨ascii "p", ascii "1.0.0", none, none, [], [], 1, 1000⟩ (by decide)) (by decide)

end CognitiveOs.PluginRegistry
