import CognitiveOs.Cognition.FilePages
import Mathlib.Algebra.Order.BigOperators.Group.Finset

/-!
# The page cache

`file_page_get`, `file_page_put`, `file_page_invalidate_path`, `tool_file_cached_content` and what
`tool_file_cache_context_excluding` does to the cache, of `action/tool_file.c`. The ticks do not
reach `UINT64_MAX`, and there is memory for the copies.
-/

namespace CognitiveOs.Cognition

open Infra

def filePageCacheBytes : Nat := 8 * 1024 * 1024

/-- A place among the `FILE_PAGE_CACHE_ENTRIES`. -/
abbrev PageSlot := Fin 256

structure PageKey where
  session : Text
  path : Text
  version : UInt64
  offset : Nat
  pageBytes : Nat
  deriving DecidableEq

def PageEntry.key (e : PageEntry) : PageKey where
  session := e.session
  path := e.path
  version := e.version
  offset := e.offset
  pageBytes := e.pageBytes

/-- `file_page_entry` in use. -/
structure CachedPage where
  page : PageEntry
  tick : Nat

structure PageCache where
  slots : PageSlot → Option CachedPage := fun _ => none
  bytes : Nat := 0
  tick : Nat := 0

namespace PageCache

/-- `file_page_drop`. -/
def drop (c : PageCache) (i : PageSlot) : PageCache :=
  match c.slots i with
  | none => c
  | some e => { c with slots := Function.update c.slots i none, bytes := c.bytes - e.page.data.length }

/-- `e->tick=++g_file_page_tick` -/
def touch (c : PageCache) (i : PageSlot) : PageCache where
  slots := Function.update c.slots i ((c.slots i).map fun e => { e with tick := c.tick + 1 })
  bytes := c.bytes
  tick := c.tick + 1

def stale (k : PageKey) (e : CachedPage) : Bool :=
  e.page.session = k.session && e.page.path = k.path && e.page.version ≠ k.version

def dropStale (c : PageCache) (k : PageKey) (i : PageSlot) : PageCache :=
  if (c.slots i).any (stale k) then c.drop i else c

/-- The loop of `file_page_get`. -/
def getLoop (k : PageKey) : List PageSlot → PageCache → PageCache × Option (Text × Bool)
  | [], c => (c, none)
  | i :: rest, c =>
    match (c.dropStale k i).slots i with
    | some e =>
      if e.page.key = k then ((c.dropStale k i).touch i, some (e.page.data, e.page.hasMore))
      else getLoop k rest (c.dropStale k i)
    | none => getLoop k rest (c.dropStale k i)

/-- `file_page_get`. -/
def get (c : PageCache) (k : PageKey) : PageCache × Option (Text × Bool) :=
  getLoop k (List.finRange 256) c

/-- The first loop of `file_page_put`: the slot of the page, or else the first free one. -/
def slotLoop (k : PageKey) : List PageSlot → PageCache → Option PageSlot → PageCache × Option PageSlot
  | [], c, slot => (c, slot)
  | i :: rest, c, slot =>
    match (c.dropStale k i).slots i with
    | some e => if e.page.key = k then (c.dropStale k i, some i) else slotLoop k rest (c.dropStale k i) slot
    | none => slotLoop k rest (c.dropStale k i) (slot.or (some i))

def tickOf (c : PageCache) (i : PageSlot) : Nat :=
  (c.slots i).elim 0 CachedPage.tick

def oldest (c : PageCache) (among : PageSlot → Bool) : Option PageSlot :=
  (List.finRange 256).foldl (fun best i =>
    if among i && best.all fun j => c.tickOf i < c.tickOf j then some i else best) none

def makeRoom (slot : PageSlot) (length : Nat) : Nat → PageCache → PageCache
  | 0, c => c
  | fuel + 1, c =>
    if c.bytes + length ≤ filePageCacheBytes then c
    else
      match c.oldest fun i => (c.slots i).isSome && i ≠ slot with
      | none => c
      | some victim => makeRoom slot length fuel (c.drop victim)

def fill (c : PageCache) (slot : PageSlot) (e : PageEntry) : PageCache where
  slots := Function.update c.slots slot (some { page := e, tick := c.tick + 1 })
  bytes := c.bytes + e.data.length
  tick := c.tick + 1

/-- `file_page_put`. -/
def put (c : PageCache) (e : PageEntry) : PageCache :=
  if e.session = [] ∨ filePageCacheBytes < e.data.length then c
  else
    let found := slotLoop e.key (List.finRange 256) c none
    match found.2.or (found.1.oldest fun _ => true) with
    | none => found.1
    | some slot => (makeRoom slot e.data.length 256 (found.1.drop slot)).fill slot e

/-- `file_page_invalidate_path` of an absolute path. -/
def invalidatePath (c : PageCache) (target : Text) : PageCache :=
  (List.finRange 256).foldl (fun c i => if (c.slots i).any fun e => e.page.path = target then c.drop i else c) c

/-- The loop of `tool_file_cached_content`. -/
def contentLoop (session path : Text) (version : UInt64) : Nat → Nat → Text → PageCache → PageCache × Option Text
  | 0, _, _, c => (c, none)
  | fuel + 1, offset, out, c =>
    match (List.finRange 256).find? fun i => (c.slots i).any fun e =>
        e.page.pageBytes ≠ 0 && e.page.version = version && e.page.offset = offset && e.page.session = session &&
          e.page.path = path with
    | none => (c, none)
    | some i =>
      match c.slots i with
      | none => (c, none)
      | some e =>
        if e.page.hasMore then
          contentLoop session path version fuel (offset + e.page.data.length) (out ++ e.page.data) (c.touch i)
        else (c.touch i, some (out ++ e.page.data))

/-- `tool_file_cached_content`; the version is 0 when there is no such file. -/
def cachedContent (c : PageCache) (session path : Text) (version : UInt64) : PageCache × Option Text :=
  if session = [] ∨ version = 0 then (c, none) else contentLoop session path version 256 0 [] c

/-- What `tool_file_cache_context_excluding` does to one page: it is dropped when the file has another version, and
else touched once for every line that is taken. -/
def contextStep (session : Text) (version : Text → UInt64) (taken : PageSlot → Nat) (c : PageCache) (i : PageSlot) :
    PageCache :=
  match c.slots i with
  | none => c
  | some e =>
    if e.page.pageBytes = 0 ∨ e.page.session ≠ session ∨ e.page.data = [] then c
    else if version e.page.path ≠ e.page.version then c.drop i
    else (List.replicate (taken i) i).foldl touch c

/-- `tool_file_cache_context_excluding`, which comes to the first `visited` slots before its output is full. -/
def context (c : PageCache) (session : Text) (version : Text → UInt64) (taken : PageSlot → Nat) (visited : Nat) :
    PageCache :=
  ((List.finRange 256).take visited).foldl (contextStep session version taken) c

inductive Call
  | put (e : PageEntry)
  | get (k : PageKey)
  | invalidate (target : Text)
  | content (session path : Text) (version : UInt64)
  | context (session : Text) (version : Text → UInt64) (taken : PageSlot → Nat) (visited : Nat)

def Call.step (c : PageCache) : Call → PageCache
  | put e => c.put e
  | get k => (c.get k).1
  | invalidate target => c.invalidatePath target
  | content session path version => (c.cachedContent session path version).1
  | context session version taken visited => c.context session version taken visited

def run (calls : List Call) : PageCache :=
  calls.foldl Call.step {}

def putPages (calls : List Call) : List PageEntry :=
  calls.foldl (fun pages call => match call with
    | .put e => filePagePut pages e
    | _ => pages) []

/-! ### Pages go, or stay where they are -/

variable {c : PageCache}

def lengthAt (c : PageCache) (i : PageSlot) : Nat :=
  (c.slots i).elim 0 fun e => e.page.data.length

def Counted (c : PageCache) : Prop :=
  c.bytes = ∑ i, c.lengthAt i

structure Shrunk (c c' : PageCache) : Prop where
  pages : ∀ i e', c'.slots i = some e' → ∃ e, c.slots i = some e ∧ e.page = e'.page
  counted : c.Counted → c'.Counted
  fewer : c.Counted → c'.bytes ≤ c.bytes

theorem Shrunk.refl (c : PageCache) : Shrunk c c where
  pages _ e' here := ⟨e', here, rfl⟩
  counted := id
  fewer _ := Nat.le_refl _

theorem Shrunk.trans {a b : PageCache} (first : Shrunk a b) (second : Shrunk b c) : Shrunk a c where
  pages i e' here := by
    obtain ⟨e, between, same⟩ := second.pages i e' here
    obtain ⟨e₀, start, same₀⟩ := first.pages i e between
    exact ⟨e₀, start, same₀.trans same⟩
  counted := second.counted ∘ first.counted
  fewer counted := (second.fewer (first.counted counted)).trans (first.fewer counted)

theorem Shrunk.foldl {α : Type} {f : PageCache → α → PageCache} (step : ∀ c a, Shrunk c (f c a)) (l : List α)
    (c : PageCache) : Shrunk c (l.foldl f c) := by
  induction l generalizing c with
  | nil => exact .refl c
  | cons a l ih => exact (step c a).trans (ih (f c a))

theorem lengthAt_of_some {i : PageSlot} {e : CachedPage} (here : c.slots i = some e) :
    c.lengthAt i = e.page.data.length := by
  rw [lengthAt, here]
  rfl

theorem sum_lengthAt_update (c : PageCache) (i : PageSlot) (page : Option CachedPage) (bytes tick : Nat) :
    ∑ j, lengthAt { slots := Function.update c.slots i page, bytes, tick } j + c.lengthAt i =
      ∑ j, c.lengthAt j + page.elim 0 fun e => e.page.data.length := by
  have split (f : PageSlot → Nat) : ∑ j, f j = f i + ∑ j ∈ Finset.univ.erase i, f j :=
    (Finset.add_sum_erase _ f (Finset.mem_univ i)).symm
  rw [split, split c.lengthAt]
  have others : ∑ j ∈ Finset.univ.erase i, lengthAt { slots := Function.update c.slots i page, bytes, tick } j =
      ∑ j ∈ Finset.univ.erase i, c.lengthAt j := by
    refine Finset.sum_congr rfl fun j other => ?_
    change (Function.update c.slots i page j).elim 0 _ = (c.slots j).elim 0 _
    rw [Function.update_of_ne (Finset.ne_of_mem_erase other)]
  have own : lengthAt { slots := Function.update c.slots i page, bytes, tick } i =
      page.elim 0 fun e => e.page.data.length := by
    change (Function.update c.slots i page i).elim 0 _ = _
    rw [Function.update_self]
  rw [others, own]
  omega

theorem shrunk_drop (c : PageCache) (i : PageSlot) : Shrunk c (c.drop i) := by
  cases here : c.slots i with
  | none =>
    have same : c.drop i = c := by simp [drop, here]
    rw [same]
    exact .refl c
  | some e =>
    have dropped : c.drop i =
        { slots := Function.update c.slots i none, bytes := c.bytes - e.page.data.length, tick := c.tick } := by
      simp [drop, here]
    rw [dropped]
    refine ⟨fun j e' kept => ?_, fun counted => ?_, fun _ => Nat.sub_le _ _⟩
    · by_cases own : j = i
      · subst own
        simp at kept
      · exact ⟨e', by simpa [own] using kept, rfl⟩
    · have sum := sum_lengthAt_update c i none (c.bytes - e.page.data.length) c.tick
      rw [lengthAt_of_some here, Option.elim_none] at sum
      unfold Counted at counted ⊢
      simp only
      omega

theorem drop_slots (c : PageCache) (i : PageSlot) : (c.drop i).slots = Function.update c.slots i none := by
  cases here : c.slots i with
  | none =>
    have kept : Function.update c.slots i none = c.slots := by
      rw [← here]
      exact Function.update_eq_self i c.slots
    rw [kept]
    simp [drop, here]
  | some e => simp [drop, here]

theorem shrunk_touch (c : PageCache) (i : PageSlot) : Shrunk c (c.touch i) := by
  refine ⟨fun j e' kept => ?_, fun counted => ?_, fun _ => Nat.le_refl _⟩
  · by_cases own : j = i
    · subst own
      simp only [touch, Function.update_self, Option.map_eq_some_iff] at kept
      obtain ⟨e, here, rfl⟩ := kept
      exact ⟨e, here, rfl⟩
    · exact ⟨e', by simpa [touch, own] using kept, rfl⟩
  · have sum := sum_lengthAt_update c i ((c.slots i).map fun e => { e with tick := c.tick + 1 }) c.bytes (c.tick + 1)
    have own : ((c.slots i).map fun e => { e with tick := c.tick + 1 }).elim 0 (fun e => e.page.data.length) =
        c.lengthAt i := by
      unfold lengthAt
      cases c.slots i <;> rfl
    unfold Counted touch at *
    simp only
    omega

theorem shrunk_dropStale (c : PageCache) (k : PageKey) (i : PageSlot) : Shrunk c (c.dropStale k i) := by
  unfold dropStale
  split
  · exact shrunk_drop c i
  · exact .refl c

theorem getLoop_spec (k : PageKey) (l : List PageSlot) (c : PageCache) :
    Shrunk c (getLoop k l c).1 ∧ ∀ data more, (getLoop k l c).2 = some (data, more) →
      ∃ i e, c.slots i = some e ∧ e.page.key = k ∧ e.page.data = data ∧ e.page.hasMore = more := by
  induction l generalizing c with
  | nil => exact ⟨.refl c, nofun⟩
  | cons i rest ih =>
    have shrunk := shrunk_dropStale c k i
    obtain ⟨later, found⟩ := ih (c.dropStale k i)
    have back (data : Text) (more : Bool) (hit : (getLoop k rest (c.dropStale k i)).2 = some (data, more)) :
        ∃ i e, c.slots i = some e ∧ e.page.key = k ∧ e.page.data = data ∧ e.page.hasMore = more := by
      obtain ⟨j, e, here, key, bytes, last⟩ := found data more hit
      obtain ⟨e₀, start, same⟩ := shrunk.pages j e here
      exact ⟨j, e₀, start, same ▸ key, same ▸ bytes, same ▸ last⟩
    unfold getLoop
    cases here : (c.dropStale k i).slots i with
    | none => exact ⟨shrunk.trans later, back⟩
    | some e =>
      simp only
      split
      · rename_i own
        refine ⟨shrunk.trans (shrunk_touch _ i), fun data more hit => ?_⟩
        obtain ⟨rfl, rfl⟩ := Prod.mk.inj (Option.some.inj hit)
        obtain ⟨e₀, start, same⟩ := shrunk.pages i e here
        exact ⟨i, e₀, start, same ▸ own, by rw [same], by rw [same]⟩
      · exact ⟨shrunk.trans later, back⟩

theorem slotLoop_spec (k : PageKey) (l : List PageSlot) (c : PageCache) (slot : Option PageSlot) :
    Shrunk c (slotLoop k l c slot).1 ∧
      ((∃ i e, (slotLoop k l c slot).2 = some i ∧ (slotLoop k l c slot).1.slots i = some e ∧ e.page.key = k) ∨
        ∀ i ∈ l, ∀ e, (slotLoop k l c slot).1.slots i = some e → e.page.key ≠ k) := by
  induction l generalizing c slot with
  | nil => exact ⟨.refl c, .inr nofun⟩
  | cons i rest ih =>
    have shrunk := shrunk_dropStale c k i
    have extend (slot : Option PageSlot) (other : ∀ e, (c.dropStale k i).slots i = some e → e.page.key ≠ k) :
        Shrunk c (slotLoop k rest (c.dropStale k i) slot).1 ∧
          ((∃ j e, (slotLoop k rest (c.dropStale k i) slot).2 = some j ∧
            (slotLoop k rest (c.dropStale k i) slot).1.slots j = some e ∧ e.page.key = k) ∨
            ∀ j ∈ i :: rest, ∀ e, (slotLoop k rest (c.dropStale k i) slot).1.slots j = some e → e.page.key ≠ k) := by
      obtain ⟨later, found⟩ := ih (c.dropStale k i) slot
      refine ⟨shrunk.trans later, found.imp_right fun absent => List.forall_mem_cons.mpr ⟨fun e kept => ?_, absent⟩⟩
      obtain ⟨e₀, here, same⟩ := later.pages i e kept
      exact same ▸ other e₀ here
    unfold slotLoop
    cases here : (c.dropStale k i).slots i with
    | none => exact extend _ fun e kept => by rw [here] at kept; cases kept
    | some e =>
      simp only
      split
      · rename_i own
        exact ⟨shrunk, .inl ⟨i, e, rfl, here, own⟩⟩
      · rename_i other
        exact extend _ fun e' kept => by
          rw [here] at kept
          cases kept
          exact other

/-! ### Room for a page -/

theorem oldest_spec (c : PageCache) (among : PageSlot → Bool) :
    (∀ i, c.oldest among = some i → among i = true) ∧ (c.oldest among = none → ∀ i, among i = false) := by
  have fold (l : List PageSlot) (best : Option PageSlot) (sound : ∀ i, best = some i → among i = true) :
      let r := l.foldl (fun best i =>
        if among i && best.all fun j => c.tickOf i < c.tickOf j then some i else best) best
      (∀ i, r = some i → among i = true) ∧ (r = none → best = none ∧ ∀ i ∈ l, among i = false) := by
    induction l generalizing best with
    | nil => exact ⟨sound, fun none => ⟨none, nofun⟩⟩
    | cons i rest ih =>
      rw [List.foldl_cons]
      split
      · rename_i better
        rw [Bool.and_eq_true] at better
        obtain ⟨chosen, missing⟩ := ih (some i) fun j same => by cases same; exact better.1
        exact ⟨chosen, fun nothing => absurd (missing nothing).1 (Option.some_ne_none i)⟩
      · rename_i worse
        obtain ⟨chosen, missing⟩ := ih best sound
        refine ⟨chosen, fun nothing => ?_⟩
        obtain ⟨rfl, absent⟩ := missing nothing
        exact ⟨rfl, List.forall_mem_cons.mpr ⟨by simpa using worse, absent⟩⟩
  obtain ⟨chosen, missing⟩ := fold (List.finRange 256) none nofun
  exact ⟨chosen, fun nothing i => (missing nothing).2 i (List.mem_finRange i)⟩

theorem shrunk_makeRoom (slot : PageSlot) (length fuel : Nat) (c : PageCache) :
    Shrunk c (makeRoom slot length fuel c) := by
  induction fuel generalizing c with
  | zero => exact .refl c
  | succ fuel ih =>
    unfold makeRoom
    split
    · exact .refl c
    · split
      · exact .refl c
      · exact (shrunk_drop c _).trans (ih _)

def used (c : PageCache) : Finset PageSlot :=
  Finset.univ.filter fun i => (c.slots i).isSome

theorem bytes_of_unused (counted : c.Counted) (unused : ∀ i, c.slots i = none) : c.bytes = 0 := by
  rw [counted]
  exact Finset.sum_eq_zero fun i _ => by rw [lengthAt, unused i]; rfl

theorem makeRoom_room {slot : PageSlot} {length : Nat} (fits : length ≤ filePageCacheBytes) {fuel : Nat}
    (counted : c.Counted) (free : c.slots slot = none) (few : c.used.card ≤ fuel) :
    (makeRoom slot length fuel c).bytes + length ≤ filePageCacheBytes := by
  induction fuel generalizing c with
  | zero =>
    have unused : ∀ i, c.slots i = none := by
      intro i
      have empty := Finset.card_eq_zero.mp (Nat.le_zero.mp few)
      have absent : i ∉ c.used := by simp [empty]
      simpa [used] using absent
    change c.bytes + length ≤ filePageCacheBytes
    rw [bytes_of_unused counted unused]
    omega
  | succ fuel ih =>
    obtain ⟨chosen, missing⟩ := c.oldest_spec fun i => (c.slots i).isSome && i ≠ slot
    unfold makeRoom
    split
    · assumption
    · rename_i full
      split
      · rename_i nothing
        have unused : ∀ i, c.slots i = none := by
          intro i
          by_cases own : i = slot
          · rw [own, free]
          · simpa [own] using missing nothing i
        rw [bytes_of_unused counted unused] at full
        omega
      · rename_i victim found
        have inUse := chosen victim found
        simp only [Bool.and_eq_true, decide_eq_true_eq] at inUse
        have fewer : (c.drop victim).used = c.used.erase victim := by
          ext i
          by_cases own : i = victim <;> simp [used, drop_slots, own]
        refine ih ((shrunk_drop c victim).counted counted) ?_ ?_
        · rw [drop_slots, Function.update_of_ne (Ne.symm inUse.2), free]
        · rw [fewer, Finset.card_erase_of_mem (by simpa [used] using inUse.1)]
          omega

/-! ### What holds of the cache -/

variable {pages : List PageEntry}

/-- The bytes are accounted and bounded, no page is there twice, and each is the last one put under its key. -/
structure Exact (c : PageCache) (pages : List PageEntry) : Prop where
  counted : c.Counted
  bounded : c.bytes ≤ filePageCacheBytes
  unique : ∀ i j e e', c.slots i = some e → c.slots j = some e' → e.page.key = e'.page.key → i = j
  last : ∀ i e, c.slots i = some e → pages.find? (fun p => p.key = e.page.key) = some e.page

theorem Exact.shrunk {c' : PageCache} (sound : Exact c pages) (shrunk : Shrunk c c') :
    Exact c' pages where
  counted := shrunk.counted sound.counted
  bounded := (shrunk.fewer sound.counted).trans sound.bounded
  unique i j e e' first second same := by
    obtain ⟨a, here, own⟩ := shrunk.pages i e first
    obtain ⟨b, there, own'⟩ := shrunk.pages j e' second
    exact sound.unique i j a b here there (by rw [own, own', same])
  last i e here := by
    obtain ⟨a, before, own⟩ := shrunk.pages i e here
    rw [← own]
    exact sound.last i a before

theorem Exact.fill (sound : Exact c pages) {slot : PageSlot} {e : PageEntry} (free : c.slots slot = none)
    (room : c.bytes + e.data.length ≤ filePageCacheBytes) (absent : ∀ i e', c.slots i = some e' → e'.page.key ≠ e.key) :
    Exact (c.fill slot e) (e :: pages) where
  counted := by
    have sum := sum_lengthAt_update c slot (some { page := e, tick := c.tick + 1 }) (c.bytes + e.data.length)
      (c.tick + 1)
    have before := sound.counted
    have empty : c.lengthAt slot = 0 := by rw [lengthAt, free]; rfl
    rw [empty, Option.elim_some] at sum
    unfold Counted PageCache.fill at *
    simp only at sum ⊢
    omega
  bounded := room
  unique i j a b first second same := by
    have other {i : PageSlot} {a : CachedPage} (kept : (c.fill slot e).slots i = some a) :
        (i = slot ∧ a.page = e) ∨ (i ≠ slot ∧ c.slots i = some a) := by
      unfold PageCache.fill at kept
      simp only [Function.update_apply] at kept
      split at kept
      · rename_i own
        cases kept
        exact .inl ⟨own, rfl⟩
      · rename_i away
        exact .inr ⟨away, kept⟩
    rcases other first with ⟨own, new⟩ | ⟨-, here⟩
    · rcases other second with ⟨own', -⟩ | ⟨-, there⟩
      · exact own.trans own'.symm
      · exact absurd (same.symm.trans (congrArg PageEntry.key new)) (absent j b there)
    · rcases other second with ⟨-, new⟩ | ⟨-, there⟩
      · exact absurd (same.trans (congrArg PageEntry.key new)) (absent i a here)
      · exact sound.unique i j a b here there same
  last i a here := by
    unfold PageCache.fill at here
    simp only [Function.update_apply] at here
    split at here
    · cases here
      simp
    · rw [List.find?_cons_of_neg (by simpa using Ne.symm (absent i a here))]
      exact sound.last i a here

theorem shrunk_invalidatePath (c : PageCache) (target : Text) : Shrunk c (c.invalidatePath target) := by
  refine Shrunk.foldl (fun c i => ?_) _ c
  split
  · exact shrunk_drop c i
  · exact .refl c

theorem shrunk_context (c : PageCache) (session : Text) (version : Text → UInt64) (taken : PageSlot → Nat)
    (visited : Nat) : Shrunk c (c.context session version taken visited) := by
  refine Shrunk.foldl (fun c i => ?_) _ c
  unfold contextStep
  split
  · exact .refl c
  · split
    · exact .refl c
    · split
      · exact shrunk_drop c i
      · exact Shrunk.foldl shrunk_touch _ c

theorem Exact.put (sound : Exact c pages) (e : PageEntry) : Exact (c.put e) (filePagePut pages e) := by
  unfold PageCache.put filePagePut
  by_cases refused : e.session = [] ∨ filePageCacheBytes < e.data.length
  · rw [if_pos refused, if_pos (show e.session = [] ∨ 8 * 1024 * 1024 < e.data.length from refused)]
    exact sound
  · rw [if_neg refused, if_neg (show ¬(e.session = [] ∨ 8 * 1024 * 1024 < e.data.length) from refused)]
    obtain ⟨shrunk, place⟩ := slotLoop_spec e.key (List.finRange 256) c none
    generalize slotLoop e.key (List.finRange 256) c none = found at shrunk place
    have between := sound.shrunk shrunk
    simp only
    split
    · rename_i nothing
      rw [Option.or_eq_none_iff] at nothing
      have absent := place.resolve_left fun ⟨i, _, chosen, _⟩ => by rw [nothing.1] at chosen; cases chosen
      refine ⟨between.counted, between.bounded, between.unique, fun i a here => ?_⟩
      rw [List.find?_cons_of_neg (by simpa using Ne.symm (absent i (List.mem_finRange i) a here))]
      exact between.last i a here
    · rename_i slot chosen
      have dropped := between.shrunk (shrunk_drop found.1 slot)
      have free : (found.1.drop slot).slots slot = none := by rw [drop_slots, Function.update_self]
      have most : (found.1.drop slot).used.card ≤ 256 := by
        have bound := Finset.card_le_univ (found.1.drop slot).used
        rwa [Fintype.card_fin] at bound
      have less := shrunk_makeRoom slot e.data.length 256 (found.1.drop slot)
      have absent : ∀ i a, (found.1.drop slot).slots i = some a → a.page.key ≠ e.key := by
        intro i a here own
        rw [drop_slots, Function.update_apply] at here
        split at here
        · cases here
        · rename_i away
          rcases place with ⟨j, b, slotHere, there, key⟩ | none
          · rw [slotHere, Option.some_or, Option.some.injEq] at chosen
            exact away (chosen ▸ between.unique i j a b here there (own.trans key.symm))
          · exact none i (List.mem_finRange i) a here own
      refine (dropped.shrunk less).fill ?_ ?_ ?_
      · cases kept : (makeRoom slot e.data.length 256 (found.1.drop slot)).slots slot with
        | none => rfl
        | some a =>
          obtain ⟨b, before, -⟩ := less.pages slot a kept
          rw [free] at before
          cases before
      · exact makeRoom_room (Nat.not_lt.mp (not_or.mp refused).2) dropped.counted free most
      · intro i a here
        obtain ⟨b, before, same⟩ := less.pages i a here
        exact same ▸ absent i b before

/-! ### The content of a file -/

def Holds (c : PageCache) (e : PageEntry) : Prop :=
  ∃ i tick, c.slots i = some { page := e, tick }

/-- Each page starts where the one before ends, and only the last one has no more. -/
inductive Contiguous : Nat → List PageEntry → Prop where
  | last {e : PageEntry} : e.hasMore = false → Contiguous e.offset [e]
  | more {e : PageEntry} {es : List PageEntry} : e.hasMore = true → Contiguous (e.offset + e.data.length) es →
      Contiguous e.offset (e :: es)

structure WholeFile (c : PageCache) (session path : Text) (version : UInt64) (offset : Nat) (es : List PageEntry) :
    Prop where
  contiguous : Contiguous offset es
  held : ∀ e ∈ es, c.Holds e
  own : ∀ e ∈ es, e.session = session ∧ e.path = path ∧ e.version = version ∧ e.pageBytes ≠ 0

theorem Shrunk.holds {c' : PageCache} (shrunk : Shrunk c c') {e : PageEntry} (holds : c'.Holds e) : c.Holds e := by
  obtain ⟨i, tick, here⟩ := holds
  obtain ⟨a, before, rfl⟩ := shrunk.pages i _ here
  exact ⟨i, a.tick, before⟩

theorem contentLoop_spec (session path : Text) (version : UInt64) (fuel offset : Nat) (out : Text) (c : PageCache) :
    Shrunk c (contentLoop session path version fuel offset out c).1 ∧
      ∀ whole, (contentLoop session path version fuel offset out c).2 = some whole →
        ∃ es, WholeFile c session path version offset es ∧ whole = out ++ (es.map PageEntry.data).flatten := by
  induction fuel generalizing offset out c with
  | zero => exact ⟨.refl c, nofun⟩
  | succ fuel ih =>
    unfold contentLoop
    split
    · exact ⟨.refl c, nofun⟩
    · rename_i i found
      split
      · exact ⟨.refl c, nofun⟩
      · rename_i e here
        have matches' := List.find?_some found
        simp only [here, Option.any_some, Bool.and_eq_true, decide_eq_true_eq] at matches'
        obtain ⟨⟨⟨⟨bytes, ofVersion⟩, rfl⟩, ofSession⟩, ofPath⟩ := matches'
        have held : c.Holds e.page := ⟨i, e.tick, here⟩
        have own : e.page.session = session ∧ e.page.path = path ∧ e.page.version = version ∧ e.page.pageBytes ≠ 0 :=
          ⟨ofSession, ofPath, ofVersion, bytes⟩
        split
        · rename_i more
          obtain ⟨later, assembled⟩ := ih (e.page.offset + e.page.data.length) (out ++ e.page.data) (c.touch i)
          refine ⟨(shrunk_touch c i).trans later, fun whole done => ?_⟩
          obtain ⟨es, pages, rfl⟩ := assembled whole done
          refine ⟨e.page :: es, ⟨.more more pages.contiguous, ?_, ?_⟩, ?_⟩
          · exact List.forall_mem_cons.mpr ⟨held, fun e' member => (shrunk_touch c i).holds (pages.held e' member)⟩
          · exact List.forall_mem_cons.mpr ⟨own, pages.own⟩
          · rw [List.map_cons, List.flatten_cons, List.append_assoc]
        · rename_i last
          refine ⟨shrunk_touch c i, fun whole done => ?_⟩
          obtain rfl := Option.some.inj done
          refine ⟨[e.page], ⟨.last (by simpa using last), by simpa using held, by simpa using own⟩, ?_⟩
          rw [List.map_singleton, List.flatten_singleton]

theorem cachedContent_spec (c : PageCache) (session path : Text) (version : UInt64) :
    Shrunk c (c.cachedContent session path version).1 ∧
      ∀ whole, (c.cachedContent session path version).2 = some whole →
        ∃ es, WholeFile c session path version 0 es ∧ whole = (es.map PageEntry.data).flatten := by
  unfold cachedContent
  split
  · exact ⟨.refl c, nofun⟩
  · exact contentLoop_spec session path version 256 0 [] c

def SliceOf (content : Text) (e : PageEntry) : Prop :=
  e.data = (content.drop e.offset).take e.pageBytes ∧
    e.hasMore = decide (e.pageBytes < (content.drop e.offset).length)

theorem Contiguous.flatten {content : Text} {offset : Nat} {es : List PageEntry} (contiguous : Contiguous offset es)
    (slices : ∀ e ∈ es, SliceOf content e) : (es.map PageEntry.data).flatten = content.drop offset := by
  induction contiguous with
  | @last e ends =>
    obtain ⟨data, more⟩ := slices e (List.mem_singleton_self e)
    have short := of_decide_eq_false (more.symm.trans ends)
    rw [List.map_singleton, List.flatten_singleton, data, List.take_of_length_le (Nat.not_lt.mp short)]
  | @more e es goesOn rest ih =>
    obtain ⟨data, more⟩ := slices e List.mem_cons_self
    have long := of_decide_eq_true (more.symm.trans goesOn)
    have size : e.data.length = e.pageBytes := by
      rw [data, List.length_take, Nat.min_eq_left long.le]
    rw [List.map_cons, List.flatten_cons, ih fun e' member => slices e' (List.mem_cons_of_mem e member), size, data,
      ← List.drop_drop, List.take_append_drop]

/-! ### Runs -/

theorem Exact.empty : Exact {} [] where
  counted := (Finset.sum_eq_zero fun _ _ => rfl).symm
  bounded := Nat.zero_le _
  unique _ _ _ _ here := by cases here
  last _ _ here := by cases here

theorem exact_run (calls : List Call) : Exact (run calls) (putPages calls) := by
  have step (calls : List Call) (c : PageCache) (pages : List PageEntry) (sound : Exact c pages) :
      Exact (calls.foldl Call.step c) (calls.foldl (fun pages call => match call with
        | .put e => filePagePut pages e
        | _ => pages) pages) := by
    induction calls generalizing c pages with
    | nil => exact sound
    | cons call calls ih =>
      rw [List.foldl_cons, List.foldl_cons]
      refine ih _ _ ?_
      cases call with
      | put e => exact sound.put e
      | get k => exact sound.shrunk (getLoop_spec k _ c).1
      | invalidate target => exact sound.shrunk (shrunk_invalidatePath c target)
      | content session path version => exact sound.shrunk (cachedContent_spec c session path version).1
      | context session version taken visited =>
        exact sound.shrunk (shrunk_context c session version taken visited)
  exact step calls {} [] .empty

theorem Exact.get {c : PageCache} {pages : List PageEntry} (sound : Exact c pages) {k : PageKey} {data : Text}
    {more : Bool} (hit : (c.get k).2 = some (data, more)) :
    filePageGet pages k.session k.path k.version k.offset k.pageBytes = some (data, more) := by
  obtain ⟨i, e, here, rfl, rfl, rfl⟩ := (getLoop_spec k _ c).2 data more hit
  have same (p : PageEntry) : p.same e.page.session e.page.path e.page.version e.page.offset e.page.pageBytes =
      decide (p.key = e.page.key) := by
    rw [Bool.eq_iff_iff]
    simp only [PageEntry.same, PageEntry.key, PageKey.mk.injEq, Bool.and_eq_true, decide_eq_true_eq]
    constructor
    · rintro ⟨⟨⟨⟨version, offset⟩, bytes⟩, session⟩, path⟩
      exact ⟨session, path, version, offset, bytes⟩
    · rintro ⟨session, path, version, offset, bytes⟩
      exact ⟨⟨⟨⟨version, offset⟩, bytes⟩, session⟩, path⟩
  have found := sound.last i e here
  unfold filePageGet
  change (pages.find? fun p =>
    p.same e.page.session e.page.path e.page.version e.page.offset e.page.pageBytes).map _ = _
  simp only [same]
  rw [found]
  rfl

/-- After every run the bytes are those of the pages and within the limit, no key has two pages, a hit is the last
page put, and a whole file is answered only of contiguous pages from its start to its end. -/
theorem page_cache_exact (calls : List Call) :
    (run calls).bytes = ∑ i, (run calls).lengthAt i ∧ (run calls).bytes ≤ filePageCacheBytes ∧
      (∀ i j e e', (run calls).slots i = some e → (run calls).slots j = some e' → e.page.key = e'.page.key → i = j) ∧
      (∀ k data more, ((run calls).get k).2 = some (data, more) →
        filePageGet (putPages calls) k.session k.path k.version k.offset k.pageBytes = some (data, more)) ∧
      ∀ session path version whole, ((run calls).cachedContent session path version).2 = some whole →
        (∃ es, WholeFile (run calls) session path version 0 es ∧ whole = (es.map PageEntry.data).flatten) ∧
          ∀ content, (∀ e ∈ putPages calls, e.path = path → e.version = version → e.pageBytes ≠ 0 → SliceOf content e) →
            whole = content := by
  have sound := exact_run calls
  refine ⟨sound.counted, sound.bounded, sound.unique, fun k data more hit => sound.get hit, ?_⟩
  intro session path version whole done
  obtain ⟨es, pages, rfl⟩ := (cachedContent_spec (run calls) session path version).2 whole done
  refine ⟨⟨es, pages, rfl⟩, fun content slices => ?_⟩
  rw [pages.contiguous.flatten fun e member => ?_, List.drop_zero]
  obtain ⟨-, ofPath, ofVersion, bytes⟩ := pages.own e member
  obtain ⟨i, tick, here⟩ := pages.held e member
  exact slices e (List.mem_of_find?_eq_some (sound.last i _ here)) ofPath ofVersion bytes

end PageCache

end CognitiveOs.Cognition
