import CognitiveOs.Sessions.Table.Loading

/-!
# The index and its pages

After every run the lookup, the recency list, the counter and the pages agree on one list of ids.
-/

namespace CognitiveOs.SessionTable

open Foundation Infra

def Store.walk (s : Store) : (rounds : Nat) → Option Nat → List Entry
  | rounds + 1, some pos =>
    match s.metas[pos]? with
    | none => []
    | some m => m :: s.walk rounds m.next
  | _, _ => []

def Store.liveOf (s : Store) (positions : List Nat) : List Entry :=
  (positions.filterMap fun i => s.metas[i]?).filter fun m => !m.deleted

structure Ordered (s : Store) (order : List Nat) : Prop extends Counted s where
  listed : Listed s order
  all : ∀ i < s.metas.length, i ∈ order

variable {s : Store} {order before rest : List Nat} {recent : List (Text × Bool)} {cursor : Text}

theorem liveOf_append (s : Store) (first second : List Nat) :
    s.liveOf (first ++ second) = s.liveOf first ++ s.liveOf second := by
  simp [Store.liveOf, List.filterMap_append]

theorem liveOf_cons {i : Nat} {m : Entry} (here : s.metas[i]? = some m) (rest : List Nat) :
    s.liveOf (i :: rest) = if m.deleted then s.liveOf rest else m :: s.liveOf rest := by
  unfold Store.liveOf
  rw [List.filterMap_cons, here]
  cases mark : m.deleted <;> simp [mark]

theorem Listed.entry {i : Nat} (listed : Listed s (before ++ i :: rest)) :
    ∃ m, s.metas[i]? = some m ∧ m.next = rest.head? := by
  have inside := listed.inside i (by simp)
  refine ⟨s.metas[i], List.getElem?_eq_getElem inside, ?_⟩
  have next := listed.shows.next_eq
  simpa [Store.links, List.getElem?_eq_getElem inside] using next

theorem walk_eq (listed : Listed s (before ++ rest)) {rounds : Nat} (enough : rest.length ≤ rounds) :
    s.walk rounds rest.head? = rest.filterMap fun i => s.metas[i]? := by
  induction rest generalizing before rounds with
  | nil => cases rounds <;> rfl
  | cons i rest ih =>
    obtain ⟨rounds, rfl⟩ : ∃ more, rounds = more + 1 := ⟨rounds - 1, by simp at enough; omega⟩
    obtain ⟨m, here, next⟩ := listed.entry
    have later := @ih (before ++ [i]) (by simpa using listed) rounds (by simpa using enough)
    rw [List.head?_cons, Store.walk, here, List.filterMap_cons, here]
    dsimp only
    rw [next, later]

theorem fillPage_spec (listed : Listed s (before ++ rest)) {rounds : Nat} (enough : rest.length ≤ rounds) (room : Nat) :
    ∃ taken left, rest = taken ++ left ∧ fillPage s rounds rest.head? room = (s.liveOf taken, left.head?) ∧
      (left ≠ [] → (s.liveOf taken).length = room) := by
  induction rest generalizing before rounds room with
  | nil => exact ⟨[], [], rfl, by cases rounds <;> rfl, fun some => absurd rfl some⟩
  | cons i rest ih =>
    obtain ⟨rounds, rfl⟩ : ∃ more, rounds = more + 1 := ⟨rounds - 1, by simp at enough; omega⟩
    obtain ⟨m, here, next⟩ := listed.entry
    have listed' : Listed s ((before ++ [i]) ++ rest) := by simpa using listed
    cases room with
    | zero => exact ⟨[], i :: rest, rfl, rfl, fun _ => rfl⟩
    | succ room =>
      rw [List.head?_cons, fillPage, here]
      dsimp only
      rw [next]
      cases mark : m.deleted with
      | true =>
        obtain ⟨taken, left, rfl, page, full⟩ := @ih (before ++ [i]) listed' rounds (by simpa using enough) (room + 1)
        have same : s.liveOf (i :: taken) = s.liveOf taken := by rw [liveOf_cons here, mark, if_pos rfl]
        exact ⟨i :: taken, left, rfl, by rw [same]; exact page, by rwa [same]⟩
      | false =>
        obtain ⟨taken, left, rfl, page, full⟩ := @ih (before ++ [i]) listed' rounds (by simpa using enough) room
        have same : s.liveOf (i :: taken) = m :: s.liveOf taken := by
          rw [liveOf_cons here, mark]
          rfl
        refine ⟨i :: taken, left, rfl, ?_, ?_⟩
        · rw [same, page]
          rfl
        · intro some
          rw [same, List.length_cons, full some]

theorem skipDeleted_spec (listed : Listed s (before ++ rest)) {rounds : Nat} (enough : rest.length ≤ rounds) :
    ∃ dead left, rest = dead ++ left ∧ s.liveOf dead = [] ∧ skipDeleted s rounds rest.head? = left.head? := by
  induction rest generalizing before rounds with
  | nil => exact ⟨[], [], rfl, rfl, by cases rounds <;> rfl⟩
  | cons i rest ih =>
    obtain ⟨rounds, rfl⟩ : ∃ more, rounds = more + 1 := ⟨rounds - 1, by simp at enough; omega⟩
    obtain ⟨m, here, next⟩ := listed.entry
    rw [List.head?_cons, skipDeleted, here]
    dsimp only
    cases mark : m.deleted with
    | true =>
      obtain ⟨dead, left, rfl, none, skip⟩ :=
        @ih (before ++ [i]) (by simpa using listed) rounds (by simpa using enough)
      refine ⟨i :: dead, left, rfl, by rw [liveOf_cons here, mark, if_pos rfl, none], ?_⟩
      rw [if_pos rfl, next, skip]
    | false => exact ⟨[], i :: rest, rfl, rfl, rfl⟩

inductive Points (s : Store) (order : List Nat) : Text → List Nat → Prop where
  | start : Points s order [] order
  | entry {before rest : List Nat} {i : Nat} {id : Text} : order = before ++ i :: rest → s.ids[i]? = some id → id ≠ [] →
      Points s order id (i :: rest)

theorem Points.suffix (points : Points s order cursor rest) : ∃ before, order = before ++ rest := by
  cases points with
  | start => exact ⟨[], rfl⟩
  | @entry before rest i _ split _ _ => exact ⟨before, split⟩

theorem Sound.ordered (sound : Sound s recent) : ∃ order, Ordered s order ∧ s.shown order = recent := by
  obtain ⟨order, listed, all, shown⟩ := sound.listed
  exact ⟨order, ⟨sound.toCounted, listed, all⟩, shown⟩

theorem Ordered.length_le (ordered : Ordered s order) {before rest : List Nat} (split : order = before ++ rest) :
    rest.length ≤ s.metas.length := by
  have part : rest.Nodup := by
    have nodup := ordered.listed.shows.nodup
    rw [split] at nodup
    exact (List.nodup_append.mp nodup).2.1
  have inside : rest ⊆ List.range s.metas.length := by
    intro i member
    exact List.mem_range.mpr (ordered.listed.inside i (split ▸ List.mem_append_right _ member))
  have le := (List.subperm_of_subset part inside).length_le
  rwa [List.length_range] at le

theorem Ordered.start (ordered : Ordered s order) (points : Points s order cursor rest) :
    ∃ t, (if cursor = [] then (s, s.head) else metaFind s cursor) = (t, rest.head?) ∧ Ordered t order ∧
      t.metas = s.metas := by
  cases points with
  | start =>
    have head : s.head = order.head? := ordered.listed.shows.head
    exact ⟨s, by rw [if_pos rfl, head], ordered, rfl⟩
  | @entry before rest i id split here named =>
    obtain ⟨slots, r, found, synced, at_r, none⟩ := metaFind_spec ordered.table cursor
    have same : r = some i := by
      cases r with
      | none => exact absurd (List.mem_of_getElem? here) (none rfl)
      | some j =>
        have inside := (List.getElem?_eq_some_iff.mp here).1
        rw [(List.getElem?_inj inside ordered.distinct).mp (here.trans (at_r j rfl).symm)]
    rw [if_neg named, found, same]
    exact ⟨_, rfl, ⟨ordered.toCounted.sync synced, ordered.listed.congr rfl (Nat.le_refl _), ordered.all⟩, rfl⟩

theorem Ordered.page (ordered : Ordered s order) (points : Points s order cursor rest) (limit : Nat) :
    ∃ t page left, sessionsPage s cursor limit = (t, page) ∧ Ordered t order ∧ t.metas = s.metas ∧
      s.liveOf rest = page.sessions ++ s.liveOf left ∧
      (page.nextCursor = none ∧ left = [] ∨
        0 < page.sessions.length ∧ ∃ next, page.nextCursor = some next ∧ Points t order next left) := by
  obtain ⟨t, found, ordered', metas⟩ := ordered.start points
  obtain ⟨before, whole⟩ := points.suffix
  have room : 0 < if limit = 0 ∨ 100 < limit then 12 else limit := by split <;> omega
  generalize size : (if limit = 0 ∨ 100 < limit then 12 else limit) = room' at room
  have listed : Listed t (before ++ rest) := whole ▸ ordered'.listed
  obtain ⟨taken, behind, rfl, page, full⟩ := fillPage_spec listed (ordered'.length_le whole) room'
  have listed' : Listed t ((before ++ taken) ++ behind) := by rwa [List.append_assoc]
  obtain ⟨dead, left, rfl, none, skip⟩ :=
    skipDeleted_spec listed' (ordered'.length_le (whole.trans (List.append_assoc _ _ _).symm))
  have same : ∀ positions, t.liveOf positions = s.liveOf positions := by
    intro positions
    rw [Store.liveOf, metas]
    rfl
  refine ⟨t, ⟨t.liveOf taken, t.live, left.head?.bind fun pos => t.metas[pos]?.map Entry.id⟩, left, ?_, ordered', metas,
    ?_, ?_⟩
  · unfold sessionsPage
    simp only [found, size, page, skip]
  · rw [liveOf_append, liveOf_append, ← same taken, ← same dead, none, List.nil_append]
  · cases left with
    | nil => exact .inl ⟨rfl, rfl⟩
    | cons i left =>
      obtain ⟨m, here, -⟩ := @Listed.entry t (before ++ taken ++ dead) left i (by simpa using listed')
      have id : t.ids[i]? = some m.id := by rw [Store.ids, List.getElem?_map, here]; rfl
      refine .inr ⟨by rwa [full (by simp)], m.id, by simp [here], ?_⟩
      have split : order = (before ++ taken ++ dead) ++ i :: left := by rw [whole]; simp
      exact .entry split id (ordered'.fits m.id (List.mem_of_getElem? id)).1

theorem Ordered.follow (ordered : Ordered s order) (points : Points s order cursor rest) (limits : List Nat)
    (enough : (s.liveOf rest).length ≤ limits.length) :
    (followPages s limits cursor).flatMap Page.sessions = s.liveOf rest := by
  induction limits generalizing s cursor rest with
  | nil =>
    rw [List.length_eq_zero_iff.mp (Nat.le_zero.mp enough)]
    rfl
  | cons limit limits ih =>
    obtain ⟨t, page, left, one, ordered', metas, live, next⟩ := ordered.page points limit
    have same : ∀ positions, t.liveOf positions = s.liveOf positions := by
      intro positions
      rw [Store.liveOf, metas]
      rfl
    rw [followPages, one, live]
    dsimp only
    rcases next with ⟨last, rfl⟩ | ⟨some, next, more, points'⟩
    · rw [last]
      simp [Store.liveOf]
    · rw [more]
      have rest := ih ordered' points' (by
        rw [same]
        rw [live, List.length_append, List.length_cons] at enough
        omega)
      rw [same] at rest
      simp [rest]

end CognitiveOs.SessionTable

/-!
## Runs of the session index

After every run the lookup, the recency list, the counter and the pages agree with what the steps say
was touched and deleted.
-/

namespace CognitiveOs.SessionTable

open Foundation Infra

/-- The index as an abstract list: the ids, the most recently touched first, each alive or deleted. -/
structure Recall where
  recent : List (Text × Bool) := []
  loaded : Bool := false

def recalled (recent : List (Text × Bool)) : Files → List (Text × Bool)
  | .journal lines => lines.foldl replayed recent
  | .index items transcripts => (latestFirst items transcripts).map fun m => (m.id, true)

def Recall.step (a : Recall) : Act → Recall
  | .load files => if a.loaded then a else { recent := recalled a.recent files, loaded := true }
  | .find _ => a
  | .upsert id _ => { a with recent := touched a.recent id true }
  | .delete id => { a with recent := buried a.recent id }

/-- Published ids fit their entry, and the small index is read before the store is used. -/
def Proper (s : Store) : Act → Prop
  | .upsert id _ => Fits id
  | .load (.index items transcripts) => s.loaded = false → s.metas = [] ∧ Readable items transcripts
  | _ => True

def sessionIndex : Machine Store Act :=
  Machine.ofFun Store.step

structure Stands (s : Store) (a : Recall) : Prop where
  sound : Sound s a.recent
  loaded : s.loaded = a.loaded

variable {s : Store} {a : Recall}

/-! ### The flag -/

theorem loaded_sync (s : Store) : (metaIndexSync s).loaded = s.loaded := by
  have grown : s.grown.loaded = s.loaded := by
    unfold Store.grown
    dsimp only
    split <;> rfl
  have one : ∀ s : Store, s.indexOne.loaded = s.loaded := by
    intro s
    unfold Store.indexOne
    split
    · rfl
    · dsimp only
      split <;> rfl
  have rest : ∀ rounds, ∀ s : Store, (s.indexRest rounds).loaded = s.loaded := by
    intro rounds
    induction rounds with
    | zero => intro s; rfl
    | succ rounds ih =>
      intro s
      rw [Store.indexRest, ih, one]
  exact (rest _ _).trans grown

theorem loaded_find (s : Store) (id : Text) : (metaFind s id).1.loaded = s.loaded :=
  loaded_sync s

theorem loaded_ensure (s : Store) (id : Text) : (metaEnsure s id).1.loaded = s.loaded := by
  have found := loaded_find s id
  unfold metaEnsure
  generalize metaFind s id = pair at found
  obtain ⟨t, r⟩ := pair
  cases r with
  | some i => exact found
  | none => exact (loaded_sync _).trans found

theorem loaded_touch (s : Store) (i : Nat) : (metaTouch s i).loaded = s.loaded :=
  (same_touch s i).loaded

theorem loaded_upsert (s : Store) (id : Text) (fields : Fields) : (metaUpsert s id fields).loaded = s.loaded := by
  have made := loaded_ensure s id
  unfold metaUpsert
  generalize metaEnsure s id = pair at made
  obtain ⟨t, i⟩ := pair
  dsimp only at made ⊢
  rw [loaded_touch, ← made]
  split <;> rfl

theorem loaded_delete (s : Store) (id : Text) : (metaDelete s id).loaded = s.loaded := by
  have found := loaded_find s id
  unfold metaDelete
  generalize metaFind s id = pair at found
  obtain ⟨t, r⟩ := pair
  cases r with
  | none => exact found
  | some i =>
    dsimp only at found ⊢
    split <;> exact found

theorem loaded_replay (s : Store) (r : Record) : (replay s r).loaded = s.loaded := by
  have made := loaded_ensure s r.id
  unfold replay
  split
  · rfl
  · generalize metaEnsure s r.id = pair at made
    obtain ⟨t, i⟩ := pair
    exact (loaded_touch _ i).trans made

theorem loaded_heal (s : Store) (transcript : Text × Text) : (heal s transcript).loaded = s.loaded := by
  have found := loaded_find s transcript.1
  unfold heal
  generalize metaFind s transcript.1 = pair at found
  obtain ⟨t, r⟩ := pair
  cases r <;> exact found

theorem loaded_readItem (s : Store) (r : Record) : (readItem s r).loaded = s.loaded := by
  unfold readItem
  split <;> rfl

theorem loaded_foldl {α : Type} {step : Store → α → Store} (keeps : ∀ s x, (step s x).loaded = s.loaded)
    (l : List α) (s : Store) : (l.foldl step s).loaded = s.loaded := by
  induction l generalizing s with
  | nil => rfl
  | cons x l ih => exact (ih _).trans (keeps s x)

theorem loaded_load (s : Store) (files : Files) : (metaLoad s files).loaded = true := by
  unfold metaLoad
  split
  next already => exact already
  · cases files with
    | journal lines => exact loaded_foldl loaded_replay lines _
    | index items transcripts =>
      dsimp only
      rw [loaded_foldl loaded_touch]
      dsimp only
      rw [loaded_sync]
      dsimp only
      rw [loaded_foldl loaded_heal, loaded_foldl loaded_readItem]

/-! ### One step -/

theorem Stands.load (stands : Stands s a) {files : Files} (proper : Proper s (.load files)) :
    Stands (metaLoad s files) (a.step (.load files)) := by
  refine ⟨?_, ?_⟩
  · cases flag : s.loaded with
    | true =>
      have same : metaLoad s files = s := if_pos flag
      rw [same, Recall.step, if_pos (stands.loaded ▸ flag)]
      exact stands.sound
    | false =>
      have fresh : ¬ a.loaded = true := by
        rw [← stands.loaded, flag]
        exact Bool.false_ne_true
      rw [Recall.step, if_neg fresh]
      cases files with
      | journal lines =>
        obtain ⟨order, listed, all, shown⟩ := stands.sound.listed
        have opened : Sound { s with loaded := true } a.recent :=
          ⟨⟨stands.sound.table, stands.sound.distinct, stands.sound.fits, stands.sound.live⟩, order,
            listed.congr rfl (Nat.le_refl _), all, shown⟩
        unfold metaLoad
        rw [if_neg (by simp [flag])]
        exact opened.journal lines
      | index items transcripts =>
        obtain ⟨empty, readable⟩ := proper flag
        have none : a.recent = [] := by
          obtain ⟨order, -, -, shown⟩ := stands.sound.listed
          rw [← shown, Store.shown, Store.faces, empty]
          simp
        exact (none ▸ stands.sound).index flag readable
  · rw [loaded_load, Recall.step]
    split
    next already => exact already.symm
    · rfl

theorem Stands.step (stands : Stands s a) {act : Act} (proper : Proper s act) : Stands (s.step act) (a.step act) := by
  cases act with
  | load files => exact stands.load proper
  | find id => exact ⟨stands.sound.find id, (loaded_find s id).trans stands.loaded⟩
  | upsert id fields => exact ⟨stands.sound.upsert proper fields, (loaded_upsert s id fields).trans stands.loaded⟩
  | delete id => exact ⟨stands.sound.delete id, (loaded_delete s id).trans stands.loaded⟩

theorem stands_nil : Stands {} {} where
  sound := by
    refine ⟨⟨table_nil [], List.nodup_nil, fun id member => absurd member List.not_mem_nil, rfl⟩, [], ?_, ?_, rfl⟩
    · exact listed_nil ⟨List.nodup_nil, by simp, by simp, by simp⟩ ⟨rfl, rfl⟩
    · exact fun i less => absurd less (Nat.not_lt_zero i)
  loaded := rfl

theorem Stands.run {labels : List Act} (run : (sessionIndex.restrict Proper).Run {} labels s) :
    Stands s (labels.foldl Recall.step {}) := by
  generalize start : ({} : Store) = first at run
  induction run with
  | start =>
    subst start
    exact stands_nil
  | step _ taken ih =>
    obtain ⟨proper, rfl⟩ := taken
    rw [List.foldl_append]
    exact ih.step proper

/-! ### What the list shows -/

theorem Sound.found (sound : Sound s a.recent) (id : Text) (i : Nat) :
    (metaFind s id).2 = some i ↔ ∃ m, s.metas[i]? = some m ∧ m.id = id := by
  obtain ⟨slots, r, found, -, here, none⟩ := metaFind_spec sound.table id
  have entry : ∀ j : Nat, s.ids[j]? = some id ↔ ∃ m, s.metas[j]? = some m ∧ m.id = id := by
    intro j
    rw [Store.ids, List.getElem?_map, Option.map_eq_some_iff]
  rw [found, ← entry]
  constructor
  · exact here i
  · intro at_i
    cases r with
    | none => exact absurd (List.mem_of_getElem? at_i) (none rfl)
    | some j =>
      have inside := (List.getElem?_eq_some_iff.mp at_i).1
      exact congrArg some ((List.getElem?_inj inside sound.distinct).mp (at_i.trans (here j rfl).symm)).symm

theorem Ordered.walk {order : List Nat} (ordered : Ordered s order) :
    s.walk s.metas.length s.head = order.filterMap fun i => s.metas[i]? := by
  have listed : Listed s ([] ++ order) := ordered.listed
  have head : s.head = order.head? := ordered.listed.shows.head
  rw [head]
  exact walk_eq listed (ordered.length_le (List.nil_append order).symm)

theorem Ordered.perm {order : List Nat} (ordered : Ordered s order) :
    (order.filterMap fun i => s.metas[i]?).Perm s.metas := by
  have perm : order.Perm (List.range s.metas.length).reverse := by
    refine (List.perm_ext_iff_of_nodup ordered.listed.shows.nodup ?_).mpr fun i => ?_
    · exact List.nodup_reverse.mpr List.nodup_range
    · rw [List.mem_reverse, List.mem_range]
      exact ⟨ordered.listed.inside i, ordered.all i⟩
  have mapped := perm.filterMap fun i => s.metas[i]?
  rw [filterMap_range_reverse] at mapped
  exact mapped.trans (List.reverse_perm _)

theorem live_entries (s : Store) : s.faces.countP Prod.snd = s.metas.countP fun m => !m.deleted := by
  rw [Store.faces, List.countP_map]
  rfl

theorem Ordered.pages {order : List Nat} (ordered : Ordered s order) {limits : List Nat}
    (enough : s.live ≤ limits.length) :
    (followPages s limits []).flatMap Page.sessions =
      (s.walk s.metas.length s.head).filter fun m => !m.deleted := by
  have lives : (s.liveOf order).length = s.live := by
    rw [ordered.live, live_entries, ← ordered.perm.countP_eq, List.countP_eq_length_filter]
    rfl
  rw [ordered.walk, ordered.follow .start limits (by rw [lives]; exact enough)]
  rfl

/-- After every run the lookup finds the entry of an id and no other, the list from its head on holds
every entry once, the most recently touched first, the counter counts the live entries, and pages of
any sizes list each of them once. -/
theorem session_index_consistent {labels : List Act} (run : (sessionIndex.restrict Proper).Run {} labels s) :
    (∀ id i, (metaFind s id).2 = some i ↔ ∃ m, s.metas[i]? = some m ∧ m.id = id) ∧
      (s.metas.map Entry.id).Nodup ∧
      (s.walk s.metas.length s.head).Perm s.metas ∧
      (s.walk s.metas.length s.head).map Entry.face = (labels.foldl Recall.step {}).recent ∧
      (s.live = s.metas.countP fun m => !m.deleted) ∧
      ∀ limits : List Nat, s.live ≤ limits.length →
        (followPages s limits []).flatMap Page.sessions =
          (s.walk s.metas.length s.head).filter fun m => !m.deleted := by
  have sound := (Stands.run run).sound
  obtain ⟨order, ordered, shown⟩ := sound.ordered
  refine ⟨sound.found, sound.distinct, ?_, ?_, ?_, fun limits enough => ordered.pages enough⟩
  · rw [ordered.walk]
    exact ordered.perm
  · rw [ordered.walk, ← shown, Store.shown, Store.faces, List.map_filterMap]
    refine List.filterMap_congr fun i _ => ?_
    rw [List.getElem?_map]
  · rw [sound.live, live_entries]

def reused : List Act :=
  [.upsert [97] {}, .upsert [98] {}, .delete [97], .upsert [97] {}]

theorem run_of_proper {labels : List Act} (proper : ∀ act ∈ labels, ∀ s, Proper s act) (s : Store) :
    (sessionIndex.restrict Proper).Run s labels (labels.foldl Store.step s) := by
  induction labels generalizing s with
  | nil => exact .start s
  | cons act labels ih =>
    obtain ⟨here, later⟩ := List.forall_mem_cons.mp proper
    exact Machine.Run.cons ⟨here s, rfl⟩ (ih later _)

theorem reused_proper : ∀ act ∈ reused, ∀ s, Proper s act := by
  have a : Fits [97] := by decide
  have b : Fits [98] := by decide
  simp [reused, Proper, a, b]

theorem session_index_consistent_reused :
    (reused.foldl Recall.step {}).recent = [([97], true), ([98], true)] ∧
      (let s := reused.foldl Store.step {}
      (s.walk s.metas.length s.head).map Entry.face = (reused.foldl Recall.step {}).recent) :=
  ⟨by decide, (session_index_consistent (run_of_proper reused_proper {})).2.2.2.1⟩

/-- The lookup also finds an entry that was deleted. -/
theorem deleted_session_found : ¬ ∀ labels s, (sessionIndex.restrict Proper).Run {} labels s →
    ∀ id i, (metaFind s id).2 = some i → ∃ m, s.metas[i]? = some m ∧ m.id = id ∧ m.deleted = false := by
  intro lives
  let labels : List Act := [.upsert [97] {}, .delete [97]]
  have fits : Fits [97] := by decide
  have proper : ∀ act ∈ labels, ∀ s, Proper s act := by simp [labels, Proper, fits]
  obtain ⟨m, here, -, alive⟩ := lives labels _ (run_of_proper proper {}) [97] 0 (by decide +kernel)
  have dead : ((labels.foldl Store.step {}).metas[0]?.map Entry.deleted) = some true := by decide +kernel
  rw [here] at dead
  simp [alive] at dead

end CognitiveOs.SessionTable
