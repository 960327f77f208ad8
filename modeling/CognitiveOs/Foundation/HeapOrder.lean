import CognitiveOs.Foundation.Heap
import Mathlib.Data.List.Sort

/-!
# The order a binary heap keeps

Both sifts start from a heap that is in order except around the hole and end with a
heap that is in order everywhere, so the first entry is a least one after any number
of insertions and removals.
-/

namespace Foundation.Heap

universe u

variable {Entry : Type u}

/-- What the sifts need of a comparison: it is a strict weak order. -/
structure Weak (less : Entry → Entry → Bool) : Prop where
  asymm : ∀ {a b}, less a b = true → less b a = false
  trans : ∀ {a b c}, less a b = false → less b c = false → less a c = false

variable {less : Entry → Entry → Bool}

theorem Weak.irrefl (weak : Weak less) (a : Entry) : less a a = false := by
  cases same : less a a with
  | false => rfl
  | true => exact same.symm.trans (weak.asymm same)

theorem Weak.below (weak : Weak less) {a b c : Entry} (first : less a b = true)
    (second : less c b = false) : less c a = false := by
  cases before : less c a with
  | false => rfl
  | true =>
    have reached := weak.trans (weak.asymm before) second
    rw [first] at reached
    exact absurd reached (by simp)

/-- The entry at `index` does not come before its parent. -/
def InOrder (less : Entry → Entry → Bool) (heap : List Entry) (index : Nat) : Prop :=
  ∀ child ∈ heap[index]?, ∀ parent ∈ heap[(index - 1) / 2]?, less child parent = false

def Ordered (less : Entry → Entry → Bool) (heap : List Entry) : Prop :=
  ∀ index, 0 < index → InOrder less heap index

/-- The order around a hole: pairs that do not touch it are in order, and so are its
children with its parent. -/
structure Hollow (less : Entry → Entry → Bool) (heap : List Entry) (hole : Nat) : Prop where
  off : ∀ index, 0 < index → index ≠ hole → (index - 1) / 2 ≠ hole → InOrder less heap index
  across : ∀ index, 0 < index → (index - 1) / 2 = hole → 0 < hole →
    ∀ child ∈ heap[index]?, ∀ grand ∈ heap[(hole - 1) / 2]?, less child grand = false

/-- No child of the hole comes before `entry`. -/
def Below (less : Entry → Entry → Bool) (heap : List Entry) (hole : Nat) (entry : Entry) : Prop :=
  ∀ index, 0 < index → (index - 1) / 2 = hole → ∀ child ∈ heap[index]?, less child entry = false

/-- `entry` does not come before the hole's parent. -/
def Above (less : Entry → Entry → Bool) (heap : List Entry) (hole : Nat) (entry : Entry) : Prop :=
  0 < hole → ∀ parent ∈ heap[(hole - 1) / 2]?, less entry parent = false

variable {heap : List Entry} {hole : Nat} {entry : Entry}

theorem mem_set_self {found : Entry} (present : found ∈ (heap.set hole entry)[hole]?) : found = entry := by
  have inside : hole < heap.length := by
    by_contra outside
    rw [List.getElem?_eq_none (by simp; omega)] at present
    cases present
  rw [List.getElem?_set_self inside] at present
  simpa using present.symm

theorem Hollow.fill (hollow : Hollow less heap hole) (above : Above less heap hole entry)
    (below : Below less heap hole entry) : Ordered less (heap.set hole entry) := by
  intro index positive child childFound parent parentFound
  by_cases here : index = hole
  · subst here
    rw [mem_set_self childFound]
    rw [List.getElem?_set_ne (by omega)] at parentFound
    exact above positive parent parentFound
  · rw [List.getElem?_set_ne (Ne.symm here)] at childFound
    by_cases under : (index - 1) / 2 = hole
    · rw [under] at parentFound
      rw [mem_set_self parentFound]
      exact below index positive under child childFound
    · rw [List.getElem?_set_ne (Ne.symm under)] at parentFound
      exact hollow.off index positive here under child childFound parent parentFound

theorem Ordered.hollow (weak : Weak less) (ordered : Ordered less heap) (hole : Nat) : Hollow less heap hole := by
  refine ⟨fun index positive _ _ => ordered index positive, ?_⟩
  intro index positive under inner child childFound grand grandFound
  cases middleFound : heap[hole]? with
  | none =>
    have outside := List.getElem?_eq_none_iff.mp middleFound
    rw [List.getElem?_eq_none (by omega)] at childFound
    cases childFound
  | some middle =>
    have lower := ordered index positive child childFound middle (by rw [under]; exact middleFound)
    exact weak.trans lower (ordered hole inner middle middleFound grand grandFound)

theorem Hollow.up (weak : Weak less) {parent : Entry} (hollow : Hollow less heap hole)
    (below : Below less heap hole entry) (inner : 0 < hole) (found : heap[(hole - 1) / 2]? = some parent)
    (before : less entry parent = true) :
    Hollow less (heap.set hole parent) ((hole - 1) / 2) ∧
      Below less (heap.set hole parent) ((hole - 1) / 2) entry := by
  have lower : ∀ index, 0 < index → (index - 1) / 2 = (hole - 1) / 2 →
      ∀ child ∈ (heap.set hole parent)[index]?, less child parent = false := by
    intro index positive under child childFound
    by_cases here : index = hole
    · subst here
      rw [mem_set_self childFound]
      exact weak.irrefl parent
    · rw [List.getElem?_set_ne (Ne.symm here)] at childFound
      exact hollow.off index positive here (by omega) child childFound parent (by rw [under]; exact found)
  refine ⟨⟨?_, ?_⟩, ?_⟩
  · intro index positive notParent notUnder child childFound other otherFound
    have here : index ≠ hole := by rintro rfl; exact notUnder rfl
    rw [List.getElem?_set_ne (Ne.symm here)] at childFound
    by_cases under : (index - 1) / 2 = hole
    · rw [under] at otherFound
      rw [mem_set_self otherFound]
      exact hollow.across index positive under inner child childFound parent found
    · rw [List.getElem?_set_ne (Ne.symm under)] at otherFound
      exact hollow.off index positive here under child childFound other otherFound
  · intro index positive under innerParent child childFound grand grandFound
    rw [List.getElem?_set_ne (by omega)] at grandFound
    have upper : less parent grand = false :=
      hollow.off ((hole - 1) / 2) innerParent (by omega) (by omega) parent found grand grandFound
    exact weak.trans (lower index positive under child childFound) upper
  · intro index positive under child childFound
    exact weak.below before (lower index positive under child childFound)

theorem siftUp_ordered (weak : Weak less) (entry : Entry) {fuel : Nat} (enough : hole ≤ fuel)
    (inside : hole < heap.length) (hollow : Hollow less heap hole) (below : Below less heap hole entry) :
    Ordered less (siftUp less entry fuel heap hole) := by
  induction fuel generalizing heap hole with
  | zero => exact hollow.fill (fun inner => absurd inner (by omega)) below
  | succ fuel ih =>
    simp only [siftUp]
    split
    next parent found =>
      split
      next before =>
        obtain ⟨inner, before⟩ := before
        obtain ⟨hollow', below'⟩ := hollow.up weak below inner found before
        exact ih (by omega) (by simp; omega) hollow' below'
      next stays =>
        refine hollow.fill ?_ below
        intro inner other otherFound
        obtain rfl : parent = other := by simpa [found] using otherFound
        simpa [inner] using stays
    next missing =>
      have outside := List.getElem?_eq_none_iff.mp missing
      omega

theorem firstChild_least (weak : Weak less) {child : Nat} {value : Entry}
    (found : firstChild less heap hole = some (child, value)) :
    (child = 2 * hole + 1 ∨ child = 2 * hole + 2) ∧
      ∀ index, 0 < index → (index - 1) / 2 = hole → ∀ other ∈ heap[index]?, less other value = false := by
  have sides : ∀ index, 0 < index → (index - 1) / 2 = hole → index = 2 * hole + 1 ∨ index = 2 * hole + 2 := by
    intro index positive under
    omega
  unfold firstChild at found
  split at found
  · simp at found
  · next left leftFound =>
    split at found
    · next right rightFound =>
      split at found
      · next before =>
        cases found
        refine ⟨.inr rfl, ?_⟩
        intro index positive under other otherFound
        rcases sides index positive under with rfl | rfl
        · obtain rfl : left = other := by simpa [leftFound] using otherFound
          exact weak.asymm before
        · obtain rfl : value = other := by simpa [rightFound] using otherFound
          exact weak.irrefl _
      · next after =>
        cases found
        refine ⟨.inl rfl, ?_⟩
        intro index positive under other otherFound
        rcases sides index positive under with rfl | rfl
        · obtain rfl : value = other := by simpa [leftFound] using otherFound
          exact weak.irrefl _
        · obtain rfl : right = other := by simpa [rightFound] using otherFound
          simpa using after
    · next missing =>
      cases found
      refine ⟨.inl rfl, ?_⟩
      intro index positive under other otherFound
      rcases sides index positive under with rfl | rfl
      · obtain rfl : value = other := by simpa [leftFound] using otherFound
        exact weak.irrefl _
      · rw [missing] at otherFound
        cases otherFound

theorem firstChild_none (missing : firstChild less heap hole = none) : heap.length ≤ 2 * hole + 1 := by
  unfold firstChild at missing
  split at missing
  · next absent => exact List.getElem?_eq_none_iff.mp absent
  · split at missing
    · split at missing <;> cases missing
    · cases missing

theorem Hollow.down (weak : Weak less) {child : Nat} {value : Entry} (hollow : Hollow less heap hole)
    (found : firstChild less heap hole = some (child, value)) (before : less value entry = true) :
    Hollow less (heap.set hole value) child ∧ Above less (heap.set hole value) child entry := by
  obtain ⟨present, -, -⟩ := firstChild_spec found
  obtain ⟨side, least⟩ := firstChild_least weak found
  have under : (child - 1) / 2 = hole := by omega
  refine ⟨⟨?_, ?_⟩, ?_⟩
  · intro index positive notChild notUnder lower lowerFound upper upperFound
    by_cases here : index = hole
    · subst here
      rw [mem_set_self lowerFound]
      rw [List.getElem?_set_ne (by omega)] at upperFound
      exact hollow.across child (by omega) under positive value present upper upperFound
    · rw [List.getElem?_set_ne (Ne.symm here)] at lowerFound
      by_cases sibling : (index - 1) / 2 = hole
      · rw [sibling] at upperFound
        rw [mem_set_self upperFound]
        exact least index positive sibling lower lowerFound
      · rw [List.getElem?_set_ne (Ne.symm sibling)] at upperFound
        exact hollow.off index positive here sibling lower lowerFound upper upperFound
  · intro index positive underChild _ lower lowerFound upper upperFound
    rw [under] at upperFound
    rw [mem_set_self upperFound]
    rw [List.getElem?_set_ne (by omega)] at lowerFound
    exact hollow.off index positive (by omega) (by omega) lower lowerFound value (by rw [underChild]; exact present)
  · intro _ upper upperFound
    rw [under] at upperFound
    rw [mem_set_self upperFound]
    exact weak.asymm before

theorem siftDown_ordered (weak : Weak less) (entry : Entry) {fuel : Nat} (enough : heap.length ≤ fuel + hole)
    (inside : hole < heap.length) (hollow : Hollow less heap hole) (above : Above less heap hole entry) :
    Ordered less (siftDown less entry fuel heap hole) := by
  induction fuel generalizing heap hole with
  | zero => omega
  | succ fuel ih =>
    simp only [siftDown]
    split
    next child value found =>
      obtain ⟨-, -, childInside⟩ := firstChild_spec found
      obtain ⟨side, least⟩ := firstChild_least weak found
      split
      next before =>
        obtain ⟨hollow', above'⟩ := hollow.down weak found before
        exact ih (by simp; omega) (by simpa using childInside) hollow' above'
      next stays =>
        refine hollow.fill above ?_
        intro index positive under other otherFound
        exact weak.trans (least index positive under other otherFound) (by simpa using stays)
    next missing =>
      have leaf := firstChild_none missing
      refine hollow.fill above ?_
      intro index positive under other otherFound
      rw [List.getElem?_eq_none (by omega)] at otherFound
      cases otherFound

theorem ordered_nil (less : Entry → Entry → Bool) : Ordered less [] := by
  intro index _ child childFound
  simp at childFound

theorem insert_ordered (weak : Weak less) (ordered : Ordered less heap) (entry : Entry) :
    Ordered less (insert less heap entry) := by
  have leaf : ∀ index, 0 < index → (index - 1) / 2 = heap.length → (heap ++ [entry])[index]? = none := by
    intro index _ under
    exact List.getElem?_eq_none (by simp; omega)
  refine siftUp_ordered weak entry (Nat.le_refl _) (by simp) ⟨?_, ?_⟩ ?_
  · intro index positive here under child childFound parent parentFound
    have inside : index < heap.length := by
      obtain ⟨bound, -⟩ := List.getElem?_eq_some_iff.mp childFound
      simp at bound
      omega
    rw [List.getElem?_append_left inside] at childFound
    rw [List.getElem?_append_left (by omega)] at parentFound
    exact ordered index positive child childFound parent parentFound
  · intro index positive under _ child childFound
    rw [leaf index positive under] at childFound
    cases childFound
  · intro index positive under child childFound
    rw [leaf index positive under] at childFound
    cases childFound

theorem Ordered.dropLast (ordered : Ordered less heap) : Ordered less heap.dropLast := by
  have part : ∀ (index : Nat) (entry : Entry), entry ∈ heap.dropLast[index]? → entry ∈ heap[index]? := by
    intro index entry found
    rw [List.getElem?_dropLast] at found
    split at found
    · exact found
    · cases found
  intro index positive child childFound parent parentFound
  exact ordered index positive child (part _ _ childFound) parent (part _ _ parentFound)

variable {rest : List Entry} {top : Entry}

theorem pop_ordered (weak : Weak less) (ordered : Ordered less heap) (popped : pop less heap = some (top, rest)) :
    Ordered less rest := by
  unfold pop at popped
  split at popped
  · next head tail last lastFound =>
    cases popped
    split
    · exact ordered_nil less
    · next nonempty =>
      refine siftDown_ordered weak last (by simp) ?_ (ordered.dropLast.hollow weak 0) ?_
      · exact List.length_pos_iff.mpr (by simpa using nonempty)
      · intro inner
        omega
  · simp at popped

theorem Ordered.least (weak : Weak less) (ordered : Ordered less heap) (first : heap[0]? = some top) (index : Nat) :
    ∀ entry ∈ heap[index]?, less entry top = false := by
  induction index using Nat.strongRecOn with
  | ind index ih =>
    intro entry found
    rcases Nat.eq_zero_or_pos index with rfl | positive
    · obtain rfl : top = entry := by simpa [first] using found
      exact weak.irrefl top
    · obtain ⟨inside, -⟩ := List.getElem?_eq_some_iff.mp found
      have parentFound : heap[(index - 1) / 2]? = some heap[(index - 1) / 2] :=
        List.getElem?_eq_getElem (by omega)
      exact weak.trans (ordered index positive entry found _ parentFound)
        (ih _ (by omega) _ parentFound)

theorem pop_top (popped : pop less heap = some (top, rest)) : heap[0]? = some top := by
  unfold pop at popped
  split at popped
  · cases popped
    rfl
  · simp at popped

theorem pop_least (weak : Weak less) (ordered : Ordered less heap) (popped : pop less heap = some (top, rest)) :
    ∀ entry ∈ rest, less entry top = false := by
  intro entry member
  have kept : entry ∈ heap := (pop_perm popped).symm.subset (by simp [member])
  obtain ⟨index, found⟩ := List.mem_iff_getElem?.mp kept
  exact ordered.least weak (pop_top popped) index entry found

theorem pop_eq_none : pop less heap = none ↔ heap = [] := by
  constructor
  · intro empty
    by_contra nonempty
    have taken := pop_isSome less nonempty
    rw [empty] at taken
    cases taken
  · rintro rfl
    rfl

/-! ## The sorted list the heap stands for -/

inductive Observed (Entry : Type u) where
  | inserted (entry : Entry)
  /-- There was no room for the entry. -/
  | refused (entry : Entry)
  | popped (entry : Option Entry)
  deriving DecidableEq

def sortedStep (less : Entry → Entry → Bool) [DecidableEq Entry] (sorted : List Entry) :
    Observed Entry → Option (List Entry)
  | .inserted entry => some (sorted.orderedInsert (fun a b => less b a = false) entry)
  | .refused _ => some sorted
  | .popped none => if sorted = [] then some [] else none
  | .popped (some entry) => if sorted.head? = some entry then some sorted.tail else none

structure Represents (less : Entry → Entry → Bool) (heap sorted : List Entry) : Prop where
  ordered : Ordered less heap
  perm : heap.Perm sorted
  sorted : sorted.Pairwise fun a b => less b a = false

theorem represents_nil (less : Entry → Entry → Bool) : Represents less [] [] :=
  ⟨ordered_nil less, .refl _, .nil⟩

theorem Represents.insert (weak : Weak less) {sorted : List Entry} (represents : Represents less heap sorted)
    (entry : Entry) : Represents less (insert less heap entry)
      (sorted.orderedInsert (fun a b => less b a = false) entry) where
  ordered := insert_ordered weak represents.ordered entry
  perm := (insert_perm less heap entry).trans
    ((represents.perm.cons entry).trans (List.perm_orderedInsert _ entry sorted).symm)
  sorted := by
    have total : Std.Total fun a b => less b a = false := ⟨fun a b => by
      cases before : less b a with
      | false => exact .inl rfl
      | true => exact .inr (weak.asymm before)⟩
    have transitive : IsTrans Entry fun a b => less b a = false :=
      ⟨fun _ _ _ first second => weak.trans second first⟩
    exact List.Pairwise.orderedInsert entry sorted represents.sorted

theorem Represents.pop (weak : Weak less) {heap sorted rest : List Entry} {top : Entry}
    (represents : Represents less heap sorted)
    (strict : ∀ a ∈ heap, ∀ b ∈ heap, less a b = false → less b a = false → a = b)
    (popped : pop less heap = some (top, rest)) :
    sorted.head? = some top ∧ Represents less rest sorted.tail := by
  have taken := pop_perm popped
  cases sorted with
  | nil =>
    have empty := taken.symm.trans represents.perm
    exact absurd empty.eq_nil (by simp)
  | cons head tail =>
    have topIn : top ∈ heap := taken.symm.subset (by simp)
    have headIn : head ∈ heap := represents.perm.symm.subset (by simp)
    have topFirst : less head top = false := by
      obtain ⟨index, found⟩ := List.mem_iff_getElem?.mp headIn
      exact represents.ordered.least weak (pop_top popped) index head found
    have headFirst : less top head = false := by
      have place := represents.perm.subset topIn
      rcases List.mem_cons.mp place with rfl | later
      · exact weak.irrefl _
      · exact (List.pairwise_cons.mp represents.sorted).1 top later
    obtain rfl : top = head := strict top topIn head headIn headFirst topFirst
    refine ⟨rfl, pop_ordered weak represents.ordered popped, ?_, (List.pairwise_cons.mp represents.sorted).2⟩
    exact (taken.symm.trans represents.perm).cons_inv

end Foundation.Heap
