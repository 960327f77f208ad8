import Mathlib.Data.List.Perm.Basic

/-!
# A binary heap moved through a hole

Both sifts keep one free slot, the hole, and move entries into it until the new
entry fits. They are stated over any comparison; the results here say that no
entry is lost or invented.
-/

namespace Foundation.Heap

universe u

variable {Entry : Type u}

/-- Move the parents that come after `entry` down, then fill the hole. The loop
runs at most once for each level, so `fuel` may be the hole's own index. -/
def siftUp (less : Entry → Entry → Bool) (entry : Entry) :
    (fuel : Nat) → (heap : List Entry) → (hole : Nat) → List Entry
  | 0, heap, hole => heap.set hole entry
  | fuel + 1, heap, hole =>
    match heap[(hole - 1) / 2]? with
    | some parent =>
      if 0 < hole ∧ less entry parent then
        siftUp less entry fuel (heap.set hole parent) ((hole - 1) / 2)
      else heap.set hole entry
    | none => heap.set hole entry

def firstChild (less : Entry → Entry → Bool) (heap : List Entry) (hole : Nat) :
    Option (Nat × Entry) :=
  match heap[2 * hole + 1]? with
  | none => none
  | some left =>
    match heap[2 * hole + 2]? with
    | some right => if less right left then some (2 * hole + 2, right) else some (2 * hole + 1, left)
    | none => some (2 * hole + 1, left)

/-- Move the first child up while it comes before `entry`, then fill the hole. -/
def siftDown (less : Entry → Entry → Bool) (entry : Entry) :
    (fuel : Nat) → (heap : List Entry) → (hole : Nat) → List Entry
  | 0, heap, hole => heap.set hole entry
  | fuel + 1, heap, hole =>
    match firstChild less heap hole with
    | some (child, value) =>
      if less value entry then siftDown less entry fuel (heap.set hole value) child
      else heap.set hole entry
    | none => heap.set hole entry

variable {heap : List Entry}

theorem cons_set_perm {index : Nat} {old : Entry} (new : Entry) (found : heap[index]? = some old) :
    (old :: heap.set index new).Perm (new :: heap) := by
  induction heap generalizing index with
  | nil => simp at found
  | cons head tail ih =>
    cases index with
    | zero =>
      obtain rfl : head = old := by simpa using found
      simpa using List.Perm.swap new head tail
    | succ index =>
      have moved := (ih (by simpa using found)).cons head
      exact (List.Perm.swap head old _).trans (moved.trans (List.Perm.swap new head tail))

theorem move_hole_perm {hole index : Nat} {value : Entry} (entry : Entry) (inside : hole < heap.length)
    (distinct : index ≠ hole) (found : heap[index]? = some value) :
    ((heap.set hole value).set index entry).Perm (heap.set hole entry) := by
  have lost := List.getElem?_eq_getElem inside
  have found' : (heap.set hole value)[index]? = some value := by
    rw [List.getElem?_set_ne (Ne.symm distinct)]; exact found
  have filled := (cons_set_perm entry found').cons heap[hole]
  have emptied := (cons_set_perm value lost).cons entry
  have direct := ((cons_set_perm entry lost).cons value).symm
  refine List.Perm.cons_inv (a := heap[hole]) (List.Perm.cons_inv (a := value) ?_)
  calc List.Perm _ (heap[hole] :: value :: (heap.set hole value).set index entry) := .swap _ _ _
    List.Perm _ (heap[hole] :: entry :: heap.set hole value) := filled
    List.Perm _ (entry :: heap[hole] :: heap.set hole value) := .swap _ _ _
    List.Perm _ (entry :: value :: heap) := emptied
    List.Perm _ (value :: entry :: heap) := .swap _ _ _
    List.Perm _ (value :: heap[hole] :: heap.set hole entry) := direct

theorem siftUp_perm (less : Entry → Entry → Bool) (entry : Entry) (fuel : Nat)
    (heap : List Entry) (hole : Nat) (inside : hole < heap.length) :
    (siftUp less entry fuel heap hole).Perm (heap.set hole entry) := by
  induction fuel generalizing heap hole with
  | zero => exact .refl _
  | succ fuel ih =>
    simp only [siftUp]
    split
    next parent found =>
      split
      next before =>
        have distinct : (hole - 1) / 2 ≠ hole := by omega
        exact (ih _ _ (by simp; omega)).trans
          (move_hole_perm entry inside distinct found)
      next => exact .refl _
    next => exact .refl _

theorem firstChild_spec {less : Entry → Entry → Bool} {hole child : Nat} {value : Entry}
    (found : firstChild less heap hole = some (child, value)) :
    heap[child]? = some value ∧ child ≠ hole ∧ child < heap.length := by
  unfold firstChild at found
  split at found
  · simp at found
  · next left leftFound =>
    have leftInside := (List.getElem?_eq_some_iff.mp leftFound).1
    split at found
    · next right rightFound =>
      have rightInside := (List.getElem?_eq_some_iff.mp rightFound).1
      split at found <;> cases found
      · exact ⟨rightFound, by omega, rightInside⟩
      · exact ⟨leftFound, by omega, leftInside⟩
    · cases found
      exact ⟨leftFound, by omega, leftInside⟩

theorem siftDown_perm (less : Entry → Entry → Bool) (entry : Entry) (fuel : Nat)
    (heap : List Entry) (hole : Nat) (inside : hole < heap.length) :
    (siftDown less entry fuel heap hole).Perm (heap.set hole entry) := by
  induction fuel generalizing heap hole with
  | zero => exact .refl _
  | succ fuel ih =>
    simp only [siftDown]
    split
    next child value found =>
      obtain ⟨present, distinct, childInside⟩ := firstChild_spec found
      split
      next before =>
        exact (ih _ _ (by simpa using childInside)).trans
          (move_hole_perm entry inside distinct present)
      next => exact .refl _
    next => exact .refl _

def insert (less : Entry → Entry → Bool) (heap : List Entry) (entry : Entry) : List Entry :=
  siftUp less entry heap.length (heap ++ [entry]) heap.length

def pop (less : Entry → Entry → Bool) (heap : List Entry) : Option (Entry × List Entry) :=
  match heap, heap.getLast? with
  | top :: _, some last =>
    some (top, if heap.dropLast.isEmpty then [] else siftDown less last heap.length heap.dropLast 0)
  | _, _ => none

theorem insert_perm (less : Entry → Entry → Bool) (heap : List Entry) (entry : Entry) :
    (insert less heap entry).Perm (entry :: heap) := by
  have sifted := siftUp_perm less entry heap.length (heap ++ [entry]) heap.length (by simp)
  have same : (heap ++ [entry]).set heap.length entry = heap ++ [entry] := by
    simp [List.set_append_right]
  exact (sifted.trans (by rw [same])).trans (List.perm_append_singleton entry heap)

theorem pop_perm {less : Entry → Entry → Bool} {rest : List Entry} {top : Entry}
    (popped : pop less heap = some (top, rest)) : heap.Perm (top :: rest) := by
  unfold pop at popped
  split at popped
  · next head tail last lastFound =>
    cases popped
    rcases List.eq_nil_or_concat' tail with rfl | ⟨initial, final, rfl⟩
    · exact .refl _
    · have shape : (top :: (initial ++ [final])).dropLast = top :: initial := by
        rw [← List.cons_append, List.dropLast_concat]
      have final_eq : last = final := by
        rw [← List.cons_append, List.getLast?_concat] at lastFound
        exact (Option.some.inj lastFound).symm
      rw [shape, final_eq]
      have sifted := siftDown_perm less final (top :: (initial ++ [final])).length
        (top :: initial) 0 (by simp)
      refine List.Perm.cons top ((List.perm_append_singleton final initial).trans ?_)
      simpa using sifted.symm
  · simp at popped

theorem pop_isSome (less : Entry → Entry → Bool) (nonempty : heap ≠ []) : (pop less heap).isSome := by
  cases heap with
  | nil => exact absurd rfl nonempty
  | cons head tail => simp [pop, List.getLast?_cons]

end Foundation.Heap
