import Mathlib.Data.List.Nodup

/-!
# Doubly linked lists

Nodes that know their neighbours, and what is known of both ends. Such links stand for the order of
the nodes; taking a node out and putting it in front is what they do to that order.
-/

namespace Foundation

structure Links where
  prev : Nat → Option Nat
  next : Nat → Option Nat
  head : Option Nat
  tail : Option Nat

namespace Links

structure Shows (links : Links) (order : List Nat) : Prop where
  nodup : order.Nodup
  head : links.head = order.head?
  tail : links.tail = order.getLast?
  node : ∀ before i after, order = before ++ i :: after →
    links.prev i = before.getLast? ∧ links.next i = after.head?

def Loose (links : Links) (i : Nat) : Prop :=
  links.prev i = none ∧ links.next i = none

def skipOn (links : Links) (i : Nat) : Links :=
  match links.prev i with
  | some p => { links with next := Function.update links.next p (links.next i) }
  | none => if links.head = some i then { links with head := links.next i } else links

def skipBack (links : Links) (i : Nat) : Links :=
  match links.next i with
  | some n => { links with prev := Function.update links.prev n (links.prev i) }
  | none => if links.tail = some i then { links with tail := links.prev i } else links

def unlink (links : Links) (i : Nat) : Links :=
  (links.skipOn i).skipBack i

def push (links : Links) (i : Nat) : Links :=
  let links := { links with prev := Function.update links.prev i none, next := Function.update links.next i links.head }
  let links :=
    match links.head with
    | some h => { links with prev := Function.update links.prev h (some i) }
    | none => { links with tail := some i }
  { links with head := some i }

def touch (links : Links) (i : Nat) : Links :=
  (links.unlink i).push i

variable {links : Links} {order before after : List Nat} {i j : Nat}

theorem Shows.prev_eq (shows : Shows links (before ++ i :: after)) : links.prev i = before.getLast? :=
  (shows.node before i after rfl).1

theorem Shows.next_eq (shows : Shows links (before ++ i :: after)) : links.next i = after.head? :=
  (shows.node before i after rfl).2

/-! ### Taking a node out -/

theorem not_mem_sides (nodup : (before ++ i :: after).Nodup) : i ∉ before ∧ i ∉ after := by
  have split := List.nodup_append.mp nodup
  exact ⟨fun member => split.2.2 i member i List.mem_cons_self rfl, (List.nodup_cons.mp split.2.1).1⟩

theorem last_ne (nodup : (before ++ i :: after).Nodup) : before.getLast? ≠ some i := by
  intro last
  exact (not_mem_sides nodup).1 (List.mem_of_getLast? last)

theorem first_ne (nodup : (before ++ i :: after).Nodup) : after.head? ≠ some i := by
  intro first
  exact (not_mem_sides nodup).2 (List.mem_of_head? first)

theorem unlink_eq (shows : Shows links (before ++ i :: after)) :
    (∀ j, (links.unlink i).next j = if before.getLast? = some j then after.head? else links.next j) ∧
      (∀ j, (links.unlink i).prev j = if after.head? = some j then before.getLast? else links.prev j) ∧
      (links.unlink i).head = (before ++ after).head? ∧ (links.unlink i).tail = (before ++ after).getLast? := by
  have prev := shows.prev_eq
  have next := shows.next_eq
  have head := shows.head
  have tail := shows.tail
  have last := last_ne shows.nodup
  have first := first_ne shows.nodup
  rcases List.eq_nil_or_concat before with rfl | ⟨front, p, rfl⟩
  · rw [List.nil_append] at head tail
    rw [List.getLast?_nil] at prev
    rw [List.head?_cons] at head
    cases after with
    | nil =>
      rw [List.head?_nil] at next
      rw [List.getLast?_singleton] at tail
      simp [unlink, skipOn, skipBack, prev, next, head, tail]
    | cons n rest =>
      rw [List.head?_cons] at next
      rw [List.getLast?_cons_cons] at tail
      simp only [unlink, skipOn, skipBack, prev, next, head, if_true, tail]
      refine ⟨by simp, ?_, by simp, by simp⟩
      intro j
      simp [Function.update_apply, eq_comm]
  · rw [List.concat_eq_append] at *
    rw [List.getLast?_append, List.getLast?_singleton, Option.some_or] at prev last
    have different : i ≠ p := fun same => last (same ▸ rfl)
    have start : (front ++ [p] ++ i :: after).head? = (front ++ [p] ++ after).head? := by
      rw [List.head?_append, List.head?_append]
      cases front <;> simp
    rw [start] at head
    cases after with
    | nil =>
      rw [List.head?_nil] at next
      rw [List.getLast?_append, List.getLast?_singleton, Option.some_or] at tail
      simp only [unlink, skipOn, skipBack, prev, Function.update_of_ne different, next, tail, if_true, head]
      refine ⟨?_, by simp, by simp, by simp⟩
      intro j
      simp [Function.update_apply, eq_comm]
    | cons n rest =>
      rw [List.head?_cons] at next
      have finish : (front ++ [p] ++ i :: n :: rest).getLast? = (front ++ [p] ++ n :: rest).getLast? := by
        simp only [List.getLast?_append, List.getLast?_cons_cons]
      rw [finish] at tail
      simp only [unlink, skipOn, skipBack, prev, Function.update_of_ne different, next, head, tail]
      refine ⟨?_, ?_, by simp, by simp⟩
      · intro j
        simp [Function.update_apply, eq_comm]
      · intro j
        simp [Function.update_apply, eq_comm]

theorem unlink_behind {middle right : List Nat} (shows : Shows links (before ++ i :: (middle ++ j :: right))) :
    (links.unlink i).prev j = (before ++ middle).getLast? ∧ (links.unlink i).next j = right.head? := by
  obtain ⟨next, prev, -, -⟩ := unlink_eq shows
  obtain ⟨prev_j, next_j⟩ := shows.node (before ++ i :: middle) j right (by simp)
  have nodup := shows.nodup
  simp only [List.nodup_append, List.nodup_cons, List.mem_append, List.mem_cons] at nodup
  rw [next j, prev j]
  constructor
  · cases middle with
    | nil => simp
    | cons n middle =>
      have other : n ≠ j := nodup.2.1.2.2.2 n List.mem_cons_self j (.inl rfl)
      have behind : ((n :: middle) ++ j :: right).head? ≠ some j := fun same => other (Option.some.inj same)
      rw [if_neg behind, prev_j]
      simp [List.getLast?_append]
  · have front : before.getLast? ≠ some j := by
      intro same
      exact nodup.2.2 j (List.mem_of_getLast? same) j (.inr (.inr (.inl rfl))) rfl
    rw [if_neg front, next_j]

theorem unlink_before {left middle : List Nat} (shows : Shows links (left ++ j :: (middle ++ i :: after))) :
    (links.unlink i).prev j = left.getLast? ∧ (links.unlink i).next j = (middle ++ after).head? := by
  have whole : left ++ j :: (middle ++ i :: after) = (left ++ j :: middle) ++ i :: after := by simp
  obtain ⟨prev_j, next_j⟩ := shows.node left j (middle ++ i :: after) rfl
  rw [whole] at shows
  obtain ⟨next, prev, -, -⟩ := unlink_eq shows
  have nodup := shows.nodup
  simp only [List.nodup_append, List.nodup_cons, List.mem_append, List.mem_cons] at nodup
  rw [next j, prev j]
  constructor
  · have behind : after.head? ≠ some j := by
      intro same
      exact nodup.2.2 j (.inr (.inl rfl)) j (.inr (List.mem_of_head? same)) rfl
    rw [if_neg behind, prev_j]
  · rcases List.eq_nil_or_concat middle with rfl | ⟨front, n, rfl⟩
    · simp
    · have other : n ≠ j := by
        rintro rfl
        exact nodup.1.2.1.1 (by simp)
      have front' : (left ++ j :: front.concat n).getLast? ≠ some j := by
        simp [List.getLast?_append, List.getLast?_cons, other]
      rw [if_neg front', next_j]
      cases front <;> simp

theorem Shows.unlink (shows : Shows links (before ++ i :: after)) : Shows (links.unlink i) (before ++ after) := by
  obtain ⟨-, -, head, tail⟩ := unlink_eq shows
  have nodup : (before ++ after).Nodup :=
    shows.nodup.sublist ((List.Sublist.refl before).append (List.sublist_cons_self i after))
  refine ⟨nodup, head, tail, ?_⟩
  intro left j right split
  rcases List.append_eq_append_iff.mp split with ⟨middle, rfl, rfl⟩ | ⟨middle, rfl, same⟩
  · exact unlink_behind shows
  · cases middle with
    | nil =>
      obtain rfl : j :: right = after := by simpa using same
      have here := @unlink_behind links (left ++ []) i j [] right shows
      simpa using here
    | cons j' middle =>
      obtain ⟨rfl, rfl⟩ := List.cons.inj same
      rw [List.append_assoc, List.cons_append] at shows
      exact unlink_before shows

/-! ### Putting a node in front -/

theorem push_eq (shows : Shows links order) (new : i ∉ order) :
    (∀ j, (links.push i).next j = if j = i then links.head else links.next j) ∧
      (∀ j, (links.push i).prev j = if links.head = some j then some i else if j = i then none else links.prev j) ∧
      (links.push i).head = some i ∧ (links.push i).tail = (i :: order).getLast? := by
  have head := shows.head
  have tail := shows.tail
  unfold push
  cases order with
  | nil =>
    rw [List.head?_nil] at head
    simp only [head]
    refine ⟨?_, ?_, by simp, by simp⟩
    · intro j
      simp [Function.update_apply]
    · intro j
      simp [Function.update_apply]
  | cons h order =>
    rw [List.head?_cons] at head
    simp only [head]
    refine ⟨?_, ?_, by simp, by simp [tail]⟩
    · intro j
      simp [Function.update_apply]
    · intro j
      simp [Function.update_apply, eq_comm]

theorem Shows.push (shows : Shows links order) (new : i ∉ order) : Shows (links.push i) (i :: order) := by
  obtain ⟨next, prev, head, tail⟩ := push_eq shows new
  refine ⟨List.nodup_cons.mpr ⟨new, shows.nodup⟩, head, tail, ?_⟩
  intro left j right split
  rw [next j, prev j, shows.head]
  cases left with
  | nil =>
    obtain ⟨rfl, rfl⟩ := List.cons.inj split
    have other : order.head? ≠ some i := fun same => new (List.mem_of_head? same)
    simp [other]
  | cons i' left =>
    obtain ⟨rfl, rfl⟩ := List.cons.inj split
    obtain ⟨prev_j, next_j⟩ := shows.node left j right rfl
    have other : j ≠ i := by
      rintro rfl
      exact new (by simp)
    cases left with
    | nil => simp [other, next_j]
    | cons h left =>
      have first : h ≠ j := by
        rintro rfl
        exact (List.nodup_cons.mp shows.nodup).1 (by simp)
      simp [other, first, prev_j, next_j, List.getLast?_cons]

theorem unlink_loose (shows : Shows links order) (apart : i ∉ order) (loose : links.Loose i) :
    links.unlink i = links := by
  have head : links.head ≠ some i := fun same => apart (List.mem_of_head? (shows.head ▸ same))
  have tail : links.tail ≠ some i := fun same => apart (List.mem_of_getLast? (shows.tail ▸ same))
  simp [Links.unlink, skipOn, skipBack, loose.1, loose.2, head, tail]

theorem Shows.touch (shows : Shows links order) (loose : i ∉ order → links.Loose i) :
    Shows (links.touch i) (i :: order.erase i) := by
  by_cases member : i ∈ order
  · obtain ⟨before, after, rfl⟩ := List.append_of_mem member
    obtain ⟨none, none'⟩ := not_mem_sides shows.nodup
    rw [List.erase_append_right _ none, List.erase_cons_head]
    exact shows.unlink.push (by simp [none, none'])
  · rw [List.erase_of_not_mem member, Links.touch, unlink_loose shows member (loose member)]
    exact shows.push member

theorem Loose.touch (shows : Shows links order) (loose : i ∉ order → links.Loose i) (apart : j ∉ order) (other : j ≠ i)
    (alone : links.Loose j) : (links.touch i).Loose j := by
  have pushed {links : Links} {order : List Nat} (shows : Shows links order) (new : i ∉ order) (apart : j ∉ order)
      (alone : links.Loose j) : (links.push i).Loose j := by
    obtain ⟨next, prev, -, -⟩ := push_eq shows new
    have head : links.head ≠ some j := fun same => apart (List.mem_of_head? (shows.head ▸ same))
    exact ⟨by rw [prev j, if_neg head, if_neg other, alone.1], by rw [next j, if_neg other, alone.2]⟩
  by_cases member : i ∈ order
  · obtain ⟨before, after, rfl⟩ := List.append_of_mem member
    obtain ⟨none, none'⟩ := not_mem_sides shows.nodup
    obtain ⟨next, prev, -, -⟩ := unlink_eq shows
    simp only [List.mem_append, List.mem_cons, not_or] at apart
    have last : before.getLast? ≠ some j := fun same => apart.1 (List.mem_of_getLast? same)
    have first : after.head? ≠ some j := fun same => apart.2.2 (List.mem_of_head? same)
    refine pushed shows.unlink (by simp [none, none']) (by simp [apart]) ?_
    exact ⟨by rw [prev j, if_neg first, alone.1], by rw [next j, if_neg last, alone.2]⟩
  · rw [Links.touch, unlink_loose shows member (loose member)]
    exact pushed shows member apart alone

theorem shows_nil (head : links.head = none) (tail : links.tail = none) : Shows links [] :=
  ⟨List.nodup_nil, head, tail, fun before i after whole => absurd whole.symm (by simp)⟩

end Links

end Foundation
