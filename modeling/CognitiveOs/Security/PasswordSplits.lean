import CognitiveOs.Security.SshPasswords
import Mathlib.Data.List.Perm.Basic

/-!
# Redaction in two parts

Where no occurrence of a password crosses a place of the text, and no short one loses its label
there, the parts before and behind it can be redacted one after the other.
-/

namespace CognitiveOs.Security

open Infra

/-! ### Occurrences -/

variable {text password : Text} {i c : Nat} {x : Span}

theorem occurs_iff :
    occurs text password i = true ↔
      password <+: text.drop i ∧ (4 ≤ password.length ∨ shortPasswordLabel (text.take i) = true) := by
  rw [occurs, Bool.and_eq_true, List.isPrefixOf_iff_prefix, Bool.or_eq_true, decide_eq_true_eq]

theorem occurs_fits (bytes : password ≠ []) (here : occurs text password i = true) :
    i + password.length ≤ text.length := by
  have fits := (occurs_iff.mp here).1.length_le
  have some' := List.length_pos_iff.mpr bytes
  rw [List.length_drop] at fits
  omega

theorem mem_occurrences (bytes : password ≠ []) :
    x ∈ occurrences text password ↔ ∃ i, occurs text password i = true ∧ x = { start := i, stop := i + password.length } := by
  unfold occurrences
  constructor
  · intro member
    split at member
    · cases member
    · obtain ⟨i, listed, rfl⟩ := List.mem_map.mp member
      exact ⟨i, (List.mem_filter.mp listed).2, rfl⟩
  · rintro ⟨i, here, rfl⟩
    have fits := occurs_fits bytes here
    rw [if_neg (by omega)]
    exact List.mem_map.mpr ⟨i, List.mem_filter.mpr ⟨List.mem_range.mpr (by omega), here⟩, rfl⟩

theorem occurrences_nodup (text password : Text) : (occurrences text password).Nodup := by
  unfold occurrences
  split
  · exact List.nodup_nil
  · refine (List.nodup_range.filter _).map ?_
    intro i j same
    exact congrArg Span.start same

theorem occurs_take (fits : i + password.length ≤ c) : occurs (text.take c) password i = occurs text password i := by
  apply Bool.eq_iff_iff.mpr
  have front : (text.take c).take i = text.take i := by
    rw [List.take_take, Nat.min_eq_left (by omega)]
  have short : password.length ≤ c - i := by omega
  rw [occurs_iff, occurs_iff, front, List.drop_take, List.prefix_take_iff, and_iff_left short]

theorem shortPasswordLabel_append {front : Text} (labelled : shortPasswordLabel text = true) :
    shortPasswordLabel (front ++ text) = true := by
  obtain ⟨label, listed, ends⟩ := List.any_eq_true.mp labelled
  refine List.any_eq_true.mpr ⟨label, listed, ?_⟩
  rw [List.isPrefixOf_iff_prefix] at ends ⊢
  have bytes : ∀ label ∈ passwordLabels, label ≠ [] := by decide +kernel
  have stops : text.reverse.dropWhile isSeparator ≠ [] := by
    intro none
    rw [none, List.map_nil, List.prefix_nil, List.map_eq_nil_iff, List.reverse_eq_nil_iff] at ends
    exact bytes label listed ends
  have keeps : (text.reverse ++ front.reverse).dropWhile isSeparator =
      text.reverse.dropWhile isSeparator ++ front.reverse := by
    rw [List.dropWhile_append, if_neg]
    rwa [List.isEmpty_iff]
  rw [List.reverse_append, keeps, List.map_append]
  exact ends.trans (List.prefix_append _ _)

def LabelKept (text password : Text) (c i : Nat) : Prop :=
  password.length < 4 → shortPasswordLabel ((text.take i).drop c) = true

theorem occurs_drop_of_text (kept : LabelKept text password c (c + i)) (here : occurs text password (c + i) = true) :
    occurs (text.drop c) password i = true := by
  obtain ⟨bytes, _⟩ := occurs_iff.mp here
  refine occurs_iff.mpr ⟨?_, ?_⟩
  · rwa [List.drop_drop]
  · rw [List.take_drop]
    exact (Nat.lt_or_ge password.length 4).symm.imp_right kept

theorem occurs_of_drop (here : occurs (text.drop c) password i = true) : occurs text password (c + i) = true := by
  obtain ⟨bytes, labelled⟩ := occurs_iff.mp here
  rw [List.drop_drop] at bytes
  rw [List.take_drop] at labelled
  refine occurs_iff.mpr ⟨bytes, labelled.imp_right ?_⟩
  intro label
  rw [← List.take_append_drop c (text.take (c + i))]
  exact shortPasswordLabel_append label

/-! ### Spans behind a place -/

variable {ps : Passwords}

def Span.shift (c : Nat) (x : Span) : Span where
  start := c + x.start
  stop := c + x.stop

/-- A place where a text can be cut: nothing crosses it, and no short password loses its label. -/
def SplitsAt (ps : Passwords) (text : Text) (c : Nat) : Prop :=
  ∀ p ∈ ps, ∀ i, occurs text p i = true → (i < c → i + p.length ≤ c) ∧ (c ≤ i → LabelKept text p c i)

theorem occurrences_split (splits : SplitsAt ps text c) {p : Text} (listed : p ∈ ps) (bytes : p ≠ []) :
    (occurrences text p).Perm (occurrences (text.take c) p ++ (occurrences (text.drop c) p).map (Span.shift c)) := by
  have some' := List.length_pos_iff.mpr bytes
  have before {x : Span} (member : x ∈ occurrences (text.take c) p) : x.stop ≤ c ∧ x.start < x.stop := by
    obtain ⟨i, here, rfl⟩ := (mem_occurrences bytes).mp member
    have fits := occurs_fits bytes here
    have short := List.length_take_le c text
    dsimp only
    omega
  refine (List.perm_ext_iff_of_nodup (occurrences_nodup text p) ?_).mpr ?_
  · refine List.nodup_append.mpr ⟨occurrences_nodup _ p, (occurrences_nodup _ p).map ?_, ?_⟩
    · intro x y same
      have starts : c + x.start = c + y.start := congrArg Span.start same
      have stops : c + x.stop = c + y.stop := congrArg Span.stop same
      cases x
      cases y
      simp_all
    · rintro x first y second rfl
      obtain ⟨z, _, rfl⟩ := List.mem_map.mp second
      have bounds : c + z.stop ≤ c ∧ c + z.start < c + z.stop := before first
      omega
  · intro x
    rw [mem_occurrences bytes, List.mem_append, mem_occurrences bytes, List.mem_map]
    constructor
    · rintro ⟨i, here, rfl⟩
      obtain ⟨crosses, labels⟩ := splits p listed i here
      rcases Nat.lt_or_ge i c with front | back
      · exact .inl ⟨i, by rwa [occurs_take (crosses front)], rfl⟩
      · refine .inr ⟨{ start := i - c, stop := i - c + p.length }, ?_, ?_⟩
        · have place : c + (i - c) = i := by omega
          refine (mem_occurrences bytes).mpr ⟨i - c, ?_, rfl⟩
          rw [← place] at here labels
          exact occurs_drop_of_text (labels (by omega)) here
        · simp only [Span.shift, Span.mk.injEq]
          omega
    · rintro (⟨i, here, rfl⟩ | ⟨y, member, rfl⟩)
      · have fits := occurs_fits bytes here
        have short := List.length_take_le c text
        exact ⟨i, by rwa [occurs_take (by omega)] at here, rfl⟩
      · obtain ⟨i, here, rfl⟩ := (mem_occurrences bytes).mp member
        refine ⟨c + i, occurs_of_drop here, ?_⟩
        rw [Span.shift, Nat.add_assoc]

theorem rawMatches_split (splits : SplitsAt ps text c) (bytes : ∀ p ∈ ps, p ≠ []) :
    (rawMatches ps text).Perm (rawMatches ps (text.take c) ++ (rawMatches ps (text.drop c)).map (Span.shift c)) := by
  refine (List.Perm.flatMap_left ps fun p listed => occurrences_split splits listed (bytes p listed)).trans ?_
  refine (List.flatMap_append_perm ps _ _).symm.trans ?_
  rw [rawMatches, rawMatches, List.map_flatMap]

theorem mem_rawMatches (bytes : ∀ p ∈ ps, p ≠ []) :
    x ∈ rawMatches ps text ↔
      ∃ p ∈ ps, ∃ i, occurs text p i = true ∧ x = { start := i, stop := i + p.length } := by
  rw [rawMatches, List.mem_flatMap]
  exact exists_congr fun p => and_congr_right fun listed => mem_occurrences (bytes p listed)

theorem rawMatches_bounds (bytes : ∀ p ∈ ps, p ≠ []) (member : x ∈ rawMatches ps text) :
    x.start < x.stop ∧ x.stop ≤ text.length := by
  obtain ⟨p, listed, i, here, rfl⟩ := (mem_rawMatches bytes).mp member
  have fits := occurs_fits (bytes p listed) here
  have some' := List.length_pos_iff.mpr (bytes p listed)
  exact ⟨by dsimp only; omega, fits⟩

/-! ### Sorting, merging and replacing in two parts -/

variable {front back : List Span} {last : Span}

theorem matchOrder_iff {y : Span} :
    matchOrder x y = true ↔ x.start < y.start ∨ (x.start = y.start ∧ y.stop ≤ x.stop) := by
  rw [matchOrder, Bool.or_eq_true, Bool.and_eq_true, decide_eq_true_eq, decide_eq_true_eq, decide_eq_true_eq]

theorem sorted_matchOrder (spans : List Span) : (spans.mergeSort matchOrder).Pairwise fun x y => matchOrder x y = true := by
  refine List.pairwise_mergeSort ?_ ?_ spans
  · intro x y z first second
    rw [matchOrder_iff] at first second ⊢
    omega
  · intro x y
    rw [Bool.or_eq_true, matchOrder_iff, matchOrder_iff]
    omega

theorem mergeSort_split {all : List Span} (parts : all.Perm (front ++ back.map (Span.shift c)))
    (before : ∀ x ∈ front, x.start < c) :
    all.mergeSort matchOrder = front.mergeSort matchOrder ++ (back.mergeSort matchOrder).map (Span.shift c) := by
  refine List.Perm.eq_of_pairwise ?_ (sorted_matchOrder all) ?_ ?_
  · intro x y _ _ first second
    rw [matchOrder_iff] at first second
    obtain ⟨start, stop⟩ := x
    obtain ⟨start', stop'⟩ := y
    simp only [Span.mk.injEq] at first second ⊢
    omega
  · refine List.pairwise_append.mpr ⟨sorted_matchOrder front, ?_, ?_⟩
    · refine List.pairwise_map.mpr ((sorted_matchOrder back).imp ?_)
      intro x y ordered
      rw [matchOrder_iff] at ordered ⊢
      simp only [Span.shift]
      omega
    · intro x first y second
      obtain ⟨z, _, rfl⟩ := List.mem_map.mp second
      have starts := before x (List.mem_mergeSort.mp first)
      refine matchOrder_iff.mpr (.inl ?_)
      simp only [Span.shift]
      omega
  · refine (List.mergeSort_perm all _).trans (parts.trans ?_)
    exact (List.mergeSort_perm front _).symm.append ((List.mergeSort_perm back _).symm.map _)

theorem mergeFrom_shift (c : Nat) (last : Span) (spans : List Span) :
    mergeFrom (last.shift c) (spans.map (Span.shift c)) = (mergeFrom last spans).map (Span.shift c) := by
  induction spans generalizing last with
  | nil => rfl
  | cons m ms next =>
      rw [List.map_cons, mergeFrom, mergeFrom]
      by_cases meets : m.start < last.stop
      · have shifted : (m.shift c).start < (last.shift c).stop := Nat.add_lt_add_left meets c
        have same : { last.shift c with stop := max (last.shift c).stop (m.shift c).stop } =
            Span.shift c { last with stop := max last.stop m.stop } := by
          simp only [Span.shift, Span.mk.injEq, true_and]
          omega
        rw [if_pos shifted, if_pos meets, same, next]
      · have shifted : ¬ (m.shift c).start < (last.shift c).stop := by
          simp only [Span.shift]
          omega
        rw [if_neg shifted, if_neg meets, next, List.map_cons]

theorem mergeSpans_shift (c : Nat) (spans : List Span) :
    mergeSpans (spans.map (Span.shift c)) = (mergeSpans spans).map (Span.shift c) := by
  cases spans with
  | nil => rfl
  | cons m ms => exact mergeFrom_shift c m ms

theorem mergeFrom_append (ends : last.stop ≤ c) (before : ∀ x ∈ front, x.stop ≤ c) (behind : ∀ x ∈ back, c ≤ x.start) :
    mergeFrom last (front ++ back) = mergeFrom last front ++ mergeSpans back := by
  induction front generalizing last with
  | nil =>
      cases back with
      | nil => rfl
      | cons m ms =>
          have starts := behind m List.mem_cons_self
          change mergeFrom last (m :: ms) = last :: mergeFrom m ms
          rw [mergeFrom, if_neg (by omega)]
  | cons m ms next =>
      obtain ⟨first, later⟩ := List.forall_mem_cons.mp before
      rw [List.cons_append, mergeFrom, mergeFrom]
      by_cases meets : m.start < last.stop
      · rw [if_pos meets, if_pos meets, next (Nat.max_le.mpr ⟨ends, first⟩) later]
      · rw [if_neg meets, if_neg meets, next first later, List.cons_append]

theorem mergeSpans_append (before : ∀ x ∈ front, x.stop ≤ c) (behind : ∀ x ∈ back, c ≤ x.start) :
    mergeSpans (front ++ back) = mergeSpans front ++ mergeSpans back := by
  cases front with
  | nil => rfl
  | cons m ms =>
      obtain ⟨first, later⟩ := List.forall_mem_cons.mp before
      exact mergeFrom_append first later behind

theorem slice_take {pos stop : Nat} (inside : stop ≤ c) : slice (text.take c) pos stop = slice text pos stop := by
  rw [slice, slice, List.drop_take, List.take_take, Nat.min_eq_left (by omega)]

theorem slice_drop (text : Text) (c start stop : Nat) :
    slice text (c + start) (c + stop) = slice (text.drop c) start stop := by
  rw [slice, slice, List.drop_drop, Nat.add_sub_add_left]

theorem replaceSpans_shift (replacement : Text) (text : Text) (c pos : Nat) (spans : List Span) :
    replaceSpans (fun _ => replacement) text (c + pos) (spans.map (Span.shift c)) =
      replaceSpans (fun _ => replacement) (text.drop c) pos spans := by
  induction spans generalizing pos with
  | nil => rw [List.map_nil, replaceSpans, replaceSpans, List.drop_drop]
  | cons m ms next => rw [List.map_cons, replaceSpans, replaceSpans, ← next m.stop, Span.shift, slice_drop]

theorem replaceSpans_split (replacement : Text) {pos : Nat} (inside : pos ≤ c)
    (before : ∀ x ∈ front, x.start ≤ c ∧ x.stop ≤ c) :
    replaceSpans (fun _ => replacement) text pos (front ++ back.map (Span.shift c)) =
      replaceSpans (fun _ => replacement) (text.take c) pos front ++
        replaceSpans (fun _ => replacement) (text.drop c) 0 back := by
  induction front generalizing pos with
  | nil =>
      have gap (start : Nat) (behind : c ≤ start) :
          slice text pos start = (text.take c).drop pos ++ slice text c start := by
        have bytes : slice text pos start = (text.drop pos).take (c - pos + (start - c)) := by
          rw [slice]
          congr 1
          omega
        rw [bytes, List.take_add, List.drop_drop, List.drop_take, slice, Nat.add_sub_cancel' inside]
      cases back with
      | nil =>
          change text.drop pos = (text.take c).drop pos ++ (text.drop c).drop 0
          have rest : text.drop c = (text.drop pos).drop (c - pos) := by
            rw [List.drop_drop, Nat.add_sub_cancel' inside]
          rw [List.drop_zero, List.drop_take, rest, List.take_append_drop]
      | cons m ms =>
          have rest := replaceSpans_shift replacement text c 0 (m :: ms)
          rw [Nat.add_zero, List.map_cons, replaceSpans] at rest
          change slice text pos (c + m.start) ++ replacement ++ _ = (text.take c).drop pos ++ _
          rw [gap _ (Nat.le_add_right c m.start), ← rest, List.append_assoc, List.append_assoc, List.append_assoc]
          rfl
  | cons m ms next =>
      obtain ⟨first, later⟩ := List.forall_mem_cons.mp before
      rw [List.cons_append, replaceSpans, replaceSpans, next first.2 later, slice_take first.1, List.append_assoc,
        List.append_assoc, List.append_assoc]

/-! ### What merging keeps -/

variable {spans : List Span}

theorem mergeFrom_bounds {n : Nat} (first : last.start ≤ n ∧ last.stop ≤ n)
    (rest : ∀ x ∈ spans, x.start ≤ n ∧ x.stop ≤ n) : ∀ x ∈ mergeFrom last spans, x.start ≤ n ∧ x.stop ≤ n := by
  induction spans generalizing last with
  | nil =>
      intro x member
      rw [List.mem_singleton.mp member]
      exact first
  | cons m ms next =>
      obtain ⟨here, later⟩ := List.forall_mem_cons.mp rest
      unfold mergeFrom
      split
      · exact next ⟨first.1, Nat.max_le.mpr ⟨first.2, here.2⟩⟩ later
      · exact List.forall_mem_cons.mpr ⟨first, next here later⟩

theorem mergeSpans_bounds {n : Nat} (bounds : ∀ x ∈ spans, x.start ≤ n ∧ x.stop ≤ n) :
    ∀ x ∈ mergeSpans spans, x.start ≤ n ∧ x.stop ≤ n := by
  cases spans with
  | nil => exact bounds
  | cons m ms =>
      obtain ⟨first, rest⟩ := List.forall_mem_cons.mp bounds
      exact mergeFrom_bounds first rest

theorem mergeFrom_starts (sorted : ∀ x ∈ spans, last.start ≤ x.start)
    (ordered : spans.Pairwise fun x y => x.start ≤ y.start) : ∀ x ∈ mergeFrom last spans, last.start ≤ x.start := by
  induction spans generalizing last with
  | nil =>
      intro x member
      rw [List.mem_singleton.mp member]
  | cons m ms next =>
      obtain ⟨here, later⟩ := List.forall_mem_cons.mp sorted
      obtain ⟨first, rest⟩ := List.pairwise_cons.mp ordered
      unfold mergeFrom
      split
      · exact next later rest
      · refine List.forall_mem_cons.mpr ⟨le_rfl, fun x member => ?_⟩
        exact here.trans (next first rest x member)

theorem mergeFrom_disjoint (ordered : spans.Pairwise fun x y => x.start ≤ y.start) :
    (mergeFrom last spans).Pairwise fun x y => x.stop ≤ y.start := by
  induction spans generalizing last with
  | nil => exact List.pairwise_singleton _ last
  | cons m ms next =>
      obtain ⟨first, rest⟩ := List.pairwise_cons.mp ordered
      unfold mergeFrom
      split
      · exact next rest
      · refine List.pairwise_cons.mpr ⟨fun x member => ?_, next rest⟩
        have starts := mergeFrom_starts first rest x member
        omega

theorem mergeFrom_covers (sorted : ∀ x ∈ spans, last.start ≤ x.start)
    (ordered : spans.Pairwise fun x y => x.start ≤ y.start) :
    ∀ x ∈ last :: spans, ∃ m ∈ mergeFrom last spans, m.start ≤ x.start ∧ x.stop ≤ m.stop := by
  induction spans generalizing last with
  | nil =>
      intro x member
      exact ⟨x, member, le_rfl, le_rfl⟩
  | cons m ms next =>
      obtain ⟨here, later⟩ := List.forall_mem_cons.mp sorted
      obtain ⟨first, rest⟩ := List.pairwise_cons.mp ordered
      unfold mergeFrom
      split
      · have covers := @next { last with stop := max last.stop m.stop } later rest
        obtain ⟨joined, member, starts, stops⟩ := covers _ List.mem_cons_self
        obtain ⟨ends, ends'⟩ := Nat.max_le.mp stops
        intro x listed
        rcases List.mem_cons.mp listed with rfl | listed
        · exact ⟨joined, member, starts, ends⟩
        rcases List.mem_cons.mp listed with rfl | listed
        · exact ⟨joined, member, starts.trans here, ends'⟩
        · exact covers x (List.mem_cons_of_mem _ listed)
      · intro x listed
        rcases List.mem_cons.mp listed with rfl | listed
        · exact ⟨x, List.mem_cons_self, le_rfl, le_rfl⟩
        · obtain ⟨joined, member, bounds⟩ := next first rest x listed
          exact ⟨joined, List.mem_cons_of_mem _ member, bounds⟩

theorem sorted_starts (spans : List Span) : (spans.mergeSort matchOrder).Pairwise fun x y => x.start ≤ y.start := by
  refine (sorted_matchOrder spans).imp ?_
  intro x y ordered
  rw [matchOrder_iff] at ordered
  omega

theorem scan_disjoint (ps : Passwords) (text : Text) :
    (secretScanSshPasswords ps text).Pairwise fun x y => x.stop ≤ y.start := by
  have ordered := sorted_starts (rawMatches ps text)
  unfold secretScanSshPasswords
  cases sorted : (rawMatches ps text).mergeSort matchOrder with
  | nil => exact List.Pairwise.nil
  | cons m ms =>
      rw [sorted] at ordered
      exact mergeFrom_disjoint (List.pairwise_cons.mp ordered).2

theorem scan_covers (member : x ∈ rawMatches ps text) :
    ∃ m ∈ secretScanSshPasswords ps text, m.start ≤ x.start ∧ x.stop ≤ m.stop := by
  have ordered := sorted_starts (rawMatches ps text)
  have listed : x ∈ (rawMatches ps text).mergeSort matchOrder := List.mem_mergeSort.mpr member
  unfold secretScanSshPasswords
  cases sorted : (rawMatches ps text).mergeSort matchOrder with
  | nil =>
      rw [sorted] at listed
      cases listed
  | cons m ms =>
      rw [sorted] at ordered listed
      obtain ⟨first, rest⟩ := List.pairwise_cons.mp ordered
      exact mergeFrom_covers first rest x listed

/-! ### Redaction in two parts -/

theorem secretRedact_split (splits : SplitsAt ps text c) (bytes : ∀ p ∈ ps, p ≠ []) :
    secretRedactSshPasswords ps text =
      secretRedactSshPasswords ps (text.take c) ++ secretRedactSshPasswords ps (text.drop c) := by
  have before {x : Span} (member : x ∈ rawMatches ps (text.take c)) : x.start < c ∧ x.stop ≤ c := by
    have bounds := rawMatches_bounds bytes member
    have short := List.length_take_le c text
    omega
  have sorted := mergeSort_split (rawMatches_split splits bytes) fun x member => (before member).1
  have merged : secretScanSshPasswords ps text = secretScanSshPasswords ps (text.take c) ++
      (secretScanSshPasswords ps (text.drop c)).map (Span.shift c) := by
    rw [secretScanSshPasswords, sorted, mergeSpans_append (c := c), mergeSpans_shift]
    · rfl
    · exact fun x member => (before (List.mem_mergeSort.mp member)).2
    · intro x member
      obtain ⟨y, _, rfl⟩ := List.mem_map.mp member
      exact Nat.le_add_right c y.start
  rw [secretRedactSshPasswords, merged, replaceSpans_split _ (Nat.zero_le c)]
  · rfl
  · apply mergeSpans_bounds
    intro x member
    have bounds := before (List.mem_mergeSort.mp member)
    exact ⟨bounds.1.le, bounds.2⟩

end CognitiveOs.Security
