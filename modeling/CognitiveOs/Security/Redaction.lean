import CognitiveOs.Security.SecretDetector

/-!
# What redaction covers

Every rule matches inside the text. The list of the matches is first come, first served: a match
that overlaps an earlier one is dropped, also where it sticks out of it.
-/

namespace CognitiveOs.Security

open Infra

/-! ### The rules match inside the text -/

variable {m : SecretMatch}

def Within (text : Text) (m : SecretMatch) : Prop :=
  m.span.start < m.span.stop ∧ m.span.stop ≤ text.length

theorem findCi_bounds {text needle : Text} {p stop hit : Nat} (hits : findCi text p stop needle = some hit) :
    p ≤ hit ∧ hit + needle.length ≤ stop := by
  unfold findCi at hits
  split at hits
  · cases hits
  · rename_i long
    have member := List.mem_of_find?_eq_some hits
    have range := List.mem_range'_1.mp member
    omega

theorem runEnd_le {text : Text} {p : Nat} (limit : Nat) (cls : UInt8 → Bool) (inside : p ≤ text.length) :
    runEnd text p limit cls ≤ text.length := by
  have run := (List.takeWhile_sublist cls (l := (text.drop p).take limit)).length_le
  have rest := List.length_take_le' limit (text.drop p)
  rw [List.length_drop] at rest
  unfold runEnd
  omega

theorem jwtEnd_le (fuel dots : Nat) (rest : Text) : (jwtEnd fuel dots rest).1 ≤ rest.length := by
  induction fuel generalizing dots rest with
  | zero => exact Nat.zero_le _
  | succ fuel next =>
      cases rest with
      | nil => exact Nat.le_refl 0
      | cons c rest =>
          unfold jwtEnd
          split_ifs
          · exact Nat.zero_le _
          · exact Nat.succ_le_succ (next (dots + 1) rest)
          · exact Nat.succ_le_succ (next dots rest)
          · exact Nat.zero_le _

theorem mem_found {start stop : Nat} {kind : Kind} {ok : Bool} (member : m ∈ found start stop kind ok) :
    ok = true ∧ m = { span := { start, stop }, severity := .high, kind } := by
  unfold found at member
  split at member
  · rename_i holds
    exact ⟨holds, List.mem_singleton.mp member⟩
  · cases member

def Decisive (text : Text) (matches' : List SecretMatch) : Prop :=
  ∀ m ∈ matches', Within text m ∧ m.severity = .high

theorem Decisive.append {text : Text} {front rest : List SecretMatch} (first : Decisive text front)
    (then' : Decisive text rest) : Decisive text (front ++ rest) := by
  intro m member
  rcases List.mem_append.mp member with early | late
  · exact first m early
  · exact then' m late

theorem Decisive.found {text : Text} {start stop : Nat} {kind : Kind} {ok : Bool}
    (bounds : ok = true → start < stop ∧ stop ≤ text.length) : Decisive text (found start stop kind ok) := by
  intro m member
  obtain ⟨holds, rfl⟩ := mem_found member
  exact ⟨bounds holds, rfl⟩

theorem Decisive.visits {text needle : Text} {visit : Nat → List SecretMatch × Option Nat}
    (each : ∀ hit, hit + needle.length ≤ text.length → Decisive text (visit hit).1) (fuel p : Nat) :
    Decisive text (visits text needle visit fuel p) := by
  induction fuel generalizing p with
  | zero =>
      intro m member
      cases member
  | succ fuel next =>
      unfold Security.visits
      split
      · intro m member
        cases member
      · rename_i hit hits
        apply (each hit (findCi_bounds hits).2).append
        split
        · exact next _
        · intro m member
          cases member

theorem Decisive.flatMap {text : Text} {α : Type} {words : List α} {rule : α → List SecretMatch}
    (each : ∀ word ∈ words, Decisive text (rule word)) : Decisive text (words.flatMap rule) := by
  intro m member
  obtain ⟨word, listed, finds⟩ := List.mem_flatMap.mp member
  exact each word listed m finds

theorem pemHeaders_ne_nil : ∀ header ∈ pemHeaders, 0 < header.length := by decide +kernel

theorem pemMatches_decisive (text : Text) : Decisive text (pemMatches text) := by
  apply Decisive.flatMap
  intro header listed
  apply Decisive.visits
  intro hit inside
  dsimp only
  apply Decisive.found
  intro _
  have bytes := pemHeaders_ne_nil header listed
  omega

theorem schemeMatches_decisive (text scheme : Text) (kind : Kind) : Decisive text (schemeMatches text scheme kind) := by
  apply Decisive.visits
  intro hit inside
  apply Decisive.found
  intro long
  have ends := runEnd_le 512 (fun c => isB64ish c ∨ c = 46) inside
  have size := (decide_eq_true_eq.mp long).1
  exact ⟨by omega, ends⟩

theorem tokenAt_decisive {text : Text} {c e : Nat} {matches' : List SecretMatch} (inside : c < text.length)
    (finds : tokenAt text c = some (matches', e)) : Decisive text matches' := by
  have rest : (text.drop c).length = text.length - c := List.length_drop
  have jwt := jwtEnd_le 2048 0 (text.drop c)
  have run (front limit : Nat) (cls : UInt8 → Bool) (fits : front ≤ text.length - c) :
      runEnd text (c + front) limit cls ≤ text.length := runEnd_le limit cls (by omega)
  unfold tokenAt at finds
  dsimp only at finds
  split_ifs at finds with isJwt isAws isSk isGhp isXox isGoogle
  all_goals obtain ⟨rfl, rfl⟩ := Prod.mk.inj (Option.some.inj finds)
  all_goals apply Decisive.found
  all_goals intro long
  all_goals have size := decide_eq_true_eq.mp long
  · omega
  · have ends := run 4 16 (fun x => isUpper x ∨ isDigit x) (by omega)
    omega
  · have ends := run 3 (text.drop c).length isTokish (by omega)
    omega
  · have ends := run 4 (text.drop c).length isTokish (by omega)
    omega
  · have ends := run 5 (text.drop c).length isTokish (by omega)
    omega
  · have ends := run 4 35 isTokish (by omega)
    omega

theorem tokenMatches_decisive (text : Text) (fuel c : Nat) : Decisive text (tokenMatches text fuel c) := by
  induction fuel generalizing c with
  | zero =>
      intro m member
      cases member
  | succ fuel next =>
      unfold tokenMatches
      split
      · intro m member
        cases member
      · rename_i inside
        split
        · rename_i matches' e finds
          exact (tokenAt_decisive (Nat.lt_of_not_le inside) finds).append (next e)
        · exact next (c + 1)

theorem byteIs_lt {text : Text} {i : Nat} {p : UInt8 → Bool} (holds : byteIs text i p = true) : i < text.length := by
  by_contra beyond
  rw [byteIs, List.getElem?_eq_none (by omega)] at holds
  cases holds

theorem assigned_decisive (o : Oracle) (text key : Text) (hit : Nat) : Decisive text (assigned o text key hit).1 := by
  unfold assigned
  dsimp only
  split
  · intro m member
    cases member
  -- where the blanks before the separator end does not matter
  generalize (if 0 < hit ∧ byteIs text (hit - 1) isQuote ∧ text[hit + key.length]? = text[hit - 1]?
    then hit + key.length + 1 else hit + key.length) = front
  generalize runEnd text front text.length isBlank = separator
  split
  · rename_i separated
    apply Decisive.found
    intro long
    have blanks := runEnd_le text.length isBlank (byteIs_lt separated)
    have size := (decide_eq_true_eq.mp long).1
    refine ⟨by omega, runEnd_le _ _ ?_⟩
    split
    · rename_i quoted
      obtain ⟨q, holds⟩ := Option.isSome_iff_exists.mp quoted
      obtain ⟨byte, _⟩ := Option.filter_eq_some_iff.mp holds
      exact (List.getElem?_eq_some_iff.mp byte).1
    · exact blanks
  · intro m member
    cases member

theorem scanPatterns_decisive (o : Oracle) (text : Text) : Decisive text (scanPatterns o text) := by
  apply (pemMatches_decisive text).append
  apply (schemeMatches_decisive text _ _).append
  apply (schemeMatches_decisive text _ _).append
  apply (tokenMatches_decisive text _ _).append
  apply Decisive.flatMap
  intro key _
  apply Decisive.visits
  intro hit _
  exact assigned_decisive o text key hit

theorem mem_entropyFrom {o : Oracle} {text : Text} {s : EntropyState} {places : List Nat}
    (member : m ∈ entropyFrom o text s places) : ∃ t, ∃ i ∈ places, m ∈ (entropyStep o text t i).2 := by
  induction places generalizing s with
  | nil => cases member
  | cons i is next =>
      rcases List.mem_append.mp member with here | later
      · exact ⟨s, i, List.mem_cons_self, here⟩
      · obtain ⟨t, j, listed, finds⟩ := next later
        exact ⟨t, j, List.mem_cons_of_mem i listed, finds⟩

theorem scanEntropy_spec {o : Oracle} {text : Text} (member : m ∈ scanEntropy o text) :
    Within text m ∧ m.severity = .medium := by
  obtain ⟨t, i, listed, finds⟩ := mem_entropyFrom member
  have place := List.mem_range.mp listed
  unfold entropyStep at finds
  obtain ⟨long, isRun⟩ := List.mem_ite_nil_right.mp finds
  obtain rfl := List.mem_singleton.mp isRun
  have size := long.2.1
  exact ⟨⟨by dsimp only; omega, by dsimp only; omega⟩, rfl⟩

theorem ruleMatches_within {o : Oracle} {text : Text} (member : m ∈ ruleMatches o text) : Within text m := by
  rcases List.mem_append.mp member with pattern | entropy
  · exact (scanPatterns_decisive o text m pattern).1
  · exact (scanEntropy_spec entropy).1

theorem medium_le {o : Oracle} {text : Text} (member : m ∈ ruleMatches o text) :
    Severity.medium.rank ≤ m.severity.rank := by
  rcases List.mem_append.mp member with pattern | entropy
  · rw [(scanPatterns_decisive o text m pattern).2]
    decide
  · rw [(scanEntropy_spec entropy).2]

theorem ruleMatches_falling (o : Oracle) (text : Text) :
    (ruleMatches o text).Pairwise fun x y => y.severity.rank ≤ x.severity.rank := by
  refine List.pairwise_append.mpr ⟨?_, ?_, ?_⟩
  · refine List.pairwise_of_forall_mem_list ?_
    intro x first y second
    rw [(scanPatterns_decisive o text x first).2, (scanPatterns_decisive o text y second).2]
  · refine List.pairwise_of_forall_mem_list ?_
    intro x first y second
    rw [(scanEntropy_spec first).2, (scanEntropy_spec second).2]
  · intro x first y second
    rw [(scanPatterns_decisive o text x first).2, (scanEntropy_spec second).2]
    decide

/-! ### First come -/

theorem mvPush_eq {mv : List SecretMatch} (lighter : ∀ x ∈ mv, m.severity.rank ≤ x.severity.rank) :
    mvPushNonoverlapping mv m = if ∃ x ∈ mv, Overlap m.span x.span then mv else mv ++ [m] := by
  induction mv with
  | nil =>
      rw [mvPushNonoverlapping, if_neg]
      · rfl
      · rintro ⟨x, member, _⟩
        cases member
  | cons x xs next =>
      rw [mvPushNonoverlapping]
      by_cases meets : Overlap m.span x.span
      · rw [if_pos meets, if_pos (lighter x List.mem_cons_self), if_pos ⟨x, List.mem_cons_self, meets⟩]
      · rw [if_neg meets, next fun y member => lighter y (List.mem_cons_of_mem x member)]
        have same : (∃ y ∈ x :: xs, Overlap m.span y.span) ↔ ∃ y ∈ xs, Overlap m.span y.span := by
          rw [List.exists_mem_cons_iff, or_iff_right meets]
        by_cases later : ∃ y ∈ xs, Overlap m.span y.span
        · rw [if_pos later, if_pos (same.mpr later)]
        · rw [if_neg later, if_neg (mt same.mp later), List.cons_append]

theorem foldl_mvPush {mv ms : List SecretMatch} (falling : ms.Pairwise fun x y => y.severity.rank ≤ x.severity.rank)
    (lighter : ∀ m ∈ ms, ∀ x ∈ mv, m.severity.rank ≤ x.severity.rank) :
    (ms.foldl mvPushNonoverlapping mv).map SecretMatch.span =
      firstCome (mv.map SecretMatch.span) (ms.map SecretMatch.span) := by
  induction ms generalizing mv with
  | nil => rfl
  | cons m rest next =>
      obtain ⟨first, later⟩ := List.pairwise_cons.mp falling
      rw [List.foldl_cons, mvPush_eq (lighter m List.mem_cons_self), List.map_cons, firstCome]
      have meets : (∃ y ∈ mv.map SecretMatch.span, Overlap m.span y) ↔ ∃ x ∈ mv, Overlap m.span x.span := by
        simp only [List.mem_map, exists_exists_and_eq_and]
      by_cases overlaps : ∃ x ∈ mv, Overlap m.span x.span
      · rw [if_pos overlaps, if_pos (meets.mpr overlaps)]
        exact next later fun y member => lighter y (List.mem_cons_of_mem m member)
      · rw [if_neg overlaps, if_neg (mt meets.mp overlaps), next later, List.map_append, List.map_singleton]
        intro y member x listed
        rcases List.mem_append.mp listed with old | new
        · exact lighter y (List.mem_cons_of_mem m member) x old
        · rw [List.mem_singleton.mp new]
          exact first y member

def ruleSpans (o : Oracle) (text : Text) : List Span :=
  (ruleMatches o text).map SecretMatch.span

section Scan

variable (o : Oracle) (text : Text)

theorem scan_perm : ((secretScanText o text).map SecretMatch.span).Perm (firstCome [] (ruleSpans o text)) := by
  have taken := @foldl_mvPush [] _ (ruleMatches_falling o text) fun _ _ x member => nomatch member
  rw [List.map_nil] at taken
  rw [ruleSpans, ← taken]
  exact (List.mergeSort_perm _ _).map _

theorem firstCome_within {x : Span} (member : x ∈ firstCome [] (ruleSpans o text)) :
    x.start < x.stop ∧ x.stop ≤ text.length := by
  rcases mem_firstCome member with none | listed
  · cases none
  · obtain ⟨m, found, rfl⟩ := List.mem_map.mp listed
    exact ruleMatches_within found

theorem mem_mvPush {mv : List SecretMatch} {m x : SecretMatch} (member : x ∈ mvPushNonoverlapping mv m) :
    x ∈ mv ∨ x = m := by
  induction mv with
  | nil => exact .inr (List.mem_singleton.mp member)
  | cons y ys next =>
      unfold mvPushNonoverlapping at member
      split_ifs at member
      · exact .inl member
      · rcases List.mem_cons.mp member with new | old
        · exact .inr new
        · exact .inl (List.mem_cons_of_mem y old)
      · rcases List.mem_cons.mp member with rfl | later
        · exact .inl List.mem_cons_self
        · exact (next later).imp_left (List.mem_cons_of_mem y)

theorem mem_foldl_mvPush {mv ms : List SecretMatch} {x : SecretMatch} (member : x ∈ ms.foldl mvPushNonoverlapping mv) :
    x ∈ mv ∨ x ∈ ms := by
  induction ms generalizing mv with
  | nil => exact .inl member
  | cons m rest next =>
      rcases next member with pushed | later
      · rcases mem_mvPush pushed with old | rfl
        · exact .inl old
        · exact .inr List.mem_cons_self
      · exact .inr (List.mem_cons_of_mem m later)

theorem replacedSpans_eq : replacedSpans o text = (secretScanText o text).map SecretMatch.span := by
  rw [replacedSpans, List.filter_eq_self.mpr]
  intro m member
  rcases mem_foldl_mvPush (List.mem_mergeSort.mp member) with none | found
  · cases none
  · exact decide_eq_true (medium_le found)

theorem mem_replacedSpans {x : Span} : x ∈ replacedSpans o text ↔ x ∈ firstCome [] (ruleSpans o text) := by
  rw [replacedSpans_eq]
  exact (scan_perm o text).mem_iff

theorem covered_replacedSpans {i : Nat} :
    Covered (replacedSpans o text) i ↔ Covered (firstCome [] (ruleSpans o text)) i := by
  constructor
  · rintro ⟨x, member, bounds⟩
    exact ⟨x, (mem_replacedSpans o text).mp member, bounds⟩
  · rintro ⟨x, member, bounds⟩
    exact ⟨x, (mem_replacedSpans o text).mpr member, bounds⟩

theorem scan_sorted : ((secretScanText o text).map SecretMatch.span).Pairwise fun x y => x.stop ≤ y.start := by
  have sorted : ((secretScanText o text).map SecretMatch.span).Pairwise fun x y => x.start ≤ y.start := by
    refine List.pairwise_map.mpr ((List.pairwise_mergeSort ?_ ?_ _).imp of_decide_eq_true)
    · intro x y z first second
      exact decide_eq_true (le_trans (of_decide_eq_true first) (of_decide_eq_true second))
    · intro x y
      rcases Nat.le_total x.span.start y.span.start with first | second
      · rw [decide_eq_true first, Bool.true_or]
      · rw [decide_eq_true second, Bool.or_true]
  have apart : ((secretScanText o text).map SecretMatch.span).Pairwise fun x y => ¬ Overlap y x := by
    refine ((scan_perm o text).pairwise_iff ?_).mpr (firstCome_apart (ruleSpans o text) List.Pairwise.nil)
    intro x y free meets
    exact free ⟨meets.2, meets.1⟩
  refine (sorted.and apart).imp_of_mem ?_
  intro x y first second both
  have bounds := firstCome_within o text ((scan_perm o text).mem_iff.mp first)
  have free : ¬ (y.start < x.stop ∧ x.start < y.stop) := both.2
  have bounds' := firstCome_within o text ((scan_perm o text).mem_iff.mp second)
  have order := both.1
  omega

end Scan

/-- Redaction of a text: what the rules match is in what is replaced, what is reported is sorted,
disjoint and in range, and with its own bytes for each replaced span the text comes back. -/
structure Redacts (o : Oracle) (text replacement : Text) : Prop where
  covers : ∀ m ∈ ruleMatches o text, Severity.medium.rank ≤ m.severity.rank → Inside m.span (replacedSpans o text)
  sorted : ((secretScanText o text).map SecretMatch.span).Pairwise fun x y => x.stop ≤ y.start
  inRange : ∀ m ∈ secretScanText o text, m.span.start < m.span.stop ∧ m.span.stop ≤ text.length
  replaces : secretRedactText o text replacement = replaceSpans (fun _ => replacement) text 0 (replacedSpans o text)
  copies : text = replaceSpans (fun x => slice text x.start x.stop) text 0 (replacedSpans o text)

def plainOracle : Oracle where
  shannon := fun _ => 3
  fsExists := fun _ => false

def bearerWithPassword : Text :=
  ascii "Bearer abcdefghij.password=hunter2!tail99"

end CognitiveOs.Security
