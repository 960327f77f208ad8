import CognitiveOs.Foundation.Wildcard
import CognitiveOs.Infra.Text
import Mathlib.Logic.Relation

/-!
# Glob patterns

`seg_match` and `glob_match_segs` of `action/tool_search.c`. A pointer into a string is the text
from there on.
-/

namespace CognitiveOs.Action.Search

open Infra Foundation Wild

/-! ### One segment -/

/-- The variables of the loop of `seg_match`; behind the last star are the pattern `star + 1` and
the name `star_s`. -/
structure Cursor where
  p : Text
  ss : Text
  star : Option (Text × Text) := none

namespace Cursor

def step (k : Cursor) : Cursor ⊕ Bool :=
  match k.ss with
  | [] => .inr (k.p.all (· = 42))
  | c :: ss =>
    if k.p.head? = some 63 ∨ k.p.head? = some c then .inl { k with p := k.p.tail, ss }
    else if k.p.head? = some 42 then .inl { k with p := k.p.tail, star := some (k.p.tail, k.ss) }
    else
      match k.star with
      | some (after, rest) => .inl { p := after, ss := rest.tail, star := some (after, rest.tail) }
      | none => .inr false

def left (k : Cursor) : Nat × Nat × Nat :=
  match k.star with
  | none => (k.p.length, 0, k.ss.length)
  | some (after, rest) => (max k.p.length after.length, rest.length, k.ss.length)

variable {k : Cursor}

theorem step_left {next : Cursor} (step : k.step = .inl next) :
    Prod.Lex (· < ·) (Prod.Lex (· < ·) (· < ·)) next.left k.left := by
  obtain ⟨p, ss, star⟩ := k
  cases ss with
  | nil => cases step
  | cons c ss =>
    have shorter : p.tail.length ≤ p.length := by simp
    unfold Cursor.step at step
    simp only at step
    split at step
    · cases step
      obtain _ | ⟨after, rest⟩ := star
      · obtain less | same := Nat.lt_or_eq_of_le shorter
        · exact .left _ _ less
        · simp only [left, same, List.length_cons]
          exact .right _ (.right _ (Nat.lt_succ_self _))
      · have bound : max p.tail.length after.length ≤ max p.length after.length := by omega
        obtain less | same := Nat.lt_or_eq_of_le bound
        · exact .left _ _ less
        · simp only [left, same, List.length_cons]
          exact .right _ (.right _ (Nat.lt_succ_self _))
    · split at step
      · next star' =>
        cases step
        obtain ⟨rest, rfl⟩ : ∃ rest, p = 42 :: rest := by
          cases p with
          | nil => cases star'
          | cons d rest =>
            cases star'
            exact ⟨rest, rfl⟩
        obtain _ | ⟨after, behind⟩ := star
        · exact .left _ _ (by simp)
        · refine .left _ _ ?_
          simp only [List.tail_cons, max_self, List.length_cons]
          omega
      · split at step
        · next after rest =>
          cases step
          simp only [left, max_self]
          obtain less | same := Nat.lt_or_eq_of_le (le_max_right p.length after.length)
          · exact .left _ _ less
          · rw [← same]
            cases rest with
            | nil => exact .right _ (.right _ (by simp))
            | cons d rest => exact .right _ (.left _ _ (by simp))
        · cases step

def run (k : Cursor) : Bool :=
  match _h : k.step with
  | .inl next => run next
  | .inr answer => answer
termination_by k.left
decreasing_by exact step_left _h

theorem run_step {next : Cursor} (step : k.step = .inl next) : k.run = next.run := by
  rw [run]
  split
  · next h =>
    rw [step] at h
    cases h
    rfl
  · next h =>
    rw [step] at h
    cases h

theorem run_done {answer : Bool} (step : k.step = .inr answer) : k.run = answer := by
  rw [run]
  split
  · next h =>
    rw [step] at h
    cases h
  · next h =>
    rw [step] at h
    cases h
    rfl

def AtStars (k : Cursor) : Prop :=
  k.p.head? = some 42 ∧ k.ss.head? = some 42

def Next (k next : Cursor) : Prop :=
  k.step = .inl next

end Cursor

def segMatch (seg name : Text) : Bool :=
  Cursor.run { p := seg, ss := name }

/-- `seg_match` never comes to a star of the name with a star of the pattern. -/
def ClearOfStars (seg name : Text) : Prop :=
  ∀ k, Relation.ReflTransGen Cursor.Next { p := seg, ss := name } k → ¬k.AtStars

variable {seg name : Text}

theorem clearOfStars_of_name (plain : (42 : UInt8) ∉ name) : ClearOfStars seg name := by
  let Plain (k : Cursor) : Prop := 42 ∉ k.ss ∧ ∀ after rest, k.star = some (after, rest) → 42 ∉ rest
  have kept : ∀ k next, Plain k → Cursor.Next k next → Plain next := by
    rintro ⟨p, ss, star⟩ next ⟨here, behind⟩ step
    cases ss with
    | nil => cases step
    | cons c ss =>
      have later : (42 : UInt8) ∉ ss := fun member => here (List.mem_cons_of_mem c member)
      unfold Cursor.Next Cursor.step at step
      simp only at step
      split at step
      · cases step
        exact ⟨later, behind⟩
      · split at step
        · cases step
          refine ⟨here, ?_⟩
          rintro after rest ⟨⟩
          exact here
        · split at step
          · next after rest =>
            cases step
            have tail : (42 : UInt8) ∉ rest.tail := fun member => behind after rest rfl (List.mem_of_mem_tail member)
            refine ⟨tail, ?_⟩
            rintro _ _ ⟨⟩
            exact tail
          · cases step
  intro k reached
  have whole : Plain k := by
    induction reached with
    | refl => exact ⟨plain, fun _ _ none' => nomatch none'⟩
    | tail _ step ih => exact kept _ _ ih step
  rintro ⟨-, at'⟩
  exact whole.1 (List.mem_of_mem_head? at')

/-! ### All segments -/

/-- `strchr(s, '/')`: the segment, and the text behind the slash. -/
def cut (s : Text) : Text × Option Text :=
  (s.takeWhile (· ≠ slash), (s.dropWhile (· ≠ slash)).tail?)

theorem cut_shorter {s later : Text} (split : cut s = (seg, some later)) : later.length < s.length := by
  unfold cut at split
  rw [Prod.mk.injEq] at split
  have bound := (List.dropWhile_suffix (l := s) (· ≠ slash)).length_le
  cases behind : s.dropWhile (· ≠ slash) with
  | nil =>
    rw [behind] at split
    cases split.2
  | cons c rest =>
    rw [behind] at split bound
    cases split.2
    exact bound

/-- `**`. -/
def stars : Text := [42, 42]

mutual

def globMatchSegs (pat path : Text) : Bool :=
  if pat = [] then path = []
  else
    match _h : cut pat with
    | (seg, more) =>
      if seg = stars then
        match more with
        | none => true
        | some [] => true
        | some (c :: rest) => globAnywhere (c :: rest) path
      else
        match cut path with
        | (name, left) =>
          if 256 ≤ name.length then false
          else if !segMatch seg name then false
          else
            match more, left with
            | none, left => left.isNone
            | some _, none => false
            | some pat, some path => globMatchSegs pat path
termination_by (pat.length, 0, 0)
decreasing_by
  · exact .left _ _ (cut_shorter _h)
  · exact .left _ _ (cut_shorter _h)

def globAnywhere (pat path : Text) : Bool :=
  globMatchSegs pat path ||
    match _h : (cut path).2 with
    | none => false
    | some later => globAnywhere pat later
termination_by (pat.length, 1, path.length)
decreasing_by
  · exact .right _ (.left _ _ (by decide))
  · exact .right _ (.right _ (cut_shorter (Prod.ext rfl _h)))

end

/-! ### What a glob means -/

def wildByte (c : UInt8) : Wild UInt8 :=
  if c = 42 then .gap else if c = 63 then .one fun _ => True else .one (· = c)

def SegMatches (seg name : Text) : Prop :=
  Matches (seg.map wildByte) name

def wildSegment (seg : Text) : Wild Text :=
  if seg = stars then .gap else .one (SegMatches seg)

def SegsMatch (pattern path : List Text) : Prop :=
  Matches (pattern.map wildSegment) path

def GlobMatches (pat path : Text) : Prop :=
  SegsMatch (pat.splitOn slash) (path.splitOn slash)

/-! ### `seg_match` -/

/-- Where the loop stands: what is left to match decides the whole. -/
inductive Behind (seg name : Text) : Cursor → Prop where
  | start {p ss : Text} : (SegMatches seg name ↔ SegMatches p ss) → Behind seg name { p, ss }
  | star {front p u ss : Text} : Fits (front.map wildByte) u →
      (SegMatches seg name ↔ Matches (.gap :: (front ++ p).map wildByte) (u ++ ss)) →
      Behind seg name { p, ss, star := some (front ++ p, u ++ ss) }

theorem wildByte_ordinary {c : UInt8} (other : c ≠ 42) :
    ∃ allowed, wildByte c = .one allowed ∧ ∀ b, allowed b ↔ c = 63 ∨ c = b := by
  unfold wildByte
  rw [if_neg other]
  split
  · next question => exact ⟨_, rfl, fun b => by simp [question]⟩
  · next exact' => exact ⟨_, rfl, fun b => by simp [exact', eq_comm]⟩

theorem wildByte_star : wildByte 42 = .gap := rfl

theorem all_stars {p : Text} : (∀ w ∈ p.map wildByte, w = .gap) ↔ p.all (· = 42) = true := by
  rw [List.all_eq_true, List.forall_mem_map]
  refine forall₂_congr fun c _ => ?_
  rw [decide_eq_true_eq]
  constructor
  · intro gap
    by_contra other
    obtain ⟨allowed, same, -⟩ := wildByte_ordinary other
    rw [same] at gap
    cases gap
  · rintro rfl
    rfl

theorem Behind.retry {front p u ss : Text} {c : UInt8} (fits : Fits (front.map wildByte) u)
    (meaning : SegMatches seg name ↔ Matches (.gap :: (front ++ p).map wildByte) (u ++ c :: ss))
    (mismatch : ¬Matches (p.map wildByte) (c :: ss)) :
    Behind seg name
      { p := front ++ p, ss := (u ++ c :: ss).tail, star := some (front ++ p, (u ++ c :: ss).tail) } := by
  refine @Behind.star seg name [] _ [] _ .nil (meaning.trans ?_)
  have here : ¬Matches ((front ++ p).map wildByte) (u ++ c :: ss) := by
    rw [List.map_append, fits.matches_iff]
    exact mismatch
  obtain ⟨b, later, same⟩ := List.exists_cons_of_ne_nil (List.append_ne_nil_of_right_ne_nil u (List.cons_ne_nil c ss))
  rw [same] at here ⊢
  exact matches_gap_cons.trans (or_iff_right here)

theorem Behind.step {seg name : Text} {k : Cursor} (behind : Behind seg name k) (clear : ¬k.AtStars) :
    (∃ next, k.step = .inl next ∧ Behind seg name next) ∨
      ∃ answer, k.step = .inr answer ∧ (answer = true ↔ SegMatches seg name) := by
  cases behind with
  | @start p ss meaning =>
    rw [meaning]
    cases ss with
    | nil => exact .inr ⟨_, rfl, all_stars.symm.trans matches_empty.symm⟩
    | cons c ss =>
      cases p with
      | nil => exact .inr ⟨false, rfl, by simp [SegMatches]⟩
      | cons d p =>
        by_cases star : d = 42
        · subst star
          have other : c ≠ 42 := fun same => clear ⟨rfl, congrArg some same⟩
          refine .inl ⟨{ p, ss := c :: ss, star := some (p, c :: ss) }, ?_,
            @Behind.star seg name [] p [] (c :: ss) .nil meaning⟩
          simp [Cursor.step, other.symm]
        · obtain ⟨allowed, wild, allows⟩ := wildByte_ordinary star
          have one : SegMatches (d :: p) (c :: ss) ↔ allowed c ∧ SegMatches p ss := by
            unfold SegMatches
            rw [List.map_cons, wild, matches_one_cons]
          by_cases here : d = 63 ∨ d = c
          · refine .inl ⟨{ p, ss }, ?_, .start (meaning.trans (one.trans (and_iff_right ((allows c).mpr here))))⟩
            simp [Cursor.step, here]
          · refine .inr ⟨false, by simp [Cursor.step, here, star], ?_⟩
            rw [one, allows]
            simp [here]
  | @star front p u ss fits meaning =>
    rw [meaning]
    cases ss with
    | nil =>
      refine .inr ⟨_, rfl, ?_⟩
      rw [List.append_nil, List.map_append, fits.finish, all_stars]
    | cons c ss =>
      cases p with
      | nil => exact .inl ⟨_, rfl, .retry fits meaning (by simp)⟩
      | cons d p =>
        by_cases star : d = 42
        · subst star
          have other : c ≠ 42 := fun same => clear ⟨rfl, congrArg some same⟩
          refine .inl ⟨{ p, ss := c :: ss, star := some (p, c :: ss) }, by simp [Cursor.step, other.symm],
            @Behind.star seg name [] p [] (c :: ss) .nil (meaning.trans ?_)⟩
          rw [List.map_append, List.map_cons, wildByte_star]
          exact fits.commit
        · obtain ⟨allowed, wild, allows⟩ := wildByte_ordinary star
          by_cases here : d = 63 ∨ d = c
          · have longer : Fits ((front ++ [d]).map wildByte) (u ++ [c]) := by
              rw [List.map_append, List.map_singleton, wild]
              exact fits.snoc ((allows c).mpr here)
            have same : front ++ d :: p = (front ++ [d]) ++ p := by simp
            have same' : u ++ c :: ss = (u ++ [c]) ++ ss := by simp
            rw [same, same'] at meaning ⊢
            exact .inl ⟨{ p, ss, star := some ((front ++ [d]) ++ p, (u ++ [c]) ++ ss) },
              by simp [Cursor.step, here], .star longer meaning⟩
          · refine .inl ⟨_, by simp [Cursor.step, here, star], .retry fits meaning ?_⟩
            rw [List.map_cons, wild, matches_one_cons, allows]
            exact fun match' => here match'.1

theorem segMatch_iff (clear : ClearOfStars seg name) : segMatch seg name = true ↔ SegMatches seg name := by
  have run : ∀ k, Behind seg name k → (∀ later, Relation.ReflTransGen Cursor.Next k later → ¬later.AtStars) →
      (k.run = true ↔ SegMatches seg name) := by
    intro k
    induction k using Cursor.run.induct with
    | case1 k next step ih =>
      intro behind clear
      obtain ⟨later, same, kept⟩ | ⟨answer, same, -⟩ := behind.step (clear k .refl)
      · rw [step] at same
        cases same
        rw [Cursor.run_step step]
        exact ih kept fun later reached => clear later (.head step reached)
      · rw [step] at same
        cases same
    | case2 k answer step =>
      intro behind clear
      obtain ⟨later, same, -⟩ | ⟨answer', same, meaning⟩ := behind.step (clear k .refl)
      · rw [step] at same
        cases same
      · rw [step] at same
        cases same
        rw [Cursor.run_done step]
        exact meaning
  exact run _ (.start Iff.rfl) clear

/-! ### Segments -/

theorem splitOn_cut (s : Text) :
    s.splitOn slash = (cut s).1 :: ((cut s).2.map fun later => later.splitOn slash).getD [] := by
  induction s with
  | nil => rfl
  | cons c s ih =>
    rw [List.splitOn_cons_eq_if_modifyHead]
    by_cases here : c = slash
    · subst here
      simp [cut]
    · rw [if_neg (by simpa using here), ih]
      simp [cut, here]

def anywhere (found : List Text → Bool) : List Text → Bool
  | [] => false
  | name :: left => found (name :: left) || anywhere found left

/-- `glob_match_segs` on the segments. -/
def globSegs : List Text → List Text → Bool
  | [], _ => false
  | seg :: more, path =>
    if seg = stars then
      if more = [] ∨ more = [[]] then true else anywhere (globSegs more) path
    else
      match path with
      | [] => false
      | name :: left => segMatch seg name && if more = [] then left = [] else left ≠ [] && globSegs more left

theorem globSegs_star (more path : List Text) :
    globSegs (stars :: more) path = if more = [] ∨ more = [[]] then true else anywhere (globSegs more) path := by
  rw [globSegs.eq_def]
  exact if_pos rfl

theorem globSegs_cons (ordinary : seg ≠ stars) (more : List Text) (name : Text) (left : List Text) :
    globSegs (seg :: more) (name :: left) =
      (segMatch seg name && if more = [] then left = [] else left ≠ [] && globSegs more left) := by
  rw [globSegs.eq_def]
  exact if_neg ordinary

theorem splitOn_eq_empty {s : Text} : s.splitOn slash = [[]] ↔ s = [] := by
  cases s with
  | nil => simp
  | cons c s =>
    rw [List.splitOn_cons_eq_if_modifyHead]
    obtain ⟨first, later, same⟩ := List.exists_cons_of_ne_nil (List.splitOn_ne_nil slash s)
    rw [same]
    split <;> simp

theorem globAnywhere_eq {pat path : Text} {P : List Text}
    (same : ∀ path : Text, (∀ name ∈ path.splitOn slash, name.length ≤ 255) →
      globMatchSegs pat path = globSegs P (path.splitOn slash))
    (short : ∀ name ∈ path.splitOn slash, name.length ≤ 255) :
    globAnywhere pat path = anywhere (globSegs P) (path.splitOn slash) := by
  induction size : path.length using Nat.strong_induction_on generalizing path with
  | _ n ih =>
    rw [globAnywhere, same path short]
    rcases parts : cut path with ⟨name, _ | later⟩
    · have split : path.splitOn slash = [name] := by rw [splitOn_cut, parts]; rfl
      simp [split, anywhere]
    · have split : path.splitOn slash = name :: later.splitOn slash := by rw [splitOn_cut, parts]; rfl
      have rest := ih later.length (size ▸ cut_shorter parts)
        (fun seg member => short seg (split ▸ List.mem_cons_of_mem name member)) rfl
      simp [split, anywhere, rest]

theorem segMatch_nil (name : Text) : segMatch [] name = decide (name = []) := by
  cases name with
  | nil => exact Cursor.run_done (by rfl)
  | cons c name => exact Cursor.run_done (by rfl)

theorem globMatchSegs_eq {pat path : Text} (short : ∀ name ∈ path.splitOn slash, name.length ≤ 255) :
    globMatchSegs pat path = globSegs (pat.splitOn slash) (path.splitOn slash) := by
  induction size : pat.length using Nat.strong_induction_on generalizing pat path with
  | _ n ih =>
    obtain ⟨name, left, parts⟩ : ∃ name left, cut path = (name, left) := ⟨_, _, rfl⟩
    have split' : path.splitOn slash = name :: (left.map fun later => later.splitOn slash).getD [] := by
      rw [splitOn_cut, parts]
    have fits : name.length ≤ 255 := short name (split' ▸ List.mem_cons_self)
    rw [globMatchSegs]
    by_cases empty : pat = []
    · subst empty
      have end' : path = [] ↔ name = [] ∧ left = none := by
        rw [← splitOn_eq_empty, split']
        cases left <;> simp [List.splitOn_ne_nil]
      cases left <;> simp [end', split', globSegs, stars, segMatch_nil, List.splitOn_ne_nil]
    · rw [if_neg empty]
      split
      next seg more cutPat =>
        have splitP : pat.splitOn slash = seg :: (more.map fun later => later.splitOn slash).getD [] := by
          rw [splitOn_cut, cutPat]
        have later : ∀ rest, more = some rest → ∀ path : Text, (∀ name ∈ path.splitOn slash, name.length ≤ 255) →
            globMatchSegs rest path = globSegs (rest.splitOn slash) (path.splitOn slash) := by
          rintro rest rfl path short
          exact ih rest.length (size ▸ cut_shorter cutPat) short rfl
        rw [splitP]
        by_cases star : seg = stars
        · rw [if_pos star]
          cases more with
          | none => simp [globSegs, star]
          | some rest =>
            cases rest with
            | nil => simp [globSegs, star]
            | cons c rest =>
              have visible : (c :: rest : Text).splitOn slash ≠ [[]] := fun same => by
                cases splitOn_eq_empty.mp same
              simp only
              rw [globAnywhere_eq (later _ rfl) short]
              simp [globSegs, star, visible, List.splitOn_ne_nil]
        · rw [if_neg star, parts, split']
          simp only [globSegs, if_neg star]
          rw [if_neg (by omega)]
          cases segMatch seg name with
          | false => rfl
          | true =>
            cases more with
            | none => cases left <;> simp [List.splitOn_ne_nil]
            | some rest =>
              cases left with
              | none => simp [List.splitOn_ne_nil]
              | some path' =>
                have rest' := later rest rfl path' fun name member =>
                  short name (split' ▸ List.mem_cons_of_mem _ member)
                simp [List.splitOn_ne_nil, rest']

/-! ### Runs -/

variable {path more pattern : List Text}

/-- What `found` is asked on the way keeps `clear`. -/
def ClearAnywhere (found : List Text → Bool) (clear : List Text → Prop) : List Text → Prop
  | [] => True
  | name :: left => clear (name :: left) ∧ (found (name :: left) = false → ClearAnywhere found clear left)

/-- No call of `seg_match` that a run of `glob_match_segs` makes comes to a star at a star. -/
def ClearRun : List Text → List Text → Prop
  | [], _ => True
  | seg :: more, path =>
    if seg = stars then more = [] ∨ more = [[]] ∨ ClearAnywhere (globSegs more) (ClearRun more) path
    else
      match path with
      | [] => True
      | name :: left =>
        ClearOfStars seg name ∧ (segMatch seg name = true → more ≠ [] → left ≠ [] → ClearRun more left)

theorem clearRun_star :
    ClearRun (stars :: more) path ↔ more = [] ∨ more = [[]] ∨ ClearAnywhere (globSegs more) (ClearRun more) path := by
  rw [ClearRun.eq_def]
  exact Iff.of_eq (if_pos rfl)

/-- The segments before a last `**`, or before a last `**` and slash. -/
def stem : List Text → Option (List Text)
  | [] => none
  | seg :: more => if seg = stars ∧ (more = [] ∨ more = [[]]) then some [] else (stem more).map (seg :: ·)

/-- The segments match the beginning of a path and leave at least one of its segments. -/
def MatchesBeginning (pattern path : List Text) : Prop :=
  ∃ first later, path = first ++ later ∧ later ≠ [] ∧ SegsMatch pattern first

/-- What `glob_match_segs` accepts. -/
def Accepts (pattern path : List Text) : Prop :=
  match stem pattern with
  | none => SegsMatch pattern path
  | some front => MatchesBeginning front path

/-- The pattern means what is accepted: a last `**` need not stand for no segment, and with a
slash behind it the path ends in a slash. -/
def Agrees (pattern path : List Text) : Prop :=
  match stem pattern with
  | none => True
  | some front =>
    if pattern.getLast? = some stars then SegsMatch front path → MatchesBeginning front path
    else MatchesBeginning front path → path.getLast? = some []

theorem stem_spec {front : List Text} (found : stem pattern = some front) :
    pattern = front ++ [stars] ∨ pattern = front ++ [stars, []] := by
  induction pattern generalizing front with
  | nil => cases found
  | cons seg more ih =>
    unfold stem at found
    split at found
    · next last =>
      cases found
      obtain ⟨rfl, rfl | rfl⟩ := last
      · exact .inl rfl
      · exact .inr rfl
    · obtain ⟨front, later, rfl⟩ := Option.map_eq_some_iff.mp found
      obtain same | same := ih later
      · exact .inl (congrArg (seg :: ·) same)
      · exact .inr (congrArg (seg :: ·) same)

theorem not_matches_empty (some' : pattern ≠ []) (none' : stem pattern = none) : ¬SegsMatch pattern [] := by
  intro empty
  have gaps := matches_empty.mp empty
  induction pattern with
  | nil => exact some' rfl
  | cons seg more ih =>
    have star : seg = stars := by
      by_contra other
      have gap := gaps (wildSegment seg) List.mem_cons_self
      unfold wildSegment at gap
      rw [if_neg other] at gap
      cases gap
    subst star
    unfold stem at none'
    split at none'
    · cases none'
    · next last =>
      simp only [true_and, not_or] at last
      rw [Option.map_eq_none_iff] at none'
      have later : ∀ w ∈ more.map wildSegment, w = .gap := fun w member => gaps w (List.mem_cons_of_mem _ member)
      exact ih last.1 none' (matches_empty.mpr later) later

theorem segsMatch_star : SegsMatch (stars :: more) path ↔ ∃ later, later <:+ path ∧ SegsMatch more later :=
  matches_gap

theorem segsMatch_cons (ordinary : seg ≠ stars) :
    SegsMatch (seg :: more) path ↔ ∃ name left, path = name :: left ∧ SegMatches seg name ∧ SegsMatch more left := by
  unfold SegsMatch
  rw [List.map_cons, wildSegment, if_neg ordinary]
  exact matches_one

theorem accepts_star (last : ¬(more = [] ∨ more = [[]])) :
    Accepts (stars :: more) path ↔ ∃ later, later <:+ path ∧ later ≠ [] ∧ Accepts more later := by
  unfold Accepts
  rw [stem, if_neg fun both => last both.2]
  cases found : stem more with
  | none =>
    simp only [Option.map_none, segsMatch_star]
    refine exists_congr fun later => and_congr_right fun _ => ?_
    constructor
    · intro whole
      refine ⟨?_, whole⟩
      rintro rfl
      exact not_matches_empty (fun none' => last (.inl none')) found whole
    · exact And.right
  | some front =>
    simp only [Option.map_some, MatchesBeginning, segsMatch_star]
    constructor
    · rintro ⟨first, left, rfl, some', later, ⟨run, rfl⟩, whole⟩
      refine ⟨later ++ left, ⟨run, (List.append_assoc run later left).symm⟩, ?_, later, left, rfl, some', whole⟩
      exact List.append_ne_nil_of_right_ne_nil later some'
    · rintro ⟨_, ⟨run, rfl⟩, -, first, left, rfl, some', whole⟩
      exact ⟨run ++ first, left, (List.append_assoc run first left).symm, some', first,
        List.suffix_append run first, whole⟩

theorem accepts_cons (ordinary : seg ≠ stars) (inner : more ≠ []) :
    Accepts (seg :: more) path ↔
      ∃ name left, path = name :: left ∧ SegMatches seg name ∧ left ≠ [] ∧ Accepts more left := by
  unfold Accepts
  rw [stem, if_neg fun both => ordinary both.1]
  cases found : stem more with
  | none =>
    simp only [Option.map_none, segsMatch_cons ordinary]
    refine exists_congr fun name => exists_congr fun left => and_congr_right fun _ => and_congr_right fun _ => ?_
    constructor
    · intro whole
      refine ⟨?_, whole⟩
      rintro rfl
      exact not_matches_empty inner found whole
    · exact And.right
  | some front =>
    simp only [Option.map_some, MatchesBeginning, segsMatch_cons ordinary]
    constructor
    · rintro ⟨_, left, rfl, some', name, rest, rfl, here, whole⟩
      exact ⟨name, rest ++ left, rfl, here, List.append_ne_nil_of_right_ne_nil rest some', rest, left, rfl, some',
        whole⟩
    · rintro ⟨name, _, rfl, here, -, rest, left, rfl, some', whole⟩
      exact ⟨name :: rest, left, rfl, some', name, rest, rfl, here, whole⟩

theorem anywhere_iff {found : List Text → Bool} {clear : List Text → Prop} {meaning : List Text → Prop}
    (agree : ∀ path, path ≠ [] → clear path → (found path = true ↔ meaning path))
    (asked : ClearAnywhere found clear path) :
    anywhere found path = true ↔ ∃ later, later <:+ path ∧ later ≠ [] ∧ meaning later := by
  induction path with
  | nil => simp [anywhere]
  | cons name left ih =>
    have here := agree (name :: left) (List.cons_ne_nil name left) asked.1
    rw [anywhere, Bool.or_eq_true, here]
    constructor
    · rintro (now | later)
      · exact ⟨name :: left, List.suffix_refl _, List.cons_ne_nil name left, now⟩
      · by_cases now : meaning (name :: left)
        · exact ⟨name :: left, List.suffix_refl _, List.cons_ne_nil name left, now⟩
        · have none' : found (name :: left) = false := Bool.eq_false_iff.mpr fun yes => now (here.mp yes)
          obtain ⟨rest, suffix, some', whole⟩ := (ih (asked.2 none')).mp later
          exact ⟨rest, suffix.trans (List.suffix_cons name left), some', whole⟩
    · rintro ⟨rest, suffix, some', whole⟩
      by_cases now : meaning (name :: left)
      · exact .inl now
      · have none' : found (name :: left) = false := Bool.eq_false_iff.mpr fun yes => now (here.mp yes)
        obtain rfl | suffix := List.suffix_cons_iff.mp suffix
        · exact absurd whole now
        · exact .inr ((ih (asked.2 none')).mpr ⟨rest, suffix, some', whole⟩)

theorem globSegs_iff (some' : pattern ≠ []) (path' : path ≠ []) (clear : ClearRun pattern path) :
    globSegs pattern path = true ↔ Accepts pattern path := by
  induction pattern generalizing path with
  | nil => exact absurd rfl some'
  | cons seg more ih =>
    by_cases star : seg = stars
    · subst star
      by_cases last : more = [] ∨ more = [[]]
      · rw [globSegs_star, if_pos last, Accepts, stem, if_pos ⟨rfl, last⟩]
        exact iff_of_true rfl ⟨[], path, rfl, path', .nil⟩
      · rw [globSegs_star, if_neg last, accepts_star last]
        rw [clearRun_star, ← or_assoc, or_iff_right last] at clear
        exact anywhere_iff (fun path some' clear => ih (fun none' => last (.inl none')) some' clear) clear
    · obtain ⟨name, left, rfl⟩ := List.exists_cons_of_ne_nil path'
      rw [ClearRun, if_neg star] at clear
      have here := segMatch_iff clear.1
      rw [globSegs_cons star]
      by_cases inner : more = []
      · subst inner
        have none' : stem [seg] = none := by simp [stem, star]
        rw [Accepts, none']
        change _ ↔ SegsMatch [seg] (name :: left)
        rw [segsMatch_cons star]
        simp [here, SegsMatch, and_comm]
      · rw [accepts_cons star inner]
        simp only [if_neg inner, Bool.and_eq_true, decide_eq_true_eq, here]
        constructor
        · rintro ⟨now, some', later⟩
          exact ⟨name, left, rfl, now, some', (ih inner some' (clear.2 (here.mpr now) inner some')).mp later⟩
        · rintro ⟨_, _, ⟨⟩, now, some', later⟩
          exact ⟨now, some', (ih inner some' (clear.2 (here.mpr now) inner some')).mpr later⟩

theorem accepts_agrees (path' : path ≠ []) : (Accepts pattern path ↔ SegsMatch pattern path) ↔ Agrees pattern path := by
  unfold Accepts Agrees
  cases found : stem pattern with
  | none => simp
  | some front =>
    simp only
    obtain rfl | rfl := stem_spec found
    · have whole : SegsMatch (front ++ [stars]) path ↔
          ∃ first later, path = first ++ later ∧ SegsMatch front first := by
        unfold SegsMatch
        rw [List.map_append, matches_append]
        refine exists_congr fun first => exists_congr fun later => and_congr_right fun _ => and_iff_left ?_
        exact matches_gap.mpr ⟨[], List.nil_suffix, .nil⟩
      rw [whole, if_pos (by simp)]
      constructor
      · intro same all
        exact same.mpr ⟨path, [], (List.append_nil path).symm, all⟩
      · intro same
        constructor
        · rintro ⟨first, later, split, -, front'⟩
          exact ⟨first, later, split, front'⟩
        · rintro ⟨first, later, rfl, front'⟩
          by_cases end' : later = []
          · subst end'
            rw [List.append_nil] at same ⊢
            exact same front'
          · exact ⟨first, later, rfl, end', front'⟩
    · have whole : SegsMatch (front ++ [stars, []]) path ↔ MatchesBeginning front path ∧ path.getLast? = some [] := by
        unfold SegsMatch MatchesBeginning
        rw [List.map_append, matches_append]
        constructor
        · rintro ⟨first, later, rfl, front', rest⟩
          obtain ⟨last, ⟨run, rfl⟩, empty⟩ := segsMatch_star.mp rest
          obtain ⟨name, left, rfl, blank, none'⟩ := (segsMatch_cons (by decide)).mp empty
          obtain rfl := matches_nil.mp blank
          obtain rfl := matches_nil.mp none'
          exact ⟨⟨first, run ++ [[]], rfl, by simp, front'⟩, by simp⟩
        · rintro ⟨⟨first, later, rfl, some', front'⟩, last⟩
          rw [List.getLast?_append_of_ne_nil first some'] at last
          obtain ⟨run, rfl⟩ := List.getLast?_eq_some_iff.mp last
          exact ⟨first, run ++ [[]], rfl, front', segsMatch_star.mpr ⟨[[]], List.suffix_append run [[]],
            (segsMatch_cons (by decide)).mpr ⟨[], [], rfl, .nil, .nil⟩⟩⟩
      rw [whole, if_neg (by simp [stars])]
      exact iff_self_and

/-- On a run that never comes with a star to a star of a name, the glob means what it says unless a
last `**` would have to stand for no segment, or has only a slash behind it. -/
theorem glob_matches_iff {pat path : Text} (short : ∀ name ∈ path.splitOn slash, name.length ≤ 255)
    (clear : ClearRun (pat.splitOn slash) (path.splitOn slash)) :
    (globMatchSegs pat path = true ↔ GlobMatches pat path) ↔ Agrees (pat.splitOn slash) (path.splitOn slash) := by
  rw [globMatchSegs_eq short, globSegs_iff (List.splitOn_ne_nil slash pat) (List.splitOn_ne_nil slash path) clear]
  exact accepts_agrees (List.splitOn_ne_nil slash path)

theorem clearRun_of_names (plain : ∀ name ∈ path, (42 : UInt8) ∉ name) : ClearRun pattern path := by
  induction pattern generalizing path with
  | nil => trivial
  | cons seg more ih =>
    by_cases star : seg = stars
    · subst star
      refine clearRun_star.mpr (.inr (.inr ?_))
      induction path with
      | nil => trivial
      | cons name left later =>
        exact ⟨ih plain, fun _ => later fun seg member => plain seg (List.mem_cons_of_mem name member)⟩
    · cases path with
      | nil =>
        rw [ClearRun.eq_def]
        simp [star]
      | cons name left =>
        rw [ClearRun.eq_def]
        simp only [if_neg star]
        exact ⟨clearOfStars_of_name (plain name List.mem_cons_self), fun _ _ _ =>
          ih fun seg member => plain seg (List.mem_cons_of_mem name member)⟩

/-- A file below a directory; nothing lies between them. -/
theorem glob_matches_sources :
    (globMatchSegs (ascii "src/**/*.c") (ascii "src/a.c") = true ↔
      GlobMatches (ascii "src/**/*.c") (ascii "src/a.c")) ↔
      Agrees ((ascii "src/**/*.c").splitOn slash) ((ascii "src/a.c").splitOn slash) :=
  glob_matches_iff (by decide) (clearRun_of_names (by decide))

/-- A star is taken for the star of a name; a last `**` must stand for a segment, and with a slash
behind it stands for the empty name too. -/
theorem glob_goes_wrong :
    (globMatchSegs (ascii "*b") (ascii "*ab") = false ∧ GlobMatches (ascii "*b") (ascii "*ab")) ∧
      (globMatchSegs (ascii "a/**") (ascii "a") = false ∧ GlobMatches (ascii "a/**") (ascii "a")) ∧
      (globMatchSegs (ascii "**/") (ascii "a") = true ∧ ¬GlobMatches (ascii "**/") (ascii "a")) := by
  have star : segMatch [42, 98] [42, 97, 98] = false :=
    (Cursor.run_step (by rfl)).trans (Cursor.run_done (by rfl))
  have letter : segMatch [97] [97] = true := (Cursor.run_step (by rfl)).trans (Cursor.run_done (by rfl))
  have starB : (ascii "*b").splitOn slash = [[42, 98]] := by decide
  have starAb : (ascii "*ab").splitOn slash = [[42, 97, 98]] := by decide
  have a : (ascii "a").splitOn slash = [[97]] := by decide
  have inA : (ascii "a/**").splitOn slash = [[97], stars] := by decide
  have dirs : (ascii "**/").splitOn slash = [stars, []] := by decide
  have seg : SegMatches [97] [97] := .one rfl .nil
  refine ⟨⟨?_, ?_⟩, ⟨?_, ?_⟩, ?_, ?_⟩
  · rw [globMatchSegs_eq (by decide), starB, starAb, globSegs_cons (by decide), star]
    rfl
  · unfold GlobMatches
    rw [starB, starAb]
    exact .one (.gap [42, 97] (.one rfl .nil)) .nil
  · rw [globMatchSegs_eq (by decide), inA, a, globSegs_cons (by decide), letter]
    rfl
  · unfold GlobMatches
    rw [inA, a]
    exact (segsMatch_cons (by decide)).mpr ⟨_, _, rfl, seg, segsMatch_star.mpr ⟨[], List.nil_suffix, .nil⟩⟩
  · rw [globMatchSegs_eq (by decide), dirs, globSegs_star, if_pos (.inr rfl)]
  · unfold GlobMatches
    rw [dirs, a]
    intro whole
    have last : Agrees [stars, []] [[97]] := accepts_agrees (by decide) |>.mp
      (iff_of_true ⟨[], [[97]], rfl, by decide, .nil⟩ whole)
    exact absurd (last ⟨[], [[97]], rfl, by decide, .nil⟩) (by decide)

end CognitiveOs.Action.Search
