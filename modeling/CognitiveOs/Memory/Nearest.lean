import CognitiveOs.Foundation.Options
import CognitiveOs.Foundation.Ranking
import CognitiveOs.Memory.Working
import Mathlib.Algebra.Ring.Int.Defs
import Mathlib.Data.List.Induction

/-!
# The nearest vectors

The searches of `memory/vector.c`. The best entries so far stand in two arrays of the same size,
here one array of cells; a write behind its end is a fault, `none`. Scores are compared and are
otherwise left open.
-/

namespace CognitiveOs.Memory.Working

open Foundation Foundation.Ranking Infra

variable {Score : Type}

/-- `top_idx[j]` and `top_score[j]`. -/
structure Cell (Score : Type) where
  idx : Nat
  score : Score

/-- A write into an array of `cap` cells of which the first `top.length` have been written. -/
def write (cap : Nat) (top : List (Cell Score)) (j : Nat) (c : Cell Score) : Option (List (Cell Score)) :=
  if cap ≤ j then none
  else if j < top.length then some (top.set j c)
  else if j = top.length then some (top ++ [c])
  else none

/-- The cells from `pos` up to `j - 1` go one place up, the last of them first. -/
def shift (cap pos : Nat) : Nat → List (Cell Score) → Option (List (Cell Score))
  | 0, top => some top
  | j + 1, top =>
    if pos < j + 1 then
      top[j]?.bind fun c => (write cap top (j + 1) c).bind (shift cap pos j)
    else some top

section

variable [LinearOrder Score]

/-- The place behind the last of the first `pos` cells with at least this score. -/
def findPos (top : List (Cell Score)) (s : Score) : Nat → Nat
  | 0 => 0
  | pos + 1 => if top[pos]?.any (fun c => c.score < s) then findPos top s pos else pos + 1

/-- A turn of the loop in `vectorstore_nearest`. -/
def nearestStep (cap : Nat) (k : Int) (top : List (Cell Score)) (c : Cell Score) : Option (List (Cell Score)) :=
  let ntop := top.length
  if 0 < k ∧ k ≤ ntop ∧ top[ntop - 1]?.any (fun last => c.score ≤ last.score) then some top
  else
    let pos := findPos top c.score ntop
    let ntop' := if 0 < k ∧ k = ntop then ntop else ntop + 1
    (shift cap pos (ntop' - 1) top).bind fun top => if pos < ntop' then write cap top pos c else some top

def cells (scores : List Score) : List (Cell Score) :=
  scores.zipIdx.map fun (score, idx) => ⟨idx, score⟩

/-- The best cells of `vectorstore_nearest`. -/
def nearestTop (scores : List Score) (k : Int) : Option (List (Cell Score)) :=
  let cap := if 0 < k then k.toNat else 1
  (cells scores).foldlM (nearestStep cap k) []

/-- A turn of the loop in `topk_json`. -/
def topkStep (k : Nat) (top : List (Cell Score)) (c : Cell Score) : Option (List (Cell Score)) :=
  let ntop := top.length
  if k ≤ ntop ∧ top[ntop - 1]?.any (fun last => c.score ≤ last.score) then some top
  else
    let pos := findPos top c.score (if ntop < k then ntop else k - 1)
    let ntop' := if ntop < k then ntop + 1 else ntop
    (shift k pos (ntop' - 1) top).bind fun top => write k top pos c

/-- The best cells of `topk_json`. -/
def topkTop (scores : List Score) (k : Int) : Option (List (Cell Score)) :=
  if k ≤ 0 then some [] else (cells scores).foldlM (topkStep k.toNat) []

end

/-! ### A cell is put in -/

theorem shift_write {cap : Nat} (front middle rest : List (Cell Score)) (c : Cell Score)
    (room : front.length + middle.length < cap) :
    ((shift cap front.length (front.length + middle.length) (front ++ middle ++ rest)).bind fun top =>
      write cap top front.length c) = some (front ++ c :: middle ++ rest.tail) := by
  induction middle using List.reverseRecOn generalizing rest with
  | nil =>
    have still : shift cap front.length (front.length + 0) (front ++ [] ++ rest) = some (front ++ rest) := by
      rw [List.append_nil, Nat.add_zero]
      cases front.length with
      | zero => rfl
      | succ n => rw [shift, if_neg (Nat.lt_irrefl _)]
    rw [List.length_nil, still, Option.bind_some, write, if_neg (by simpa using room)]
    cases rest <;> simp
  | append_singleton middle last ih =>
    rw [List.length_append, List.length_singleton, ← Nat.add_assoc] at room ⊢
    have read : (front ++ (middle ++ [last]) ++ rest)[front.length + middle.length]? = some last := by
      rw [List.append_assoc, List.getElem?_append_right (by omega), List.append_assoc,
        List.getElem?_append_right (by omega)]
      simp
    have written : write cap (front ++ (middle ++ [last]) ++ rest) (front.length + middle.length + 1) last =
        some (front ++ middle ++ (last :: last :: rest.tail)) := by
      rw [write, if_neg (by omega)]
      cases rest with
      | nil =>
        rw [if_neg (by simp; omega), if_pos (by simp; omega)]
        simp
      | cons d rest =>
        rw [if_pos (by simp; omega), List.set_append_right _ _ (by simp; omega)]
        have first : front.length + middle.length + 1 - (front ++ (middle ++ [last])).length = 0 := by
          rw [List.length_append, List.length_append, List.length_singleton]
          omega
        rw [first]
        simp
    rw [shift, if_pos (by omega), read, Option.bind_some, written, Option.bind_some, ih _ (by omega)]
    simp

/-! ### What the loops keep -/

section

variable [LinearOrder Score]

def Descending (top : List (Cell Score)) : Prop :=
  top.Pairwise fun c d => d.score ≤ c.score

variable {top : List (Cell Score)}

theorem findPos_eq (sorted : Descending top) (s : Score) {pos : Nat} (inside : pos ≤ top.length)
    (behind : (top.takeWhile fun c => decide (s ≤ c.score)).length ≤ pos) :
    findPos top s pos = (top.takeWhile fun c => decide (s ≤ c.score)).length := by
  induction pos with
  | zero => exact (Nat.le_zero.mp behind).symm
  | succ pos ih =>
    have here : top[pos]? = some top[pos] := List.getElem?_eq_getElem inside
    have high := le_iff_of_descending Cell.score sorted (s := s) here
    rw [findPos, here, Option.any_some]
    by_cases less : top[pos].score < s
    · rw [if_pos (by simpa using less)]
      have outside := mt high.mpr (not_le_of_gt less)
      exact ih (by omega) (by omega)
    · rw [if_neg (by simpa using less)]
      have reached := high.mp (not_lt.mp less)
      omega

def higher (c : Cell Score) (top : List (Cell Score)) : List (Cell Score) :=
  top.takeWhile fun d => decide (c.score ≤ d.score)

theorem higher_append (c : Cell Score) (top : List (Cell Score)) :
    higher c top ++ top.dropWhile (fun d => decide (c.score ≤ d.score)) = top :=
  List.takeWhile_append_dropWhile

theorem place_room {cap : Nat} (room : top.length < cap) (c : Cell Score) :
    ((shift cap (higher c top).length top.length top).bind fun shifted => write cap shifted (higher c top).length c) =
      some ((place Cell.score c top).take cap) := by
  have split := higher_append c top
  have length := congrArg List.length split
  rw [List.length_append] at length
  have put := @shift_write _ cap (higher c top) (top.dropWhile fun d => decide (c.score ≤ d.score)) [] c (by omega)
  rw [List.append_nil, split, length] at put
  have whole : (place Cell.score c top).length ≤ cap := by
    rw [(place_perm Cell.score c top).length_eq, List.length_append, List.length_singleton]
    omega
  rw [put, List.take_of_length_le whole]
  simp [place, higher]

theorem place_full {last c : Cell Score} (ends : top.getLast? = some last) (lower : ¬ c.score ≤ last.score) :
    ((shift top.length (higher c top).length (top.length - 1) top).bind fun shifted =>
      write top.length shifted (higher c top).length c) = some ((place Cell.score c top).take top.length) := by
  have split := higher_append c top
  obtain ⟨middle, rest⟩ : ∃ middle, top.dropWhile (fun d => decide (c.score ≤ d.score)) = middle ++ [last] := by
    refine List.getLast?_eq_some_iff.mp ?_
    cases rest : top.dropWhile fun d => decide (c.score ≤ d.score) with
    | nil =>
      have all := List.dropWhile_eq_nil_iff.mp rest last (List.mem_of_getLast? ends)
      exact absurd (of_decide_eq_true all) lower
    | cons d rest' =>
      rw [← split, rest, List.getLast?_append_of_ne_nil _ (by simp)] at ends
      exact ends
  have length := congrArg List.length split
  rw [List.length_append, rest, List.length_append, List.length_singleton] at length
  have put := @shift_write _ top.length (higher c top) middle [last] c (by omega)
  have whole : higher c top ++ middle ++ [last] = top := by
    rw [List.append_assoc, ← rest]
    exact split
  have index : (higher c top).length + middle.length = top.length - 1 := by omega
  rw [whole, index] at put
  rw [put]
  have size : top.length = (higher c top ++ c :: middle).length := by
    simp
    omega
  have placed : place Cell.score c top = (higher c top ++ c :: middle) ++ [last] := by
    unfold place
    rw [rest]
    simp [higher]
  rw [placed, List.take_append_of_le_length (by omega), size, List.take_length, List.tail_cons, List.append_nil]

/-- What both loops keep: no more cells than asked for, in order. -/
structure Best (k : Nat) (top : List (Cell Score)) : Prop where
  few : top.length ≤ k
  sorted : Descending top

variable {k : Nat}

theorem Best.place (best : Best k top) (c : Cell Score) :
    Best k ((place Cell.score c top).take k) where
  few := List.length_take_le _ _
  sorted := by
    have ordered : top.Pairwise (Before Cell.score fun _ _ => True) :=
      best.sorted.imp fun le => (lt_or_eq_of_le le).imp id fun same => ⟨same.symm, trivial⟩
    have placed := pairwise_place ordered (x := c) fun _ _ => trivial
    exact (placed.imp Before.le).sublist (List.take_sublist _ _)

theorem Best.skip {k : Nat} {top : List (Cell Score)} (best : Best k top) (full : k ≤ top.length) {last c : Cell Score}
    (ends : top.getLast? = some last) (low : c.score ≤ last.score) : (Ranking.place Cell.score c top).take k = top := by
  have all : ∀ d ∈ top, c.score ≤ d.score := by
    intro d member
    obtain ⟨front, rfl⟩ := List.getLast?_eq_some_iff.mp ends
    rcases List.mem_append.mp member with before | own
    · exact le_trans low ((List.pairwise_append.mp best.sorted).2.2 d before last (List.mem_singleton_self _))
    · rwa [List.mem_singleton.mp own]
  have size : k = top.length := Nat.le_antisymm full best.few
  have whole : top.takeWhile (fun d => decide (c.score ≤ d.score)) = top :=
    List.takeWhile_eq_self_iff.mpr fun d member => decide_eq_true (all d member)
  unfold Ranking.place
  rw [whole, size, List.take_append_of_le_length (Nat.le_refl _), List.take_length]

theorem last_cell (top : List (Cell Score)) (c : Cell Score) :
    top[top.length - 1]?.any (fun last => decide (c.score ≤ last.score)) =
      top.getLast?.any fun last => decide (c.score ≤ last.score) := by
  rw [List.getLast?_eq_getElem?]

theorem higher_lt (sorted : Descending top) {last c : Cell Score} (ends : top.getLast? = some last)
    (lower : ¬ c.score ≤ last.score) : (higher c top).length < top.length := by
  rw [List.getLast?_eq_getElem?] at ends
  have inside := (List.getElem?_eq_some_iff.mp ends).1
  have outside := mt (le_iff_of_descending Cell.score sorted (s := c.score) ends).mpr lower
  unfold higher
  omega

theorem Best.full (best : Best k top) (positive : 0 < k) (full : k ≤ top.length) :
    k = top.length ∧ ∃ last, top.getLast? = some last := by
  have size : k = top.length := Nat.le_antisymm full best.few
  refine ⟨size, ?_⟩
  cases ends : top.getLast? with
  | none =>
    rw [List.getLast?_eq_none_iff] at ends
    rw [ends, List.length_nil] at size
    omega
  | some last => exact ⟨last, rfl⟩

theorem nearestStep_eq (positive : 0 < k) (best : Best k top) (c : Cell Score) :
    nearestStep k k top c = some ((Ranking.place Cell.score c top).take k) := by
  have more : (0 : Int) < (k : Int) := by omega
  have pos : findPos top c.score top.length = (higher c top).length :=
    findPos_eq best.sorted c.score (Nat.le_refl _) (List.takeWhile_prefix _).length_le
  unfold nearestStep
  simp only [last_cell, more, true_and, Int.ofNat_le, Int.ofNat_inj, pos]
  by_cases full : k ≤ top.length
  · obtain ⟨rfl, last, ends⟩ := best.full positive full
    rw [ends, Option.any_some]
    by_cases low : c.score ≤ last.score
    · rw [if_pos ⟨full, decide_eq_true low⟩, best.skip full ends low]
    · rw [if_neg (by simp [low]), if_pos rfl]
      simp only [higher_lt best.sorted ends low, if_true]
      exact place_full ends low
  · rw [if_neg fun skip => full skip.1, if_neg (by omega)]
    have inside : (higher c top).length < top.length + 1 :=
      Nat.lt_succ_of_le (List.takeWhile_prefix _).length_le
    simp only [Nat.add_sub_cancel, inside, if_true]
    exact place_room (by omega) c

theorem topkStep_eq (positive : 0 < k) (best : Best k top) (c : Cell Score) :
    topkStep k top c = some ((Ranking.place Cell.score c top).take k) := by
  unfold topkStep
  simp only [last_cell]
  by_cases full : k ≤ top.length
  · obtain ⟨rfl, last, ends⟩ := best.full positive full
    rw [ends, Option.any_some]
    by_cases low : c.score ≤ last.score
    · rw [if_pos ⟨full, decide_eq_true low⟩, best.skip full ends low]
    · rw [if_neg (by simp [low])]
      have inside := higher_lt best.sorted ends low
      simp only [Nat.lt_irrefl, if_false]
      rw [findPos_eq best.sorted c.score (Nat.sub_le _ _) (by unfold higher at inside; omega)]
      exact place_full ends low
  · rw [if_neg fun skip => full skip.1]
    have room : top.length < k := by omega
    simp only [room, if_true, Nat.add_sub_cancel]
    rw [findPos_eq best.sorted c.score (Nat.le_refl _) (List.takeWhile_prefix _).length_le]
    exact place_room room c

theorem foldlM_best {step : List (Cell Score) → Cell Score → Option (List (Cell Score))}
    (turn : ∀ {top : List (Cell Score)}, Best k top → ∀ c, step top c = some ((Ranking.place Cell.score c top).take k))
    {cs : List (Cell Score)} (nodup : cs.Nodup) : cs.foldlM step [] = some ((ranked Cell.score cs).take k) := by
  rw [← foldl_take_place nodup]
  have run : ∀ {top : List (Cell Score)}, Best k top →
      cs.foldlM step top = some (cs.foldl (fun l x => (Ranking.place Cell.score x l).take k) top) := by
    clear nodup
    induction cs with
    | nil => exact fun _ => rfl
    | cons c cs ih =>
      intro top best
      rw [List.foldlM_cons, turn best, List.foldl_cons]
      exact ih (best.place c)
  exact run ⟨Nat.zero_le _, List.Pairwise.nil⟩

omit [LinearOrder Score] in
theorem nodup_cells (scores : List Score) : (cells scores).Nodup := by
  have indices : ((cells scores).map Cell.idx).Nodup := by
    have same : (cells scores).map Cell.idx = List.range' 0 scores.length := by
      unfold cells
      rw [List.map_map, ← List.zipIdx_map_snd 0 scores]
      rfl
    rw [same]
    exact List.nodup_range'
  exact indices.of_map

theorem nearestTop_eq (scores : List Score) {k : Int} (positive : 0 < k) :
    nearestTop scores k = some ((ranked Cell.score (cells scores)).take k.toNat) := by
  obtain ⟨n, rfl⟩ := Int.eq_ofNat_of_zero_le (Int.le_of_lt positive)
  unfold nearestTop
  simp only [if_pos positive, Int.toNat_natCast]
  exact foldlM_best (nearestStep_eq (by omega)) (nodup_cells scores)

theorem topkTop_eq (scores : List Score) (k : Int) :
    topkTop scores k = some ((ranked Cell.score (cells scores)).take k.toNat) := by
  unfold topkTop
  split
  · rename_i none_asked
    rw [Int.toNat_of_nonpos none_asked, List.take_zero]
  · exact foldlM_best (topkStep_eq (by omega)) (nodup_cells scores)

theorem nearestTop_none {score : Score} {scores : List Score} {k : Int} (none_asked : ¬ 0 < k) :
    nearestTop (score :: scores) k ≠ some [] := by
  have first : nearestStep 1 k [] (⟨0, score⟩ : Cell Score) = some [⟨0, score⟩] := by
    unfold nearestStep
    simp [none_asked, findPos, shift, write]
  have second (c d : Cell Score) : nearestStep 1 k [c] d = none := by
    unfold nearestStep
    by_cases less : c.score < d.score <;> simp [none_asked, findPos, shift, write, less]
  unfold nearestTop cells
  simp only [if_neg none_asked, List.zipIdx_cons, List.map_cons, List.foldlM_cons, first, Option.bind_eq_bind,
    Option.bind_some]
  cases scores with
  | nil => simp
  | cons score scores => simp [List.zipIdx_cons, second]

/-! ### The searches -/

def answer (items : List VecEntry) (top : List (Cell Score)) : Option (List (VecEntry × Score)) :=
  top.mapM fun c => items[c.idx]?.map fun e => (e, c.score)

/-- `vectorstore_nearest`; the cosine of a query and an entry is a score. -/
def nearest (cosine : Text → VecEntry → Score) (v : VectorStore) (query : Text) (k : Int) :
    Option (List (VecEntry × Score)) :=
  (nearestTop (v.items.map (cosine query)) k).bind (answer v.items)

section

variable [Zero Score] [One Score]

def clamped (weight : Score) : Score :=
  if weight < 0 then 0 else if 1 < weight then 1 else weight

/-- `vectorstore_nearest_hybrid`; `scoreAll` gives the scores at a weight. -/
def nearestHybrid (scoreAll : Score → Text → VecEntry → Score) (v : VectorStore) (query : Text) (k : Int)
    (weight : Score) : Option (List (VecEntry × Score)) :=
  if k ≤ 0 ∨ v.items = [] then some []
  else (topkTop (v.items.map (scoreAll (clamped weight) query)) k).bind (answer v.items)

def bestScore (scoreAll : Score → Text → VecEntry → Score) (queries : List Text) (e : VecEntry) : Score :=
  queries.foldl (fun best query =>
    if query = [] then best else if best < scoreAll 1 query e then scoreAll 1 query e else best) 0

/-- `vectorstore_nearest_multi`. -/
def nearestMulti (scoreAll : Score → Text → VecEntry → Score) (v : VectorStore) (queries : List Text)
    (k : Int) : Option (List (VecEntry × Score)) :=
  if queries = [] ∨ k ≤ 0 ∨ v.items = [] then some []
  else (topkTop (v.items.map (bestScore scoreAll queries)) k).bind (answer v.items)

/-- The first `k` entries in the stable descending order of a score. -/
def sorted (score : VecEntry → Score) (items : List VecEntry) (k : Int) : List (VecEntry × Score) :=
  (ranked Prod.snd (items.map fun e => (e, score e))).take k.toNat

/-- All searches find what sorting gives; a search for no query finds nothing. -/
structure AsSorted (cosine : Text → VecEntry → Score) (scoreAll : Score → Text → VecEntry → Score)
    (v : VectorStore) (query : Text) (queries : List Text) (weight : Score) (k : Int) : Prop where
  nearest : nearest cosine v query k = some (sorted (cosine query) v.items k)
  hybrid : nearestHybrid scoreAll v query k weight = some (sorted (scoreAll (clamped weight) query) v.items k)
  multi : nearestMulti scoreAll v queries k =
    some (if queries = [] then [] else sorted (bestScore scoreAll queries) v.items k)

omit [Zero Score] [One Score] in
theorem answer_ranked (score : VecEntry → Score) (items : List VecEntry) (k : Nat) :
    answer items ((ranked Cell.score (cells (items.map score))).take k) =
      some ((ranked Prod.snd (items.map fun e => (e, score e))).take k) := by
  cases items with
  | nil => simp [cells, ranked, answer]
  | cons first items =>
    generalize whole : first :: items = all
    have read : ∀ c ∈ cells (all.map score), ∃ e, all[c.idx]? = some e ∧ c.score = score e := by
      intro c member
      obtain ⟨⟨s, i⟩, inside, rfl⟩ := List.mem_map.mp member
      have here := (List.mem_zipIdx_iff_getElem?).mp inside
      rw [List.getElem?_map] at here
      obtain ⟨e, found, same⟩ := Option.map_eq_some_iff.mp here
      exact ⟨e, found, same.symm⟩
    have mapped : ∀ top : List (Cell Score), (∀ c ∈ top, c ∈ cells (all.map score)) →
        answer all top = some (top.map fun c => (all.getD c.idx first, c.score)) := by
      intro top
      induction top with
      | nil => exact fun _ => rfl
      | cons c top ih =>
        intro known
        obtain ⟨here, later⟩ := List.forall_mem_cons.mp known
        obtain ⟨e, found, -⟩ := read c here
        have rest := ih later
        unfold answer at rest ⊢
        rw [List.mapM_cons, rest, List.map_cons, found, List.getD_eq_getElem?_getD, found]
        rfl
    have members : ∀ c ∈ (ranked Cell.score (cells (all.map score))).take k, c ∈ cells (all.map score) :=
      fun c member => (List.mergeSort_perm _ _).mem_iff.mp (List.mem_of_mem_take member)
    have order : (ranked Cell.score (cells (all.map score))).map (fun c => (all.getD c.idx first, c.score)) =
        ranked Prod.snd ((cells (all.map score)).map fun c => (all.getD c.idx first, c.score)) :=
      List.map_mergeSort fun _ _ _ _ => rfl
    have entries : (cells (all.map score)).map (fun c => (all.getD c.idx first, c.score)) =
        all.map fun e => (e, score e) := by
      apply List.ext_getElem?
      intro i
      unfold cells
      rw [List.map_map, List.getElem?_map, List.getElem?_zipIdx, List.getElem?_map, List.getElem?_map]
      cases found : all[i]? with
      | none => rfl
      | some e => simp [found]
    rw [mapped _ members, List.map_take, order, entries]

/-- The searches agree with sorting if and only if at least one entry is asked for or there is none. -/
theorem as_sorted_iff (cosine : Text → VecEntry → Score) (scoreAll : Score → Text → VecEntry → Score)
    (v : VectorStore) (query : Text) (queries : List Text) (weight : Score) (k : Int) :
    AsSorted cosine scoreAll v query queries weight k ↔ 0 < k ∨ v.items = [] := by
  have empty (score : VecEntry → Score) (nothing : k ≤ 0 ∨ v.items = []) : sorted score v.items k = [] := by
    unfold sorted
    rcases nothing with none_asked | no_items
    · rw [Int.toNat_of_nonpos none_asked, List.take_zero]
    · simp [no_items, ranked]
  constructor
  · rintro ⟨found, -, -⟩
    by_contra neither
    obtain ⟨none_asked, some_items⟩ := not_or.mp neither
    rw [empty _ (.inl (Int.not_lt.mp none_asked))] at found
    obtain ⟨top, best, shown⟩ := Option.bind_eq_some_iff.mp found
    have nothing : top = [] := List.length_eq_zero_iff.mp (forall₂_mapM shown).length_eq
    subst nothing
    cases items : v.items with
    | nil => exact some_items items
    | cons e rest =>
      rw [items, List.map_cons] at best
      exact nearestTop_none none_asked best
  · intro enough
    refine ⟨?_, ?_, ?_⟩
    · unfold nearest
      by_cases positive : 0 < k
      · rw [nearestTop_eq _ positive, Option.bind_some, answer_ranked]
        rfl
      · have no_items := enough.resolve_left positive
        rw [empty _ (.inr no_items), no_items]
        rfl
    · unfold nearestHybrid
      split
      · rename_i nothing
        rw [empty _ nothing]
      · rw [topkTop_eq, Option.bind_some, answer_ranked]
        rfl
    · unfold nearestMulti
      split
      · rename_i nothing
        rcases nothing with no_query | nothing
        · rw [if_pos no_query]
        · rw [empty _ nothing, ite_self]
      · rename_i some_asked
        rw [if_neg fun no_query => some_asked (.inl no_query), topkTop_eq, Option.bind_some, answer_ranked]
        rfl

end

end

def twoVectors : VectorStore where
  items := [⟨ascii "w:0", ascii "a", ascii "working"⟩, ⟨ascii "w:1", ascii "b", ascii "working"⟩]
  distinct := by decide +kernel

/-- The second vector is written behind the end of the array. -/
theorem none_asked_overruns : nearest (fun _ _ => (0 : Int)) twoVectors (ascii "a") 0 = none ∧
    ¬ AsSorted (fun _ _ => (0 : Int)) (fun _ _ _ => 0) twoVectors (ascii "a") [] 1 0 := by
  have overrun : nearest (fun _ _ => (0 : Int)) twoVectors (ascii "a") 0 = none := by decide +kernel
  refine ⟨overrun, fun sorted => ?_⟩
  have found := sorted.nearest
  rw [overrun] at found
  cases found

end CognitiveOs.Memory.Working
