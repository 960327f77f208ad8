import CognitiveOs.Infra.Utf8
import CognitiveOs.Memory.Working
import Mathlib.Data.List.Induction

/-!
# Documents in chunks

`memory_index_text` and `memory_remove_document` of `memory/memory.c` over `memory/vector.c`. The
chunks of a document are vectors under its base, a `#` and a number, and they are removed by the
start of their ids.
-/

namespace CognitiveOs.Memory.Documents

open Foundation Foundation.Upsert Infra Working

def uploadChunkTarget : Nat := 600

/-- `vectorstore_remove_prefix`. -/
def removePrefix (v : VectorStore) (start : Text) : VectorStore where
  items := if start = [] then v.items else v.items.filter fun e => !start.isPrefixOf e.id
  distinct := by
    split
    · exact v.distinct
    · exact v.distinct.sublist (List.filter_sublist.map _)

/-- `"%s#"` -/
def chunkStart (base : Text) : Text :=
  base ++ [35]

/-- `"%s#%d"` -/
def chunkId (base : Text) (n : Nat) : Text :=
  chunkStart base ++ decimal n

/-- `memory_remove_document`; nothing is removed when there is no memory for the prefix. -/
def removeDocument (memory : Bool) (v : VectorStore) (base : Text) : VectorStore :=
  if memory then removePrefix v (chunkStart base) else v

def chunkLength (p : Text) : Nat :=
  boundaryBefore p (min p.length uploadChunkTarget)

/-- The loop of `memory_index_text`: a chunk that is empty or not stored ends it, `none` for the count. -/
def indexChunks (adds : Nat → Bool) (base : Text) : Nat → Nat → Text → VectorStore → VectorStore × Option Nat
  | 0, n, p, v => (v, if p = [] then some n else none)
  | fuel + 1, n, p, v =>
    if p = [] then (v, some n)
    else if chunkLength p = 0 ∨ adds n = false then (v, none)
    else
      indexChunks adds base fuel (n + 1) (p.drop (chunkLength p))
        (v.add (chunkId base n) (p.take (chunkLength p)) (ascii "upload"))

/-- Which allocations of a call succeed: of the id, of the prefix at the start, of the chunks, and of the prefix
after a failure. -/
structure Allocations where
  id : Bool
  start : Bool
  adds : Nat → Bool
  undo : Bool

def enough : Allocations where
  id := true
  start := true
  adds _ := true
  undo := true

/-- `memory_index_text`, and its answer. -/
def indexText (mem : Allocations) (v : VectorStore) (base text : Text) : VectorStore × Int :=
  if mem.id = false then (v, -1)
  else
    match indexChunks mem.adds base text.length 0 text (removeDocument mem.start v base) with
    | (v, some n) => (v, n)
    | (v, none) => (removeDocument mem.undo v base, -1)

/-! ### What is stored of a document -/

def chunkAt (v : VectorStore) (base : Text) (n : Nat) : Option Text :=
  (lookup VecEntry.id (chunkId base n) v.items).map VecEntry.text

/-- The chunks of a text up to its end or to a chunk that would be empty, and whether they are the whole text. -/
def chunks : Nat → Text → List Text × Bool
  | 0, p => ([], p = [])
  | fuel + 1, p =>
    if p = [] then ([], true)
    else if chunkLength p = 0 then ([], false)
    else
      let rest := chunks fuel (p.drop (chunkLength p))
      (p.take (chunkLength p) :: rest.1, rest.2)

def chunksOf (text : Text) : List Text × Bool :=
  chunks text.length text

def storedChunks (adds : Nat → Bool) : Nat → List Text → Nat
  | _, [] => 0
  | n, _ :: cs => if adds n then storedChunks adds (n + 1) cs + 1 else 0

theorem not_mem_decimal_hash (n : Nat) : (35 : UInt8) ∉ decimal n :=
  not_mem_decimal (by decide)

theorem start_chunkId {base other : Text} (apart : base ≠ other) (n : Nat) :
    chunkStart base <+: chunkId other n ↔ chunkStart base <+: other := by
  unfold chunkId chunkStart
  constructor
  · intro start
    have own : other <+: other ++ [35] ++ decimal n := ⟨[35] ++ decimal n, by simp⟩
    rcases Nat.lt_trichotomy base.length other.length with shorter | same | longer
    · refine List.prefix_of_prefix_length_le start own ?_
      rw [List.length_append, List.length_singleton]
      omega
    · obtain ⟨rest, whole⟩ := start
      rw [List.append_assoc, List.append_assoc] at whole
      exact absurd (List.append_inj_left whole same) apart
    · -- the mark behind the base would be a digit
      obtain ⟨rest, whole⟩ := start
      have mark : (base ++ [35] ++ rest)[base.length]? = some 35 := by simp
      rw [whole, List.getElem?_append_right (by rw [List.length_append, List.length_singleton]; omega)] at mark
      exact absurd (List.mem_of_getElem? mark) (not_mem_decimal_hash n)
  · intro start
    exact start.trans ⟨[35] ++ decimal n, by simp⟩

theorem start_own (base : Text) (n : Nat) : chunkStart base <+: chunkId base n :=
  List.prefix_append _ _

theorem chunkId_inj {base other : Text} {n k : Nat} (same : chunkId base n = chunkId other k) :
    base = other ∧ n = k := by
  have bases : base = other := by
    by_contra apart
    have first := (start_chunkId apart k).mp (same ▸ start_own base n)
    have second := (start_chunkId (Ne.symm apart) n).mp (same.symm ▸ start_own other k)
    have one := first.length_le
    have two := second.length_le
    unfold chunkStart at one two
    rw [List.length_append, List.length_singleton] at one two
    omega
  subst bases
  refine ⟨rfl, ?_⟩
  have digits := List.append_cancel_left same
  rw [← digitsValue_decimal n, digits, digitsValue_decimal]

theorem chunkAt_removeDocument (v : VectorStore) (base d : Text) (n : Nat) :
    chunkAt (removeDocument true v base) d n =
      if d = base ∨ chunkStart base <+: d then none else chunkAt v d n := by
  have covered : chunkStart base <+: chunkId d n ↔ d = base ∨ chunkStart base <+: d := by
    by_cases same : d = base
    · subst same
      exact iff_of_true (start_own d n) (.inl rfl)
    · rw [start_chunkId (Ne.symm same)]
      exact ⟨.inr, fun own => own.resolve_left same⟩
  unfold chunkAt removeDocument removePrefix
  rw [if_pos rfl]
  simp only
  rw [if_neg (by simp [chunkStart]), lookup_filter v.distinct]
  cases found : lookup VecEntry.id (chunkId d n) v.items with
  | none => simp
  | some e =>
    have id : e.id = chunkId d n := ((lookup_eq_some v.distinct).mp found).2
    by_cases gone : d = base ∨ chunkStart base <+: d
    · rw [if_pos gone, Option.filter_some, if_neg (by simpa [id] using covered.mpr gone)]
      rfl
    · have apart : (chunkStart base).isPrefixOf e.id = false := by
        rw [Bool.eq_false_iff, Ne, List.isPrefixOf_iff_prefix, id]
        exact mt covered.mp gone
      rw [if_neg gone, Option.filter_some, apart]
      rfl

theorem chunkAt_add (v : VectorStore) (base d text : Text) (k n : Nat) :
    chunkAt (v.add (chunkId base k) text (ascii "upload")) d n =
      if d = base ∧ n = k then some text else chunkAt v d n := by
  unfold chunkAt VectorStore.add
  simp only
  rw [lookup_upsert]
  by_cases own : d = base ∧ n = k
  · obtain ⟨rfl, rfl⟩ := own
    rw [if_pos rfl, if_pos ⟨rfl, rfl⟩]
    rfl
  · rw [if_neg own, if_neg fun same => own (chunkId_inj same)]

/-! ### The chunks of a text -/

theorem chunkLength_le (p : Text) : chunkLength p ≤ p.length ∧ chunkLength p ≤ uploadChunkTarget :=
  ⟨(boundaryBefore_le _ _).trans (Nat.min_le_left _ _), (boundaryBefore_le _ _).trans (Nat.min_le_right _ _)⟩

theorem chunks_each (fuel : Nat) (p : Text) :
    (∀ c ∈ (chunks fuel p).1, c ≠ [] ∧ c.length ≤ uploadChunkTarget) ∧
      ((chunks fuel p).2 = true → (chunks fuel p).1.flatten = p) := by
  induction fuel generalizing p with
  | zero => exact ⟨by simp [chunks], fun end_ => by simpa [chunks, eq_comm] using end_⟩
  | succ fuel ih =>
    unfold chunks
    split_ifs with empty none
    · exact ⟨by simp, fun _ => empty.symm⟩
    · exact ⟨by simp, nofun⟩
    · obtain ⟨each, whole⟩ := ih (p.drop (chunkLength p))
      obtain ⟨within, short⟩ := chunkLength_le p
      refine ⟨List.forall_mem_cons.mpr ⟨⟨?_, ?_⟩, each⟩, fun reached => ?_⟩
      · rw [← List.length_pos_iff, List.length_take]
        omega
      · rw [List.length_take]
        omega
      · rw [List.flatten_cons, whole reached]
        exact List.take_append_drop _ _

theorem chunkLength_pos {p : Text} (valid : strUtf8Valid p = true) (some_bytes : p ≠ []) : 0 < chunkLength p := by
  have size : 0 < p.length := List.length_pos_of_ne_nil some_bytes
  unfold chunkLength
  rcases Nat.lt_or_ge p.length uploadChunkTarget with small | large
  · obtain ⟨n, last⟩ := Nat.exists_eq_succ_of_ne_zero size.ne'
    rw [Nat.min_eq_left small.le, last, boundaryBefore, if_neg (by rw [← Nat.succ_eq_add_one, ← last]; simp)]
    exact Nat.succ_pos n
  · have back := le_boundaryBefore valid (n := min p.length uploadChunkTarget) (Nat.min_le_left _ _)
    rw [Nat.min_eq_right large] at back ⊢
    have limit : 3 < uploadChunkTarget := by decide
    omega

theorem chunks_of_valid {fuel : Nat} {p : Text} (enough : p.length ≤ fuel) (valid : strUtf8Valid p = true) :
    (chunks fuel p).2 = true ∧ ∀ c ∈ (chunks fuel p).1, strUtf8Valid c = true := by
  induction fuel generalizing p with
  | zero =>
    obtain rfl := List.length_eq_zero_iff.mp (Nat.le_zero.mp enough)
    exact ⟨rfl, by simp [chunks]⟩
  | succ fuel ih =>
    unfold chunks
    split_ifs with empty none
    · exact ⟨rfl, by simp⟩
    · exact absurd none (chunkLength_pos valid empty).ne'
    · have boundary := boundary_boundaryBefore valid (min p.length uploadChunkTarget)
      have positive := chunkLength_pos valid empty
      have less : (p.drop (chunkLength p)).length ≤ fuel := by
        rw [List.length_drop]
        omega
      obtain ⟨reached, each⟩ := ih less (strUtf8Valid_drop valid boundary)
      exact ⟨reached, List.forall_mem_cons.mpr ⟨strUtf8Valid_take valid boundary, each⟩⟩

theorem storedChunks_le (adds : Nat → Bool) (n : Nat) (cs : List Text) : storedChunks adds n cs ≤ cs.length := by
  induction cs generalizing n with
  | nil => exact Nat.le_refl _
  | cons c cs ih =>
    unfold storedChunks
    split
    · exact Nat.succ_le_succ (ih (n + 1))
    · exact Nat.zero_le _

theorem storedChunks_all {adds : Nat → Bool} (all : ∀ k, adds k = true) (n : Nat) (cs : List Text) :
    storedChunks adds n cs = cs.length := by
  induction cs generalizing n with
  | nil => rfl
  | cons c cs ih => rw [storedChunks, if_pos (all n), ih, List.length_cons]

theorem indexChunks_spec (adds : Nat → Bool) (base : Text) (fuel n : Nat) (p : Text) (v : VectorStore) :
    (indexChunks adds base fuel n p v).2 =
        (if (chunks fuel p).2 = true ∧ storedChunks adds n (chunks fuel p).1 = (chunks fuel p).1.length then
          some (n + (chunks fuel p).1.length) else none) ∧
      ∀ d k, chunkAt (indexChunks adds base fuel n p v).1 d k =
        if d = base ∧ n ≤ k ∧ k < n + storedChunks adds n (chunks fuel p).1 then (chunks fuel p).1[k - n]?
        else chunkAt v d k := by
  induction fuel generalizing n p v with
  | zero =>
    refine ⟨by simp [indexChunks, chunks, storedChunks], fun d k => ?_⟩
    rw [if_neg (by simp [chunks, storedChunks])]
    rfl
  | succ fuel ih =>
    unfold indexChunks chunks
    by_cases empty : p = []
    · rw [if_pos empty, if_pos empty]
      refine ⟨by simp [storedChunks], fun d k => ?_⟩
      rw [if_neg (by simp [storedChunks])]
    · rw [if_neg empty, if_neg empty]
      by_cases none : chunkLength p = 0
      · rw [if_pos (.inl none), if_pos none]
        refine ⟨by simp, fun d k => ?_⟩
        rw [if_neg (by simp [storedChunks])]
      · rw [if_neg none]
        cases added : adds n with
        | false =>
          rw [if_pos (.inr rfl)]
          refine ⟨by simp [storedChunks, added], fun d k => ?_⟩
          rw [if_neg (by simp [storedChunks, added])]
        | true =>
          rw [if_neg (by simp [none])]
          obtain ⟨answer, here⟩ := ih (n + 1) (p.drop (chunkLength p))
            (v.add (chunkId base n) (p.take (chunkLength p)) (ascii "upload"))
          refine ⟨?_, fun d k => ?_⟩
          · rw [answer]
            simp only [storedChunks, added, if_true, List.length_cons, Nat.add_right_cancel_iff]
            rw [Nat.add_assoc, Nat.add_comm 1]
          · rw [here, chunkAt_add]
            simp only [storedChunks, added, if_true]
            by_cases own : d = base
            · subst own
              rcases Nat.lt_trichotomy k n with before | rfl | behind
              · rw [if_neg (by omega), if_neg (by omega), if_neg (by omega)]
              · rw [if_neg (by omega), if_pos ⟨rfl, rfl⟩, if_pos ⟨rfl, by omega⟩, Nat.sub_self, List.getElem?_cons_zero]
              · obtain ⟨j, rfl⟩ := Nat.exists_eq_add_of_lt behind
                have next : n + j + 1 - n = (n + j + 1 - (n + 1)) + 1 := by omega
                have apart : ¬(d = d ∧ n + j + 1 = n) := fun same => by omega
                rw [if_neg apart, next, List.getElem?_cons_succ]
                refine if_congr (and_congr_right fun _ => ?_) rfl rfl
                omega
            · rw [if_neg (by simp [own]), if_neg (by simp [own]), if_neg (by simp [own])]

/-! ### One document -/

def complete (mem : Allocations) (text : Text) : Bool :=
  (chunksOf text).2 && storedChunks mem.adds 0 (chunksOf text).1 == (chunksOf text).1.length

theorem indexText_spec {mem : Allocations} (id : mem.id = true) (v : VectorStore) (base text : Text) :
    ∃ w, (∀ d k, chunkAt w d k =
        if d = base ∧ k < storedChunks mem.adds 0 (chunksOf text).1 then (chunksOf text).1[k]?
        else chunkAt (removeDocument mem.start v base) d k) ∧
      indexText mem v base text =
        if complete mem text = true then (w, ((chunksOf text).1.length : Int))
        else (removeDocument mem.undo w base, -1) := by
  obtain ⟨answer, stored⟩ :=
    indexChunks_spec mem.adds base text.length 0 text (removeDocument mem.start v base)
  refine ⟨_, fun d k => (stored d k).trans ?_, ?_⟩
  · rw [Nat.zero_add, Nat.sub_zero]
    exact if_congr (and_congr_right fun _ => and_iff_right (Nat.zero_le k)) rfl rfl
  · have counted : (indexChunks mem.adds base text.length 0 text (removeDocument mem.start v base)).2 =
        if complete mem text = true then some (chunksOf text).1.length else none := by
      rw [answer, Nat.zero_add]
      exact if_congr (by rw [complete, Bool.and_eq_true, beq_iff_eq]; rfl) rfl rfl
    unfold indexText
    rw [if_neg (by simp [id])]
    cases loop : indexChunks mem.adds base text.length 0 text (removeDocument mem.start v base) with
    | mk w count =>
      rw [loop] at counted
      change count = _ at counted
      split_ifs at counted ⊢ with whole <;> rw [counted]

/-- The chunks that are stored are the whole text, and none is left of an indexing that failed part-way. A valid
text fails for want of memory only. -/
def Lossless (mem : Allocations) (v : VectorStore) (base text : Text) : Prop :=
  (0 ≤ (indexText mem v base text).2 →
    ∃ cs : List Text, (indexText mem v base text).2 = cs.length ∧
      (∀ n, chunkAt (indexText mem v base text).1 base n = cs[n]?) ∧ cs.flatten = text ∧
      ∀ c ∈ cs, c ≠ [] ∧ c.length ≤ uploadChunkTarget ∧ (strUtf8Valid text = true → strUtf8Valid c = true)) ∧
  ((indexText mem v base text).2 < 0 → mem.id = true →
    ∀ n, chunkAt (indexText mem v base text).1 base n = none) ∧
  ((indexText mem v base text).2 < 0 → strUtf8Valid text = true → mem.id = false ∨ ∃ n, mem.adds n = false)

/-- There is memory for the prefix where there is something to remove: of the last indexing at the start, and of
this one when it fails. -/
def Removed (mem : Allocations) (v : VectorStore) (base text : Text) : Prop :=
  if complete mem text = true then
    mem.start = true ∨ ∀ n, (chunksOf text).1.length ≤ n → chunkAt v base n = none
  else
    mem.undo = true ∨
      storedChunks mem.adds 0 (chunksOf text).1 = 0 ∧ (mem.start = true ∨ ∀ n, chunkAt v base n = none)

theorem chunkAt_removeDocument_own (memory : Bool) (v : VectorStore) (base : Text) (n : Nat) :
    chunkAt (removeDocument memory v base) base n = none ↔ memory = true ∨ chunkAt v base n = none := by
  cases memory with
  | true => simp [chunkAt_removeDocument]
  | false => simp [removeDocument]

theorem complete_of_valid {mem : Allocations} (adds : ∀ n, mem.adds n = true) {text : Text}
    (valid : strUtf8Valid text = true) : complete mem text = true := by
  rw [complete, storedChunks_all adds, beq_self_eq_true, Bool.and_true]
  exact (chunks_of_valid (Nat.le_refl _) valid).1

theorem lossless_of_complete {mem : Allocations} (id : mem.id = true) (v : VectorStore) (base : Text) {text : Text}
    (done : complete mem text = true) : Lossless mem v base text ↔
      mem.start = true ∨ ∀ n, (chunksOf text).1.length ≤ n → chunkAt v base n = none := by
  obtain ⟨w, stored, result⟩ := indexText_spec id v base text
  obtain ⟨each, whole⟩ := chunks_each text.length text
  rw [if_pos done] at result
  rw [Lossless, result]
  rw [complete, Bool.and_eq_true, beq_iff_eq] at done
  rw [done.2] at stored
  constructor
  · rintro ⟨ok, -, -⟩
    obtain ⟨cs, count, here, -, -⟩ := ok (Int.natCast_nonneg _)
    by_contra left
    obtain ⟨failed, others⟩ := not_or.mp left
    refine others fun n behind => ?_
    have nothing := here n
    rw [List.getElem?_eq_none (by omega), stored, if_neg (by omega), chunkAt_removeDocument_own] at nothing
    exact nothing.resolve_left failed
  · intro removed
    have positive : ¬((chunksOf text).1.length : Int) < 0 := Int.not_lt.mpr (Int.natCast_nonneg _)
    refine ⟨fun _ => ⟨(chunksOf text).1, rfl, fun n => ?_, whole done.1, fun c member => ?_⟩,
      fun negative => absurd negative positive, fun negative => absurd negative positive⟩
    · rw [stored]
      by_cases inside : n < (chunksOf text).1.length
      · rw [if_pos ⟨rfl, inside⟩]
      · rw [if_neg fun own => inside own.2, List.getElem?_eq_none (Nat.not_lt.mp inside),
          chunkAt_removeDocument_own]
        exact removed.imp_right fun others => others n (Nat.not_lt.mp inside)
    · obtain ⟨filled, short⟩ := each c member
      exact ⟨filled, short, fun valid => (chunks_of_valid (Nat.le_refl _) valid).2 c member⟩

theorem lossless_of_incomplete {mem : Allocations} (id : mem.id = true) (v : VectorStore) (base : Text)
    {text : Text} (short : ¬complete mem text = true) : Lossless mem v base text ↔
      mem.undo = true ∨
        storedChunks mem.adds 0 (chunksOf text).1 = 0 ∧ (mem.start = true ∨ ∀ n, chunkAt v base n = none) := by
  have negative : (-1 : Int) < 0 := by decide
  obtain ⟨w, stored, result⟩ := indexText_spec id v base text
  rw [if_neg short] at result
  rw [Lossless, result]
  constructor
  · rintro ⟨-, failed, -⟩
    have gone := failed negative id
    by_contra left
    obtain ⟨undone, rest⟩ := not_or.mp left
    have nothing : ∀ n, chunkAt w base n = none := fun n =>
      ((chunkAt_removeDocument_own _ _ _ _).mp (gone n)).resolve_left undone
    have zero : storedChunks mem.adds 0 (chunksOf text).1 = 0 := by
      by_contra positive
      have first := nothing 0
      rw [stored, if_pos ⟨rfl, Nat.pos_of_ne_zero positive⟩, List.getElem?_eq_none_iff] at first
      have most := storedChunks_le mem.adds 0 (chunksOf text).1
      omega
    refine rest ⟨zero, ?_⟩
    by_contra neither
    obtain ⟨kept, old⟩ := not_or.mp neither
    refine old fun n => ?_
    have here := nothing n
    rw [stored, if_neg (by omega), chunkAt_removeDocument_own] at here
    exact here.resolve_left kept
  · intro removed
    refine ⟨fun ok => absurd negative (Int.not_lt.mpr ok), fun _ _ n => ?_, fun _ valid => .inr ?_⟩
    · rw [chunkAt_removeDocument_own]
      refine removed.imp_right fun ⟨zero, old⟩ => ?_
      rw [stored, if_neg (by omega), chunkAt_removeDocument_own]
      exact old.imp_right fun others => others n
    · by_contra all
      exact short (complete_of_valid (fun n => by simpa using not_exists.mp all n) valid)

/-- Indexing loses nothing exactly when there is memory for removing what has to go. -/
theorem lossless_iff (mem : Allocations) (v : VectorStore) (base text : Text) :
    Lossless mem v base text ↔ (mem.id = true → Removed mem v base text) := by
  cases id : mem.id with
  | false =>
    have refused : indexText mem v base text = (v, -1) := if_pos id
    refine iff_of_true ⟨fun ok => ?_, fun _ found => ?_, fun _ _ => .inl id⟩ nofun
    · rw [refused] at ok
      exact absurd (show (0 : Int) ≤ -1 from ok) (by decide)
    · rw [id] at found
      cases found
  | true =>
    rw [forall_prop_of_true rfl, Removed]
    by_cases done : complete mem text = true
    · rw [if_pos done]
      exact lossless_of_complete id v base done
    · rw [if_neg done]
      exact lossless_of_incomplete id v base done

def oneChunk : Allocations where
  id := true
  start := true
  adds n := n == 0
  undo := false

/-- The chunk before the one that failed stays. -/
theorem chunk_left_over : ¬Lossless oneChunk {} (ascii "doc") (List.replicate 601 120) := by
  rw [lossless_iff, Classical.not_imp]
  refine ⟨rfl, ?_⟩
  have stored : storedChunks oneChunk.adds 0 (chunksOf (List.replicate 601 120)).1 = 1 := by decide +kernel
  have failed : complete oneChunk (List.replicate 601 120) = false := by decide +kernel
  rw [Removed, if_neg (by rw [failed]; exact Bool.false_ne_true), stored]
  simp [oneChunk]

/-! ### Sequences of operations -/

/-- A call of `memory_index_text` or of `memory_remove_document`. -/
inductive Operation
  | index (base text : Text)
  | remove (base : Text)

namespace Operation

def base : Operation → Text
  | index base _ => base
  | remove base => base

def chunks : Operation → List Text
  | index _ text => if (chunksOf text).2 then (chunksOf text).1 else []
  | remove _ => []

def apply (v : VectorStore) : Operation → VectorStore
  | index base text => (indexText enough v base text).1
  | remove base => removeDocument true v base

theorem chunkAt_apply (v : VectorStore) (op : Operation) (d : Text) (n : Nat) :
    chunkAt (op.apply v) d n =
      if d = op.base then op.chunks[n]? else if chunkStart op.base <+: d then none else chunkAt v d n := by
  cases op with
  | remove base =>
    change chunkAt (removeDocument true v base) d n =
      if d = base then ([] : List Text)[n]? else if chunkStart base <+: d then none else chunkAt v d n
    rw [chunkAt_removeDocument]
    by_cases own : d = base
    · simp [own]
    · simp [own]
  | index base text =>
    obtain ⟨w, stored, result⟩ := @indexText_spec enough rfl v base text
    have all : storedChunks enough.adds 0 (chunksOf text).1 = (chunksOf text).1.length :=
      storedChunks_all (fun _ => rfl) _ _
    have whole : complete enough text = (chunksOf text).2 := by simp [complete, all]
    rw [all] at stored
    change chunkAt (indexText enough v base text).1 d n =
      if d = base then (if (chunksOf text).2 then (chunksOf text).1 else [])[n]?
      else if chunkStart base <+: d then none else chunkAt v d n
    rw [result, whole]
    by_cases reached : (chunksOf text).2 = true
    · rw [if_pos reached, if_pos reached, stored]
      by_cases own : d = base
      · rw [if_pos own]
        by_cases inside : n < (chunksOf text).1.length
        · rw [if_pos ⟨own, inside⟩]
        · rw [if_neg fun both => inside both.2, own, List.getElem?_eq_none (Nat.not_lt.mp inside),
            chunkAt_removeDocument_own]
          exact .inl rfl
      · rw [if_neg fun both => own both.1, if_neg own]
        change chunkAt (removeDocument true v base) d n = _
        rw [chunkAt_removeDocument]
        exact if_congr (or_iff_right own) rfl rfl
    · rw [if_neg reached, if_neg reached]
      change chunkAt (removeDocument true w base) d n = _
      rw [chunkAt_removeDocument]
      by_cases own : d = base
      · rw [if_pos (.inl own), if_pos own]
        rfl
      · rw [if_neg own, if_congr (or_iff_right own) rfl rfl, stored, if_neg (fun both => own (And.left both))]
        by_cases inside : chunkStart base <+: d
        · rw [if_pos inside, if_pos inside]
        · rw [if_neg inside, if_neg inside]
          change chunkAt (removeDocument true v base) d n = _
          rw [chunkAt_removeDocument, if_neg (not_or.mpr ⟨own, inside⟩)]

end Operation

def run (v : VectorStore) (ops : List Operation) : VectorStore :=
  ops.foldl (fun v op => op.apply v) v

def lastIndexing (first : Text → Nat → Option Text) (ops : List Operation) : Text → Nat → Option Text :=
  ops.foldl (fun held op => Function.update held op.base fun n => op.chunks[n]?) first

/-- At every operation: each document has the chunks of its last indexing, and those of the others are as
before. -/
def Separate (v : VectorStore) (ops : List Operation) : Prop :=
  ∀ before op, before ++ [op] <+: ops →
    (∀ d n, chunkAt (run v (before ++ [op])) d n = lastIndexing (chunkAt v) (before ++ [op]) d n) ∧
      ∀ d ≠ op.base, ∀ n, chunkAt (run v (before ++ [op])) d n = chunkAt (run v before) d n

/-- No document that has chunks then starts with the base of an operation and the mark. -/
def Apart (v : VectorStore) (ops : List Operation) : Prop :=
  ∀ before op, before ++ [op] <+: ops →
    ∀ d n, lastIndexing (chunkAt v) before d n ≠ none → ¬chunkStart op.base <+: d

theorem run_append (v : VectorStore) (ops : List Operation) (op : Operation) :
    run v (ops ++ [op]) = op.apply (run v ops) := by
  simp [run]

theorem lastIndexing_append (first : Text → Nat → Option Text) (ops : List Operation) (op : Operation) :
    lastIndexing first (ops ++ [op]) = Function.update (lastIndexing first ops) op.base fun n => op.chunks[n]? := by
  simp [lastIndexing]

theorem chunkStart_length (base : Text) : (chunkStart base).length = base.length + 1 := by
  simp [chunkStart]

theorem chunkAt_run_step {v : VectorStore} {before : List Operation}
    (held : ∀ d n, chunkAt (run v before) d n = lastIndexing (chunkAt v) before d n) {op : Operation}
    (apart : ∀ d n, lastIndexing (chunkAt v) before d n ≠ none → ¬chunkStart op.base <+: d) (d : Text) (n : Nat) :
    chunkAt (run v (before ++ [op])) d n = lastIndexing (chunkAt v) (before ++ [op]) d n := by
  rw [run_append, Operation.chunkAt_apply, lastIndexing_append, Function.update_apply]
  by_cases own : d = op.base
  · rw [if_pos own, if_pos own]
  · rw [if_neg own, if_neg own, held]
    by_cases inside : chunkStart op.base <+: d
    · rw [if_pos inside]
      by_contra kept
      exact apart d n (Ne.symm kept) inside
    · rw [if_neg inside]

theorem chunkAt_run {v : VectorStore} {ops : List Operation} (apart : Apart v ops) (d : Text) (n : Nat) :
    chunkAt (run v ops) d n = lastIndexing (chunkAt v) ops d n := by
  induction ops using List.reverseRecOn generalizing d n with
  | nil => rfl
  | append_singleton before op ih =>
    refine chunkAt_run_step (fun d n => ih (fun b o less => ?_) d n) (apart before op (List.prefix_refl _)) d n
    exact apart b o (less.trans (List.prefix_append _ _))

/-- Documents are left alone exactly when none that is stored starts with the base of an operation and the
mark. -/
theorem separate_iff (v : VectorStore) (ops : List Operation) : Separate v ops ↔ Apart v ops := by
  constructor
  · intro separate before op part d n stored inside
    have here : chunkAt (run v before) d n = lastIndexing (chunkAt v) before d n := by
      rcases List.eq_nil_or_concat before with rfl | ⟨first, last, rfl⟩
      · rfl
      · rw [List.concat_eq_append] at part ⊢
        exact (separate first last ((List.prefix_append _ _).trans part)).1 d n
    have other : d ≠ op.base := by
      rintro rfl
      have length := inside.length_le
      rw [chunkStart_length] at length
      omega
    have kept := (separate before op part).2 d other n
    rw [run_append, Operation.chunkAt_apply, if_neg other, if_pos inside, here] at kept
    exact stored kept.symm
  · intro apart before op part
    have upTo : Apart v (before ++ [op]) := fun b o less => apart b o (less.trans part)
    have held : ∀ d n, chunkAt (run v before) d n = lastIndexing (chunkAt v) before d n :=
      chunkAt_run fun b o less => upTo b o (less.trans (List.prefix_append _ _))
    refine ⟨fun d n => chunkAt_run upTo d n, fun d other n => ?_⟩
    rw [chunkAt_run upTo, lastIndexing_append, Function.update_of_ne other, held]

/-- Removing `a` removes the chunks of `a#0`. -/
theorem removed_with_another :
    ¬Separate {} [.index (ascii "a#0") (ascii "x"), .remove (ascii "a")] := by
  rw [separate_iff]
  intro apart
  exact apart [.index (ascii "a#0") (ascii "x")] (.remove (ascii "a")) (List.prefix_refl _) (ascii "a#0") 0 (by decide)
    (by decide)

end CognitiveOs.Memory.Documents
