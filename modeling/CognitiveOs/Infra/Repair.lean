import CognitiveOs.Infra.Print
import CognitiveOs.Infra.Utf8

/-!
# Printed values, repaired

`str_utf8_sanitize` of a printed value is the printed value whose strings are repaired.
-/

namespace CognitiveOs.Infra

namespace Json

mutual

def repaired : Json → Json
  | .string value => .string (strUtf8Sanitize value)
  | .array items => .array (repairedItems items)
  | .object members => .object (repairedMembers members)
  | .null => .null
  | .bool value => .bool value
  | .number value => .number value

def repairedItems : List Json → List Json
  | [] => []
  | item :: items => item.repaired :: repairedItems items

def repairedMembers : List (Text × Json) → List (Text × Json)
  | [] => []
  | (key, value) :: members => (strUtf8Sanitize key, value.repaired) :: repairedMembers members

end

end Json

namespace Cjson

open Json

/-! ### Strings -/

/-- Repairing gives `fixed` for `part`, whatever follows it. -/
def Repairs (part fixed : Text) : Prop :=
  ∀ t, strUtf8Sanitize (part ++ t) = fixed ++ strUtf8Sanitize t

theorem Repairs.append {part part' fixed fixed' : Text} (first : Repairs part fixed) (second : Repairs part' fixed') :
    Repairs (part ++ part') (fixed ++ fixed') := by
  intro t
  rw [List.append_assoc, first, second, List.append_assoc]

theorem repairs_ascii {part : Text} (plain : ∀ b ∈ part, b < 128) : Repairs part part :=
  strUtf8Sanitize_append plain

theorem Repairs.cons {part fixed : Text} {b : UInt8} (small : b < 128) (rest : Repairs part fixed) :
    Repairs (b :: part) (b :: fixed) :=
  (@repairs_ascii [b] (by simpa using small)).append rest

theorem escapeByte_ascii {b : UInt8} (small : b < 128) : ∀ c ∈ escapeByte b, c < 128 := by
  have all : ((List.range 128).all fun n => (escapeByte (UInt8.ofNat n)).all fun c => Nat.blt c.toNat 128) = true := by
    decide
  intro c member
  have own := List.all_eq_true.mp all b.toNat (List.mem_range.mpr small)
  rw [UInt8.ofNat_toNat] at own
  exact Nat.blt_eq.mp (List.all_eq_true.mp own c member)

theorem escapeByte_of_large {b : UInt8} (large : ¬ b < 128) : escapeByte b = [b] := by
  have high : 128 ≤ b.toNat := Nat.not_lt.mp large
  have quote : b ≠ 34 := by rintro rfl; exact absurd high (by decide)
  have slash : b ≠ backslash := by rintro rfl; exact absurd high (by decide)
  have visible : 31 < b := UInt8.lt_iff_toNat_lt.mpr (by simpa using by omega)
  simp [escapeByte, quote, slash, visible]

theorem flatMap_escape_large {s : Text} (large : ∀ b ∈ s, ¬ b < 128) : s.flatMap escapeByte = s := by
  induction s with
  | nil => rfl
  | cons b s ih =>
    rw [List.flatMap_cons, escapeByte_of_large (large b (by simp)), ih fun c member => large c (by simp [member])]
    rfl

theorem take_escape {n : Nat} {s : Text} (enough : n ≤ (s.flatMap escapeByte).length)
    (large : ∀ b ∈ (s.flatMap escapeByte).take n, ¬ b < 128) :
    n ≤ s.length ∧ (s.flatMap escapeByte).take n = s.take n := by
  induction n generalizing s with
  | zero => simp
  | succ n ih =>
    cases s with
    | nil => simp at enough
    | cons b s =>
      by_cases small : b < 128
      · exfalso
        cases shown : escapeByte b with
        | nil =>
          have pos := (escaped_escapeByte b).pos
          rw [shown] at pos
          exact absurd pos (Nat.lt_irrefl 0)
        | cons c rest =>
          have ascii := escapeByte_ascii small c (by rw [shown]; exact List.mem_cons_self)
          refine large c ?_ ascii
          rw [List.flatMap_cons, shown, List.cons_append, List.take_succ_cons]
          exact List.mem_cons_self
      · rw [List.flatMap_cons, escapeByte_of_large small, List.singleton_append] at enough large ⊢
        rw [List.take_succ_cons] at large ⊢
        obtain ⟨within, same⟩ := ih (by simpa using enough) fun c member => large c (List.mem_cons_of_mem _ member)
        exact ⟨by simpa using within, by rw [same, List.take_succ_cons]⟩

theorem utf8Sequence_take {s : Text} {l : Nat} :
    utf8Sequence s = some l ↔ l ≤ s.length ∧ utf8Sequence (s.take l) = some l := by
  constructor
  · intro found
    have within := (utf8Sequence_eq_some.mp found).1
    refine ⟨within, ?_⟩
    rw [← List.take_append_drop l s] at found
    exact (utf8Sequence_append (List.length_take_of_le within).ge).mp found
  · rintro ⟨within, found⟩
    rw [← List.take_append_drop l s]
    exact (utf8Sequence_append (List.length_take_of_le within).ge).mpr found

theorem utf8Sequence_escape (b : UInt8) (s : Text) :
    utf8Sequence (b :: s.flatMap escapeByte) = utf8Sequence (b :: s) := by
  have large {c : UInt8} (continued : isContinuation c = true) : ¬ c < 128 := (start_of_continuation continued).2
  refine Option.ext fun l => ?_
  constructor
  · intro found
    have within := (utf8Sequence_eq_some.mp found).1
    obtain ⟨n, rfl⟩ := Nat.exists_eq_succ_of_ne_zero (utf8Sequence_pos found).ne'
    obtain ⟨enough, same⟩ := take_escape (n := n) (s := s) (by simpa using within) fun c member =>
      large (continued_of_sequence found member)
    rw [utf8Sequence_take, List.take_succ_cons, same, ← List.take_succ_cons] at found
    exact utf8Sequence_take.mpr ⟨by simpa using enough, found.2⟩
  · intro found
    have within := (utf8Sequence_eq_some.mp found).1
    obtain ⟨n, rfl⟩ := Nat.exists_eq_succ_of_ne_zero (utf8Sequence_pos found).ne'
    have own : (s.take n).flatMap escapeByte = s.take n :=
      flatMap_escape_large fun c member => large (continued_of_sequence found member)
    have split : s.flatMap escapeByte = s.take n ++ (s.drop n).flatMap escapeByte := by
      rw [← own, ← List.flatMap_append, List.take_append_drop]
    have start := (utf8Sequence_take.mp found).2
    rw [List.take_succ_cons] at start
    rw [split, ← List.cons_append]
    refine (utf8Sequence_append ?_).mpr start
    have short : n ≤ s.length := by simpa using within
    simp [short]

theorem sanitize_escape (s : Text) :
    strUtf8Sanitize (s.flatMap escapeByte) = (strUtf8Sanitize s).flatMap escapeByte := by
  induction h : s.length using Nat.strongRecOn generalizing s with
  | ind n ih =>
    cases s with
    | nil => rfl
    | cons b s =>
      by_cases small : b < 128
      · rw [List.flatMap_cons, strUtf8Sanitize_append (escapeByte_ascii small), ih s.length (by simp [← h]) s rfl]
        have one : strUtf8Sanitize (b :: s) = b :: strUtf8Sanitize s :=
          strUtf8Sanitize_append (s := [b]) (by simpa using small) s
        rw [one, List.flatMap_cons]
      · have whole : (b :: s).flatMap escapeByte = b :: s.flatMap escapeByte := by
          rw [List.flatMap_cons, escapeByte_of_large small]
          rfl
        cases found : utf8Sequence (b :: s) with
        | none =>
          rw [whole, strUtf8Sanitize_none ((utf8Sequence_escape b s).trans found), strUtf8Sanitize_none found,
            ih s.length (by simp [← h]) s rfl]
          rfl
        | some l =>
          have pos := utf8Sequence_pos found
          have within := (utf8Sequence_eq_some.mp found).1
          have own : ((b :: s).take l).flatMap escapeByte = (b :: s).take l := by
            refine flatMap_escape_large fun c member => ?_
            obtain ⟨k, rfl⟩ := Nat.exists_eq_succ_of_ne_zero pos.ne'
            rw [List.take_succ_cons] at member
            rcases List.mem_cons.mp member with rfl | later
            · exact small
            · exact (start_of_continuation (continued_of_sequence found later)).2
          have split : (b :: s).flatMap escapeByte = (b :: s).take l ++ ((b :: s).drop l).flatMap escapeByte := by
            have joined : ((b :: s).take l ++ (b :: s).drop l).flatMap escapeByte = _ := List.flatMap_append
            rwa [List.take_append_drop, own] at joined
          have length : ((b :: s).take l).length = l := List.length_take_of_le within
          have start : utf8Sequence ((b :: s).flatMap escapeByte) = some l :=
            whole ▸ (utf8Sequence_escape b s).trans found
          rw [strUtf8Sanitize_some start, split, List.take_left' length, List.drop_left' length,
            ih ((b :: s).drop l).length (by rw [List.length_drop]; omega) _ rfl, strUtf8Sanitize_some found,
            List.flatMap_append, own]

theorem repairs_string (s : Text) : Repairs (printString s) (printString (strUtf8Sanitize s)) := by
  intro t
  have inner : strUtf8Sanitize (s.flatMap escapeByte ++ 34 :: t) =
      (strUtf8Sanitize s).flatMap escapeByte ++ 34 :: strUtf8Sanitize t := by
    rw [strUtf8Sanitize_ascii (by decide), sanitize_escape]
  have outer := strUtf8Sanitize_append (s := [34]) (by simp) (s.flatMap escapeByte ++ 34 :: t)
  simpa [printString, inner] using outer

theorem not_mem_sanitize {s : Text} (text : 0 ∉ s) : 0 ∉ strUtf8Sanitize s := by
  induction h : s.length using Nat.strongRecOn generalizing s with
  | ind n ih =>
    cases s with
    | nil => simp
    | cons b s =>
      cases found : utf8Sequence (b :: s) with
      | none =>
        rw [strUtf8Sanitize_none found, List.mem_cons, not_or]
        exact ⟨by decide, ih s.length (by simp [← h]) (fun member => text (List.mem_cons_of_mem _ member)) rfl⟩
      | some l =>
        have pos := utf8Sequence_pos found
        rw [strUtf8Sanitize_some found, List.mem_append, not_or]
        refine ⟨fun member => text (List.mem_of_mem_take member), ?_⟩
        refine ih ((b :: s).drop l).length ?_ (fun member => text (List.mem_of_mem_drop member)) rfl
        rw [List.length_drop, ← h]
        simp only [List.length_cons]
        omega

/-! ### Values -/

theorem numberByte_ascii {b : UInt8} (number : isNumberByte b = true) : b < 128 := by
  have all : ∀ n < 256, isNumberByte (UInt8.ofNat n) = true → UInt8.ofNat n < 128 := by
    decide +kernel
  have this := all b.toNat b.toNat_lt
  rw [UInt8.ofNat_toNat] at this
  exact this number

theorem repairs_number {number : Rat → Text} {value : Rat} {json : Json} (shown : NumberReads number value json) :
    Repairs (number value) (number value) := by
  refine repairs_ascii ?_
  cases shown with
  | null text =>
    rw [text]
    simp [ascii]
  | number bytes _ _ _ => exact fun b member => numberByte_ascii (bytes b member)

variable {number : Rat → Text}

mutual

theorem repairs_print {height : Nat} {json json' : Json} :
    Rereads number height json json' → Repairs (print number json) (print number json.repaired)
  | .null => repairs_ascii (by rw [print]; simp [ascii])
  | .bool value => repairs_ascii (by rw [print]; cases value <;> simp [ascii])
  | .string _ => by
    rw [repaired, print, print]
    exact repairs_string _
  | .number shown => by
    rw [repaired, print]
    exact repairs_number shown
  | .array .nil => repairs_ascii (by rw [print]; simp)
  | .array (.cons item items) => by
    rw [repaired, repairedItems, print, print]
    exact .cons (by decide) ((repairs_print item).append (repairs_printItems items))
  | .object .nil => repairs_ascii (by rw [print]; simp)
  | .object (.cons _ value members) => by
    rw [repaired, repairedMembers, print, print]
    exact .cons (by decide) ((repairs_string _).append
      (.cons (by decide) ((repairs_print value).append (repairs_printMembers members))))

theorem repairs_printItems {height : Nat} {items items' : List Json} :
    RereadsItems number height items items' →
      Repairs (printItems number items) (printItems number (repairedItems items))
  | .nil => repairs_ascii (by rw [printItems]; simp)
  | .cons item items => by
    rw [repairedItems, printItems, printItems]
    exact .cons (by decide) ((repairs_print item).append (repairs_printItems items))

theorem repairs_printMembers {height : Nat} {members members' : List (Text × Json)} :
    RereadsMembers number height members members' →
      Repairs (printMembers number members) (printMembers number (repairedMembers members))
  | .nil => repairs_ascii (by rw [printMembers]; simp)
  | .cons _ value members => by
    rw [repairedMembers, printMembers, printMembers]
    exact .cons (by decide) ((repairs_string _).append
      (.cons (by decide) ((repairs_print value).append (repairs_printMembers members))))

end

mutual

theorem rereads_repaired {height : Nat} {json json' : Json} :
    Rereads number height json json' → Rereads number height json.repaired json'.repaired
  | .null => .null
  | .bool value => .bool value
  | .string text => .string (not_mem_sanitize text)
  | .number shown =>
    match shown with
    | .number bytes start read same => .number (.number bytes start read same)
    | .null text => .number (.null text)
  | .array items => .array (rereadsItems_repaired items)
  | .object members => .object (rereadsMembers_repaired members)

theorem rereadsItems_repaired {height : Nat} {items items' : List Json} :
    RereadsItems number height items items' →
      RereadsItems number height (repairedItems items) (repairedItems items')
  | .nil => .nil
  | .cons item items => .cons (rereads_repaired item) (rereadsItems_repaired items)

theorem rereadsMembers_repaired {height : Nat} {members members' : List (Text × Json)} :
    RereadsMembers number height members members' →
      RereadsMembers number height (repairedMembers members) (repairedMembers members')
  | .nil => .nil
  | .cons text value members =>
    .cons (not_mem_sanitize text) (rereads_repaired value) (rereadsMembers_repaired members)

end

theorem parseWithEnd_repaired {height : Nat} {json json' : Json} (shown : Rereads number height json json')
    (shallow : height ≤ nestingLimit) :
    parseWithEnd (strUtf8Sanitize (print number json)) = some (json'.repaired, []) := by
  have fixed := repairs_print shown []
  rw [List.append_nil, strUtf8Sanitize_nil, List.append_nil] at fixed
  rw [fixed, parseWithEnd_print number (rereads_repaired shown) shallow]

end Cjson

end CognitiveOs.Infra
