import CognitiveOs.Infra.Follow
import CognitiveOs.Infra.Within
import Mathlib.Algebra.Order.Field.Rat
import Mathlib.Data.Rat.Cast.Defs

/-!
# Printed integers

What `print_number` prints of an integer of at most fifteen digits, and that it is read back.
-/

namespace CognitiveOs.Infra

/-- The nearest double of an integer, the even one of two: the cast `(double)n`. -/
def toDouble (n : Int) : Rat :=
  let unit := 2 ^ (n.natAbs.log2 - 52)
  let whole := n.natAbs / unit
  let rest := 2 * (n.natAbs % unit)
  let units := if unit < rest ∨ rest = unit ∧ whole % 2 = 1 then whole + 1 else whole
  if n < 0 then -(units * unit : Nat) else (units * unit : Nat)

theorem toDouble_of_small {n : Nat} (small : n < 2 ^ 53) : toDouble n = n := by
  have unit : n.log2 - 52 = 0 := by
    by_cases zero : n = 0
    · rw [zero]
      decide
    · have := (Nat.log2_lt zero).mpr small
      omega
  have positive : ¬ (n : Int) < 0 := by omega
  simp [toDouble, unit, positive, Nat.mod_one]

namespace Cjson

open Json

/-- What is used of `print_number`: a double is printed as `null` or as a number that is printed the
same when it is read back, and an integer of at most fifteen digits in full. -/
structure PrintsNumbers (number : Rat → Text) : Prop where
  reads (value : Rat) : ∃ json, NumberReads number value json
  integers (n : Nat) : n < 10 ^ 15 → number n = decimal n

theorem strtod_decimal (n : Nat) : strtod (decimal n) = some ((n : Rat), []) := by
  have digits : ∀ b ∈ decimal n, isDigit b = true := fun b => isDigit_decimal
  have take : (decimal n).takeWhile isDigit = decimal n := List.takeWhile_eq_self_iff.mpr digits
  have drop : (decimal n).dropWhile isDigit = [] := List.dropWhile_eq_nil_iff.mpr digits
  obtain ⟨first, rest, start⟩ := List.exists_cons_of_ne_nil (decimal_ne_nil n)
  have digit : isDigit first = true := digits first (start ▸ List.mem_cons_self)
  have sign : first ≠ 45 ∧ first ≠ 43 := by
    constructor <;> rintro rfl <;> exact absurd digit (by decide)
  unfold strtod
  simp only
  split
  · next signed => exact absurd (List.cons.inj (start.symm.trans signed)).1 sign.1
  · next signed => exact absurd (List.cons.inj (start.symm.trans signed)).1 sign.2
  · simp only [take, drop, decimal_ne_nil, false_and, if_false, List.append_nil, digitsValue_decimal]
    simp [scanExponent]

theorem decimal_start (n : Nat) : ∃ c rest, decimal n = c :: rest ∧ (c = 45 ∨ isDigit c = true) := by
  obtain ⟨first, rest, start⟩ := List.exists_cons_of_ne_nil (decimal_ne_nil n)
  exact ⟨first, rest, start, .inr (isDigit_decimal (start ▸ List.mem_cons_self))⟩

theorem decimal_numberBytes (n : Nat) : ∀ b ∈ decimal n, isNumberByte b = true := by
  intro b member
  simp [isNumberByte, isDigit_decimal member]

variable {number : Rat → Text}

theorem read_decimal {n : Nat} (text : number n = decimal n) {json : Json} (shown : NumberReads number n json) :
    json = .number n := by
  cases shown with
  | number _ _ read _ =>
    rw [text, strtod_decimal] at read
    rw [(Prod.mk.inj (Option.some.inj read)).1]
  | null other =>
    rw [text] at other
    have digit : isDigit 110 = true := isDigit_decimal (n := n) (by rw [other]; decide)
    exact absurd digit (by decide)

theorem PrintsNumbers.read_integer (prints : PrintsNumbers number) {n : Nat} (small : n < 10 ^ 15) {json : Json}
    (shown : NumberReads number n json) : json = .number n :=
  read_decimal (prints.integers n small) shown

/-- The integers from 0 are printed in full, everything else as `null`. -/
def naturalText (value : Rat) : Text :=
  if value.den = 1 ∧ 0 ≤ value.num then decimal value.num.toNat else ascii "null"

theorem naturalText_natCast (n : Nat) : naturalText n = decimal n := by
  simp [naturalText]

theorem printsNumbers_naturalText : PrintsNumbers naturalText where
  reads value := by
    by_cases natural : value.den = 1 ∧ 0 ≤ value.num
    · have shown : naturalText value = decimal value.num.toNat := if_pos natural
      refine ⟨.number (value.num.toNat : Nat), .number ?_ ?_ ?_ ?_⟩
      · rw [shown]
        exact decimal_numberBytes _
      · rw [shown]
        exact decimal_start _
      · rw [shown]
        exact strtod_decimal _
      · rw [naturalText_natCast, shown]
    · exact ⟨.null, .null (if_neg natural)⟩
  integers n _ := naturalText_natCast n

/-! ### Objects -/

@[simp] theorem get?_cons_self (key : Text) (value : Json) (members : List (Text × Json)) :
    (Json.object ((key, value) :: members)).get? key = some value := by
  simp [get?]

theorem get?_cons_of_ne {key other : Text} (apart : other ≠ key) (value : Json) (members : List (Text × Json)) :
    (Json.object ((other, value) :: members)).get? key = (Json.object members).get? key := by
  simp [get?, apart]

theorem print_brace (members : List (Text × Json)) : (print number (.object members)).head? = some 123 := by
  cases members <;> rw [print] <;> rfl

theorem PrintsNumbers.objectText (prints : PrintsNumbers number) {members : List (Text × Json)}
    (within : WithinMembers (nestingLimit - 1) members) :
    ∃ members', RereadsMembers number (nestingLimit - 1) members members' ∧
      ObjectText (print number (.object members)) members' := by
  obtain ⟨members', shown⟩ := within.rereads prints.reads
  have object : Rereads number (nestingLimit - 1 + 1) (.object members) (.object members') := .object shown
  exact ⟨members', shown, (print_clean number object).1, print_brace members,
    parseWithEnd_print number object (by decide)⟩

end Cjson

end CognitiveOs.Infra

/-!
## Printed integers of either sign

What `print_number` prints of an integer of at most fifteen digits, and that it is read back.
-/

namespace CognitiveOs.Infra.Cjson

open Json

/-- What is used of `print_number` on integers of either sign. -/
structure PrintsIntegers (number : Rat → Text) : Prop extends PrintsNumbers number where
  negatives (n : Nat) : 0 < n → n < 10 ^ 15 → number (-n) = 45 :: decimal n

theorem strtod_negative (n : Nat) : strtod (45 :: decimal n) = some (-(n : Rat), []) := by
  have digits : ∀ b ∈ decimal n, isDigit b = true := fun b => isDigit_decimal
  have take : (decimal n).takeWhile isDigit = decimal n := List.takeWhile_eq_self_iff.mpr digits
  have drop : (decimal n).dropWhile isDigit = [] := List.dropWhile_eq_nil_iff.mpr digits
  unfold strtod
  simp only [take, drop, decimal_ne_nil, false_and, if_false, List.append_nil, digitsValue_decimal]
  simp [scanExponent]

theorem reads_of_text {number : Rat → Text} {n : Nat} {value : Rat}
    (text : number value = decimal n ∧ value = n ∨ number value = 45 :: decimal n ∧ value = -n) :
    NumberReads number value (.number value) := by
  rcases text with ⟨text, rfl⟩ | ⟨text, rfl⟩
  · refine .number ?_ ?_ ?_ rfl
    · rw [text]
      exact decimal_numberBytes n
    · rw [text]
      exact decimal_start n
    · rw [text]
      exact strtod_decimal n
  · refine .number ?_ ⟨45, _, text, .inl rfl⟩ ?_ rfl
    · rw [text]
      intro b member
      rcases List.mem_cons.mp member with rfl | digit
      · decide
      · exact decimal_numberBytes n b digit
    · rw [text]
      exact strtod_negative n

theorem PrintsIntegers.reads_self {number : Rat → Text} (prints : PrintsIntegers number) {k : Int}
    (small : k.natAbs < 10 ^ 15) : NumberReads number k (.number k) := by
  apply @reads_of_text number k.natAbs
  by_cases sign : k < 0
  · have cast : (k : Rat) = -(k.natAbs : Rat) := by
      rw [← Int.cast_natCast, ← Int.cast_neg]
      congr 1
      omega
    refine .inr ⟨?_, cast⟩
    rw [cast]
    exact prints.negatives k.natAbs (by omega) small
  · have cast : (k : Rat) = (k.natAbs : Rat) := by
      rw [← Int.cast_natCast]
      congr 1
      omega
    refine .inl ⟨?_, cast⟩
    rw [cast]
    exact prints.integers k.natAbs small

/-- Integers are printed in full, everything else as `null`. -/
def integerText (value : Rat) : Text :=
  if value.den = 1 then printInteger value else ascii "null"

theorem printsIntegers_integerText : PrintsIntegers integerText where
  reads value := by
    by_cases whole : value.den = 1
    · refine ⟨.number value, @reads_of_text _ value.num.natAbs value ?_⟩
      have cast : value = (value.num : Rat) := (Rat.coe_int_num_of_den_eq_one whole).symm
      by_cases sign : value < 0
      · have low : value.num < 0 := Rat.num_neg.mpr sign
        refine .inr ⟨by simp [integerText, whole, printInteger, sign], ?_⟩
        rw [← Int.cast_natCast, ← Int.cast_neg]
        refine cast.trans (congrArg _ ?_)
        omega
      · have high : 0 ≤ value.num := Rat.num_nonneg.mpr (not_lt.mp sign)
        refine .inl ⟨by simp [integerText, whole, printInteger, sign], ?_⟩
        rw [← Int.cast_natCast]
        refine cast.trans (congrArg _ ?_)
        omega
    · exact ⟨.null, .null (if_neg whole)⟩
  integers n _ := by
    have sign : ¬ (n : Rat) < 0 := not_lt.mpr n.cast_nonneg
    simp [integerText, printInteger, sign]
  negatives n positive _ := by
    have sign : (-n : Rat) < 0 := neg_lt_zero.mpr (Nat.cast_pos.mpr positive)
    simp [integerText, printInteger, sign]

end CognitiveOs.Infra.Cjson
