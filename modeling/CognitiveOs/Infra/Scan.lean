import CognitiveOs.Infra.Text
import Mathlib.Algebra.Group.Nat.Defs

/-!
# Searching and scanning texts

`strstr`, the decimal conversions of `snprintf` and those of `sscanf` on 64-bit numbers.
-/

namespace CognitiveOs.Infra

/-- The text from the first place of `needle` on. -/
def strstr (needle : Text) : Text → Option Text
  | [] => if needle = [] then some [] else none
  | byte :: rest =>
    if needle.isPrefixOf (byte :: rest) then some (byte :: rest) else strstr needle rest

/-- `%llu` in `snprintf`. -/
def decimal (n : Nat) : Text :=
  (Nat.toDigits 10 n).map fun digit => digit.toNat.toUInt8

def printInteger (value : Rat) : Text :=
  if value < 0 then 45 :: decimal value.num.natAbs else decimal value.num.natAbs

def isSpace (byte : UInt8) : Bool :=
  byte = 32 || (9 ≤ byte && byte ≤ 13)

def isDigit (byte : UInt8) : Bool :=
  48 ≤ byte && byte ≤ 57

def isUpper (byte : UInt8) : Bool :=
  65 ≤ byte && byte ≤ 90

def isAlnum (byte : UInt8) : Bool :=
  isUpper byte || (97 ≤ byte && byte ≤ 122) || isDigit byte

def digitsValue (digits : Text) : Nat :=
  digits.foldl (fun value digit => 10 * value + (digit.toNat - 48)) 0

/-- The value of `strtoull`: too large a number is the largest one, and a minus sign
negates it. -/
def unsignedValue (negative : Bool) (value : Nat) : Nat :=
  if 2 ^ 64 ≤ value then 2 ^ 64 - 1 else if negative then (2 ^ 64 - value) % 2 ^ 64 else value

/-- `%llu` in `sscanf`: the number and the text after it. -/
def scanUnsigned (s : Text) : Option (Nat × Text) :=
  let s := s.dropWhile isSpace
  let (negative, s) :=
    match s with
    | 45 :: rest => (true, rest)
    | 43 :: rest => (false, rest)
    | _ => (false, s)
  let digits := s.takeWhile isDigit
  if digits = [] then none else some (unsignedValue negative (digitsValue digits), s.dropWhile isDigit)

/-! ### Searching -/

variable {needle s : Text} {b : UInt8}

theorem strstr_spec {found : Text} (search : strstr needle s = some found) : needle <+: found ∧ found <:+ s := by
  induction s with
  | nil =>
    unfold strstr at search
    split at search
    · rename_i empty
      obtain rfl := Option.some.inj search
      rw [empty]
      exact ⟨List.prefix_refl _, List.suffix_refl _⟩
    · cases search
  | cons c s ih =>
    unfold strstr at search
    split at search
    · rename_i here
      obtain rfl := Option.some.inj search
      exact ⟨List.isPrefixOf_iff_prefix.mp here, List.suffix_refl _⟩
    · rcases ih search with ⟨starts, ends⟩
      exact ⟨starts, ends.trans (List.suffix_cons c s)⟩

theorem strstr_skip {b : UInt8} {needle s y : Text} (absent : b ∉ s) :
    strstr (b :: needle) (s ++ y) = strstr (b :: needle) y := by
  induction s with
  | nil => rfl
  | cons c s ih =>
    rw [List.mem_cons, not_or] at absent
    have other : ((b :: needle).isPrefixOf (c :: (s ++ y))) = false := by
      rw [List.isPrefixOf, beq_false_of_ne absent.1, Bool.false_and]
    rw [List.cons_append, strstr, other, if_neg Bool.false_ne_true, ih absent.2]

theorem strstr_none (absent : b ∉ s) : strstr (b :: needle) s = none := by
  have skip := @strstr_skip b needle s [] absent
  rw [List.append_nil] at skip
  rw [skip]
  rfl

theorem strstr_self (needle s : Text) : strstr needle (needle ++ s) = some (needle ++ s) := by
  cases needle with
  | nil => cases s <;> simp [strstr]
  | cons c needle => simp [strstr]

theorem strstr_cons {c : UInt8} (other : b ≠ c) : strstr (b :: needle) (c :: s) = strstr (b :: needle) s :=
  @strstr_skip b needle [c] s (by simpa using other)

/-! ### Numbers -/

variable {n : Nat}

theorem isDigit_decimal (member : b ∈ decimal n) : isDigit b = true := by
  obtain ⟨c, digit, rfl⟩ := List.mem_map.mp member
  have bounds := Nat.isDigit_of_mem_toDigits (by decide) (by decide) digit
  simp only [Char.isDigit, Bool.and_eq_true, decide_eq_true_eq, ge_iff_le, UInt32.le_iff_toNat_le] at bounds
  have low : 48 ≤ c.toNat := bounds.1
  have high : c.toNat ≤ 57 := bounds.2
  unfold isDigit
  rw [Bool.and_eq_true, decide_eq_true_eq, decide_eq_true_eq, UInt8.le_iff_toNat_le, UInt8.le_iff_toNat_le]
  have same : c.toNat.toUInt8.toNat = c.toNat := UInt8.toNat_ofNat_of_lt' (by omega : c.toNat < 256)
  rw [same]
  exact ⟨low, high⟩

theorem not_mem_decimal (other : isDigit b = false) : b ∉ decimal n := by
  intro member
  rw [isDigit_decimal member] at other
  cases other

theorem decimal_ne_nil (n : Nat) : decimal n ≠ [] := by
  unfold decimal
  simp [Nat.toDigits_ne_nil]

theorem length_decimal {k : Nat} (some' : 0 < k) (small : n < 10 ^ k) : (decimal n).length ≤ k := by
  rw [decimal, List.length_map]
  exact (Nat.length_toDigits_le_iff (by decide) some').mpr small

theorem digitsValue_chars {digits : List Char} (small : ∀ c ∈ digits, c.toNat ≤ 57) (value : Nat) :
    (digits.map fun c => c.toNat.toUInt8).foldl (fun value digit => 10 * value + (digit.toNat - 48)) value =
      Nat.ofDigitChars 10 digits value := by
  induction digits generalizing value with
  | nil => simp
  | cons c digits ih =>
    have same : c.toNat.toUInt8.toNat = c.toNat :=
      UInt8.toNat_ofNat_of_lt' (lt_of_le_of_lt (small c (List.mem_cons_self ..)) (by decide))
    rw [List.map_cons, List.foldl_cons, ih fun c member => small c (List.mem_cons_of_mem _ member),
      Nat.ofDigitChars_cons, same]
    rfl

theorem digitsValue_decimal (n : Nat) : digitsValue (decimal n) = n := by
  unfold digitsValue decimal
  rw [digitsValue_chars, Nat.ofDigitChars_ten_toDigits]
  intro c digit
  have bounds := Nat.isDigit_of_mem_toDigits (by decide) (by decide) digit
  simp only [Char.isDigit, Bool.and_eq_true, decide_eq_true_eq, ge_iff_le, UInt32.le_iff_toNat_le] at bounds
  exact bounds.2

theorem scanUnsigned_decimal (small : n < 2 ^ 64) (stop : ∀ b ∈ s.head?, isDigit b = false) :
    scanUnsigned (decimal n ++ s) = some (n, s) := by
  have digits : ∀ b ∈ decimal n, isDigit b = true := fun b => isDigit_decimal
  have take : (decimal n ++ s).takeWhile isDigit = decimal n := by
    rw [List.takeWhile_append_of_pos digits]
    cases s with
    | nil => simp
    | cons b s => simp [stop b rfl]
  have drop : (decimal n ++ s).dropWhile isDigit = s := by
    rw [List.dropWhile_append_of_pos digits]
    cases s with
    | nil => rfl
    | cons b s => simp [stop b rfl]
  obtain ⟨first, rest, same⟩ := List.exists_cons_of_ne_nil (decimal_ne_nil n)
  have digit : isDigit first = true := digits first (same ▸ List.mem_cons_self ..)
  unfold isDigit at digit
  simp only [Bool.and_eq_true, decide_eq_true_eq] at digit
  have visible : (decimal n ++ s).dropWhile isSpace = decimal n ++ s := by
    rw [same, List.cons_append]
    apply List.dropWhile_cons_of_neg
    unfold isSpace
    simp only [Bool.or_eq_true, Bool.and_eq_true, decide_eq_true_eq]
    grind
  have minus : first ≠ 45 := by grind
  have plus : first ≠ 43 := by grind
  have value := digitsValue_decimal n
  rw [same] at value
  rw [same, List.cons_append] at take drop visible ⊢
  have whole : unsignedValue false n = n := by
    unfold unsignedValue
    rw [if_neg (by omega), if_neg Bool.false_ne_true]
  unfold scanUnsigned
  simp only
  rw [visible]
  simp [minus, plus, take, drop, value, whole]

end CognitiveOs.Infra
