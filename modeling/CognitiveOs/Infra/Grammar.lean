import CognitiveOs.Infra.Scan

/-!
# The grammar of JSON

What a JSON text is, whatever a parser does with it. White space is a part of the value around
which it stands.
-/

namespace CognitiveOs.Infra.Grammar

def isWhite (c : UInt8) : Bool :=
  c = 32 || c = 9 || c = 10 || c = 13

def White (s : Text) : Prop :=
  ∀ c ∈ s, isWhite c = true

def isHexDigit (c : UInt8) : Bool :=
  isDigit c || (65 ≤ c && c ≤ 70) || (97 ≤ c && c ≤ 102)

def Digits (s : Text) : Prop :=
  s ≠ [] ∧ ∀ c ∈ s, isDigit c = true

inductive Fraction : Text → Prop where
  | none : Fraction []
  | some {digits : Text} : Digits digits → Fraction (46 :: digits)

inductive Exponent : Text → Prop where
  | none : Exponent []
  | some {e : UInt8} {sign digits : Text} : e ∈ ([69, 101] : Text) → sign ∈ [[], [43], [45]] → Digits digits →
      Exponent (e :: (sign ++ digits))

inductive Number : Text → Prop where
  | mk {sign whole fraction exponent : Text} : sign ∈ [[], [45]] → Digits whole →
      (whole.head? = Option.some 48 → whole = [48]) → Fraction fraction → Exponent exponent →
      Number (sign ++ (whole ++ (fraction ++ exponent)))

inductive Chars : Text → Prop where
  | nil : Chars []
  | char {c : UInt8} {s : Text} : 32 ≤ c → c ≠ 34 → c ≠ 92 → Chars s → Chars (c :: s)
  | escape {c : UInt8} {s : Text} : c ∈ ([34, 92, 47, 98, 102, 110, 114, 116] : Text) → Chars s →
      Chars (92 :: c :: s)
  | code {digits s : Text} : digits.length = 4 → (∀ c ∈ digits, isHexDigit c = true) → Chars s →
      Chars (92 :: 117 :: (digits ++ s))

mutual

inductive Value : Text → Prop where
  | null : Value (ascii "null")
  | true : Value (ascii "true")
  | false : Value (ascii "false")
  | number {s : Text} : Number s → Value s
  | string {raw : Text} : Chars raw → Value (34 :: (raw ++ [34]))
  | array {inner : Text} : Items inner → Value (91 :: (inner ++ [93]))
  | object {inner : Text} : Members inner → Value (123 :: (inner ++ [125]))

inductive Items : Text → Prop where
  | none {white : Text} : White white → Items white
  | one {before value after : Text} : White before → Value value → White after →
      Items (before ++ (value ++ after))
  | more {before value after rest : Text} : White before → Value value → White after → Items rest →
      Items (before ++ (value ++ (after ++ 44 :: rest)))

inductive Members : Text → Prop where
  | none {white : Text} : White white → Members white
  | one {before key gap lead value after : Text} : White before → Chars key → White gap → White lead →
      Value value → White after →
      Members (before ++ (34 :: (key ++ 34 :: (gap ++ 58 :: (lead ++ (value ++ after))))))
  | more {before key gap lead value after rest : Text} : White before → Chars key → White gap →
      White lead → Value value → White after → Members rest →
      Members (before ++ (34 :: (key ++ 34 :: (gap ++ 58 :: (lead ++ (value ++ (after ++ 44 :: rest)))))))

end

inductive Document : Text → Prop where
  | array {inner : Text} : Items inner → Document (91 :: (inner ++ [93]))
  | object {inner : Text} : Members inner → Document (123 :: (inner ++ [125]))

end CognitiveOs.Infra.Grammar
