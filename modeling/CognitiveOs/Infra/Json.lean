import CognitiveOs.Infra.Text

/-!
# Parsed JSON

The values `cJSON_Parse` returns. An object keeps its members in order, repeated keys
included, and a lookup finds the first of them.
-/

namespace CognitiveOs.Infra

inductive Json where
  | null
  | bool (value : Bool)
  | number (value : Rat)
  | string (value : Text)
  | array (items : List Json)
  | object (members : List (Text × Json))

namespace Json

/-- `cJSON_GetObjectItemCaseSensitive`. -/
def get? (json : Json) (key : Text) : Option Json :=
  match json with
  | .object members => (members.find? fun member => member.1 = key).map Prod.snd
  | _ => none

def string? : Json → Option Text
  | .string value => some value
  | _ => none

def isTrue : Json → Bool
  | .bool value => value
  | _ => false

/-- The items `cJSON_ArrayForEach` visits when the value is an array. -/
def items : Json → List Json
  | .array items => items
  | _ => []

def children : Json → List Json
  | .array items => items
  | .object members => members.map Prod.snd
  | _ => []

/-- The low byte of `type`. -/
def typeCode : Json → UInt64
  | .bool false => 1
  | .bool true => 2
  | .null => 4
  | .number _ => 8
  | .string _ => 16
  | .array _ => 32
  | .object _ => 64

def escapeByte (byte : UInt8) : Text :=
  if byte = 34 || byte = backslash then [backslash, byte]
  else if 31 < byte then [byte]
  else if byte = 8 then ascii "\\b"
  else if byte = 12 then ascii "\\f"
  else if byte = 10 then ascii "\\n"
  else if byte = 13 then ascii "\\r"
  else if byte = 9 then ascii "\\t"
  else ascii "\\u00" ++ [hexDigit (byte.toUInt64 >>> 4), hexDigit (byte.toUInt64 &&& 0xF)]

/-- `print_string_ptr`. -/
def printString (s : Text) : Text :=
  34 :: s.flatMap escapeByte ++ [34]

/-- The printed form of a value without children; `number` prints a double. -/
def printScalar (number : Rat → Text) : Json → Text
  | .null => ascii "null"
  | .bool value => if value then ascii "true" else ascii "false"
  | .number value => number value
  | .string value => printString value
  | _ => []

inductive Same : Json → Json → Prop where
  | refl (json : Json) : Same json json
  | trans {a b c : Json} : Same a b → Same b c → Same a c
  | order {members others : List (Text × Json)} : members.Perm others →
      Same (.object members) (.object others)
  | member {before after : List (Text × Json)} {key : Text} {a b : Json} : Same a b →
      Same (.object (before ++ (key, a) :: after)) (.object (before ++ (key, b) :: after))
  | item {before after : List Json} {a b : Json} : Same a b →
      Same (.array (before ++ a :: after)) (.array (before ++ b :: after))

end Json

end CognitiveOs.Infra
