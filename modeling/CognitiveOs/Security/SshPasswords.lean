import CognitiveOs.Infra.Json
import CognitiveOs.Security.Spans
import Mathlib.Data.List.Sort

/-!
# SSH passwords in texts

`security/ssh_passwords.c`: the registered passwords, where they occur in a text, and the text
with the occurrences replaced.
-/

namespace CognitiveOs.Security

open Infra

/-- The registered passwords, the newest first. -/
abbrev Passwords :=
  List Text

def registerValue (ps : Passwords) (password : Text) : Passwords :=
  if password = [] ∨ 6144 < password.length ∨ password ∈ ps then ps else password :: ps

/-- `secret_register_ssh_password`: the password and its form inside a JSON string. -/
def secretRegisterSshPassword (ps : Passwords) (password : Text) : Passwords :=
  if password = [] ∨ 1024 < password.length then ps
  else registerValue (registerValue ps password) ((Json.printString password).tail.dropLast)

/-- `secret_ssh_password_max_length`. -/
def maxLength (ps : Passwords) : Nat :=
  ps.foldl (fun n p => max n p.length) 0

/-- What a label and its password may have between them; `strchr` finds a NUL as well. -/
def isSeparator (c : UInt8) : Bool :=
  c ∈ [32, 9, 58, 61, 34, 39, 0]

/-- `tolower` of the C locale. -/
def toLower (c : UInt8) : UInt8 :=
  if 65 ≤ c ∧ c ≤ 90 then c + 32 else c

def passwordLabels : List Text :=
  [ascii "password", ascii "passwd", ascii "pwd", [0xE5, 0xAF, 0x86, 0xE7, 0xA0, 0x81],
    [0xE5, 0x8F, 0xA3, 0xE4, 0xBB, 0xA4]]

/-- `short_password_label`: the text before a place ends in a label and separators. -/
def shortPasswordLabel (before : Text) : Bool :=
  let labelled := before.reverse.dropWhile isSeparator
  passwordLabels.any fun label => (label.reverse.map toLower).isPrefixOf (labelled.map toLower)

def occurs (text password : Text) (at' : Nat) : Bool :=
  password.isPrefixOf (text.drop at') && (4 ≤ password.length || shortPasswordLabel (text.take at'))

/-- `match_order`: by the start, and the longer first. -/
def matchOrder (x y : Span) : Bool :=
  x.start < y.start || (x.start = y.start && y.stop ≤ x.stop)

def occurrences (text password : Text) : List Span :=
  if text.length < password.length then []
  else
    ((List.range (text.length - password.length + 1)).filter (occurs text password)).map fun at' =>
      { start := at', stop := at' + password.length }

def rawMatches (ps : Passwords) (text : Text) : List Span :=
  ps.flatMap (occurrences text)

/-- The loop over the sorted matches; `last` is the last one kept. -/
def mergeFrom (last : Span) : List Span → List Span
  | [] => [last]
  | m :: ms =>
    if m.start < last.stop then mergeFrom { last with stop := max last.stop m.stop } ms
    else last :: mergeFrom m ms

def mergeSpans : List Span → List Span
  | [] => []
  | m :: ms => mergeFrom m ms

def secretScanSshPasswords (ps : Passwords) (text : Text) : List Span :=
  mergeSpans ((rawMatches ps text).mergeSort matchOrder)

def redactedPassword : Text :=
  ascii "[REDACTED:ssh_password]"

/-- `secret_redact_ssh_passwords` with the default replacement. -/
def secretRedactSshPasswords (ps : Passwords) (text : Text) : Text :=
  replaceSpans (fun _ => redactedPassword) text 0 (secretScanSshPasswords ps text)

end CognitiveOs.Security
