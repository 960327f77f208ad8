import CognitiveOs.Infra.Scan
import CognitiveOs.Security.Spans
import Mathlib.Algebra.Order.Field.Rat
import Mathlib.Data.List.Sort

/-!
# The secret detector

`security/secret_detector.c`: the rules that find secrets in a text, the list of their matches,
and the text with the matches replaced.
-/

namespace CognitiveOs.Security

open Infra

inductive Severity where
  | low
  | medium
  | high
  deriving DecidableEq

def Severity.rank : Severity → Nat
  | low => 0
  | medium => 1
  | high => 2

inductive Kind where
  | pemKey
  | bearer
  | basicAuth
  | jwt
  | awsKey
  | apiKey
  | kvCredential
  | entropy
  deriving DecidableEq

structure SecretMatch where
  span : Span
  severity : Severity
  kind : Kind
  deriving DecidableEq

/-- What the detector asks of its surroundings: the entropy of a text in bits a byte, which
`log` computes, and whether a file exists. -/
structure Oracle where
  shannon : Text → ℚ
  fsExists : Text → Bool

/-! ### Bytes -/

/-- `is_b64ish`: letters, digits and `_-=+/`. -/
def isB64ish (c : UInt8) : Bool :=
  isAlnum c ∨ c ∈ [95, 45, 61, 43, 47]

/-- `is_tokish`: letters, digits, `_` and `-`. -/
def isTokish (c : UInt8) : Bool :=
  isAlnum c ∨ c = 95 ∨ c = 45

def lowerCase (c : UInt8) : UInt8 :=
  if isUpper c then c + 32 else c

def sameCi (x y : Text) : Bool :=
  x.map lowerCase = y.map lowerCase

def placeholderWords : List Text :=
  ["changeme", "change_me", "example", "placeholder", "dummy", "sample", "your-", "your_", "xxxx", "****", "....", "todo",
    "fixme", "redacted", "none", "null", "true", "false", "test", "default", "secret_here", "password_here", "<", "$\x7b",
    "%s", "%d", "\x7b", "$", "*", "#", "?"].map ascii

/-- `is_placeholder`: too short, or a known word at either end. -/
def isPlaceholder (s : Text) : Bool :=
  s.length < 6 || placeholderWords.any fun word =>
    word.length ≤ s.length && (sameCi (s.take word.length) word || sameCi (s.drop (s.length - word.length)) word)

/-! ### Scanning -/

/-- `find_ci` between two places of a text. -/
def findCi (text : Text) (p stop : Nat) (needle : Text) : Option Nat :=
  if needle = [] ∨ stop - p < needle.length then none
  else (List.range' p (stop - needle.length + 1 - p)).find? fun i => sameCi (slice text i (i + needle.length)) needle

/-- Where a run of such bytes ends that begins at a place and has at most `limit` bytes. -/
def runEnd (text : Text) (p limit : Nat) (cls : UInt8 → Bool) : Nat :=
  p + (((text.drop p).take limit).takeWhile cls).length

/-- The loop over the places of a word. `visit` says what is found at a place and where the
search goes on. -/
def visits (text needle : Text) (visit : Nat → List SecretMatch × Option Nat) : Nat → Nat → List SecretMatch
  | 0, _ => []
  | fuel + 1, p =>
    match findCi text p text.length needle with
    | none => []
    | some hit =>
      (visit hit).1 ++
        match (visit hit).2 with
        | some q => visits text needle visit fuel q
        | none => []

def found (start stop : Nat) (kind : Kind) (ok : Bool) : List SecretMatch :=
  if ok then [{ span := { start, stop }, severity := .high, kind }] else []

def pemHeaders : List Text :=
  ["-----begin openssh private key-----", "-----begin rsa private key-----", "-----begin dsa private key-----",
    "-----begin ec private key-----", "-----begin pgp private key block-----", "-----begin private key-----"].map ascii

def pemMatches (text : Text) : List SecretMatch :=
  pemHeaders.flatMap fun header =>
    visits text header (fun hit => (found hit (hit + header.length) .pemKey true, some (hit + header.length)))
      (text.length + 1) 0

def schemeMatches (text scheme : Text) (kind : Kind) : List SecretMatch :=
  visits text scheme (fun hit =>
    let v := hit + scheme.length
    let e := runEnd text v 512 fun c => isB64ish c ∨ c = 46
    (found v e kind (16 ≤ e - v ∧ ¬ isPlaceholder (slice text v e)), some e)) (text.length + 1) 0

def jwtEnd : Nat → Nat → Text → Nat × Nat
  | 0, dots, _ => (0, dots)
  | _, dots, [] => (0, dots)
  | fuel + 1, dots, c :: rest =>
    if c = 46 then
      if 2 < dots + 1 then (0, dots + 1) else ((jwtEnd fuel (dots + 1) rest).1 + 1, (jwtEnd fuel (dots + 1) rest).2)
    else if isB64ish c then ((jwtEnd fuel dots rest).1 + 1, (jwtEnd fuel dots rest).2)
    else (0, dots)

def tokenAt (text : Text) (c : Nat) : Option (List SecretMatch × Nat) :=
  let rest := text.drop c
  let rem := rest.length
  let starts (word : String) : Bool := (ascii word).isPrefixOf rest
  let tokish (front least : Nat) : Option (List SecretMatch × Nat) :=
    let e := runEnd text (c + front) rem isTokish
    some (found c e .apiKey (least ≤ e - c), e)
  if 8 < rem ∧ starts "eyJ" then
    let e := c + (jwtEnd 2048 0 rest).1
    some (found c e .jwt (2 ≤ (jwtEnd 2048 0 rest).2 ∧ 32 ≤ e - c), e)
  else if 20 ≤ rem ∧ starts "AKIA" ∧ isUpper (rest.getD 4 0) then
    let e := runEnd text (c + 4) 16 fun x => isUpper x ∨ isDigit x
    some (found c e .awsKey (e - c = 20), e)
  else if 23 ≤ rem ∧ starts "sk-" then tokish 3 23
  else if 36 ≤ rem ∧ starts "ghp_" then tokish 4 36
  else if 20 ≤ rem ∧ (starts "xoxb-" ∨ starts "xoxp-" ∨ starts "xoxa-" ∨ starts "xoxr-") then tokish 5 20
  else if 39 ≤ rem ∧ starts "AIza" then
    let e := runEnd text (c + 4) 35 isTokish
    some (found c e .apiKey (e - c = 39), e)
  else none

def tokenMatches (text : Text) : Nat → Nat → List SecretMatch
  | 0, _ => []
  | fuel + 1, c =>
    if text.length ≤ c then []
    else
      match tokenAt text c with
      | some (matches', e) => matches' ++ tokenMatches text fuel e
      | none => tokenMatches text fuel (c + 1)

def credentialKeys : List Text :=
  ["password", "passwd", "pwd", "secret", "token", "api_key", "apikey", "api-key", "access_key", "private_key",
    "client_secret", "auth"].map ascii

def isQuote (c : UInt8) : Bool :=
  c = 34 ∨ c = 39

def isBlank (c : UInt8) : Bool :=
  c = 32 ∨ c = 9

def byteIs (text : Text) (i : Nat) (p : UInt8 → Bool) : Bool :=
  text[i]?.any p

def inUrl (text : Text) (hit : Nat) : Bool :=
  let token := ((text.take hit).reverse.takeWhile fun c => ¬ isSpace c ∧ ¬ isQuote c).length
  (findCi text (hit - token) hit (ascii "http://")).isSome ∨ (findCi text (hit - token) hit (ascii "https://")).isSome

def assigned (o : Oracle) (text key : Text) (hit : Nat) : List SecretMatch × Option Nat :=
  let c := hit + key.length
  if (0 < hit ∧ byteIs text (hit - 1) isTokish) ∨ byteIs text c isTokish then ([], some c)
  else
    let c := if 0 < hit ∧ byteIs text (hit - 1) isQuote ∧ text[c]? = text[hit - 1]? then c + 1 else c
    let c := runEnd text c text.length isBlank
    if byteIs text c fun x => x = 61 ∨ x = 58 then
      let c := runEnd text (c + 1) text.length isBlank
      let quote := text[c]?.filter isQuote
      let v := if quote.isSome then c + 1 else c
      let url := inUrl text hit
      let e := runEnd text v text.length fun x =>
        x ≠ 10 ∧ x ≠ 13 ∧ (¬ url ∨ (x ≠ 38 ∧ x ≠ 35)) ∧ x ∉ quote.elim [34, 39, 32, 9, 44, 59, 41] fun q => [q]
      (found v e .kvCredential (6 ≤ e - v ∧ ¬ isPlaceholder (slice text v e) ∧ 5 / 2 ≤ o.shannon (slice text v e)),
        if e < text.length then some e else none)
    else ([], if c < text.length then some c else none)

def assignmentMatches (o : Oracle) (text : Text) : List SecretMatch :=
  credentialKeys.flatMap fun key => visits text key (assigned o text key) (text.length + 1) 0

/-- `scan_patterns`: the matches in the order in which they are pushed. -/
def scanPatterns (o : Oracle) (text : Text) : List SecretMatch :=
  pemMatches text ++ (schemeMatches text (ascii "bearer ") .bearer ++ (schemeMatches text (ascii "basic ") .basicAuth ++
    (tokenMatches text (text.length + 1) 0 ++ assignmentMatches o text)))

/-! ### Entropy -/

def existingAbsolutePath (o : Oracle) (text : Text) (start stop : Nat) : Bool :=
  if stop ≤ start ∨ ¬ byteIs text start (· = 47) then false
  else
    let start := if 2 ≤ start ∧ byteIs text (start - 1) (· = 58) ∧ byteIs text (start - 2) fun c => isAlnum c ∧ ¬ isDigit c then start - 2 else start
    stop - start ≤ 4096 && o.fsExists (slice text start stop)

structure EntropyState where
  runStart : Nat
  urlEnd : Nat
  inAttachmentName : Bool

def attachmentMark : Text :=
  [91, 0xE9, 0x99, 0x84, 0xE4, 0xBB, 0xB6, 58]

def isReferenceField (run : Text) : Bool :=
  ["filepath=", "task_id=", "job_id="].any fun word => sameCi (run.take (ascii word).length) (ascii word)

def entropyStep (o : Oracle) (text : Text) (s : EntropyState) (i : Nat) : EntropyState × List SecretMatch :=
  let rest := text.drop i
  let urlEnd :=
    if sameCi (rest.take 7) (ascii "http://") ∨ sameCi (rest.take 8) (ascii "https://") then
      runEnd text i text.length fun c => ¬ isSpace c ∧ c ≠ 34 ∧ c ≠ 39 ∧ c ≠ 96
    else s.urlEnd
  let attachment := if attachmentMark.isPrefixOf rest then true else s.inAttachmentName
  let inRun := byteIs text i fun c => isB64ish c ∨ c = 46
  let run := slice text s.runStart i
  let matches' :=
    if ¬ inRun ∧ 28 ≤ i - s.runStart ∧ ¬ attachment ∧ ¬ isReferenceField run ∧ urlEnd ≤ s.runStart ∧
        9 / 2 ≤ o.shannon run ∧ ¬ existingAbsolutePath o text s.runStart i then
      [{ span := { start := s.runStart, stop := i }, severity := .medium, kind := .entropy }]
    else []
  ({ runStart := if inRun then s.runStart else i + 1
     urlEnd := urlEnd
     inAttachmentName := if byteIs text i (· = 93) then false else attachment }, matches')

def entropyFrom (o : Oracle) (text : Text) (s : EntropyState) : List Nat → List SecretMatch
  | [] => []
  | i :: is => (entropyStep o text s i).2 ++ entropyFrom o text (entropyStep o text s i).1 is

def scanEntropy (o : Oracle) (text : Text) : List SecretMatch :=
  entropyFrom o text { runStart := 0, urlEnd := 0, inAttachmentName := false } (List.range (text.length + 1))

/-! ### The matches together -/

def ruleMatches (o : Oracle) (text : Text) : List SecretMatch :=
  scanPatterns o text ++ scanEntropy o text

/-- `mv_push_nonoverlapping`: the first match that overlaps decides. -/
def mvPushNonoverlapping (mv : List SecretMatch) (m : SecretMatch) : List SecretMatch :=
  match mv with
  | [] => [m]
  | x :: xs =>
    if Overlap m.span x.span then if m.severity.rank ≤ x.severity.rank then x :: xs else m :: xs
    else x :: mvPushNonoverlapping xs m

def secretScanText (o : Oracle) (text : Text) : List SecretMatch :=
  ((ruleMatches o text).foldl mvPushNonoverlapping []).mergeSort fun x y => x.span.start ≤ y.span.start

/-- The spans that `secret_redact_text` replaces. -/
def replacedSpans (o : Oracle) (text : Text) : List Span :=
  ((secretScanText o text).filter fun m => Severity.medium.rank ≤ m.severity.rank).map SecretMatch.span

def secretRedactText (o : Oracle) (text replacement : Text) : Text :=
  replaceSpans (fun _ => replacement) text 0 (replacedSpans o text)

end CognitiveOs.Security
