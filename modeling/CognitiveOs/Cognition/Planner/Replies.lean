import CognitiveOs.Cognition.Planner.Salvage
import CognitiveOs.Infra.Cjson

/-!
# Tool calls in replies

The three textual formats that `cognition/planner.c` turns into actions: JSON plans, tagged
calls and DSML envelopes. A pointer into the reply is the text from there on.
-/

namespace CognitiveOs.Cognition.Planner

open Infra Cjson

/-! ### JSON plans -/

def balancedSpan : Scan → Text → Option Text
  | _, [] => none
  | s, c :: rest =>
    if !s.inStr && (c = 93 || c = 125) && (s.step c).depth = 0 then some [c]
    else (balancedSpan (s.step c) rest).map (c :: ·)

def isBracket (c : UInt8) : Bool :=
  c = 91 || c = 123

def extractJsonSpan (plan : Text) : Option Text :=
  balancedSpan {} ((cstr plan).dropWhile fun c => !isBracket c)

/-- `planned_action`; the arguments are kept as the value that is printed. -/
structure PlannedAction where
  tool : Text
  args : Json

inductive Parsed where
  | none
  | invalid
  | batch (actions : List PlannedAction)

def argsToJson : Option Json → Option Json
  | .none => some (.object [])
  | some (.object members) => some (.object members)
  | some (.string s) =>
    match parseWhole s with
    | some (.object members) => some (.object members)
    | _ => .none
  | _ => .none

def isNameChar (c : UInt8) : Bool :=
  (97 ≤ c && c ≤ 122) || (65 ≤ c && c ≤ 90) || isDigit c || c = 95 || c = 45 || c = 46

def validActionName (name : Text) : Bool :=
  name ≠ [] && name.length ≤ 255 && name.all isNameChar

/-- `cJSON_GetObjectItemCaseSensitive`. -/
def item (json : Option Json) (key : String) : Option Json :=
  json.bind fun json => json.get? (ascii key)

def isFlat (it : Json) : Bool :=
  (item (some it) "name").isSome && (item (some it) "arguments").isSome

def callParts (it : Json) : Option Json × Option Json :=
  let tool := item (some it) "tool"
  let args := (item (some it) "args").or (item (some it) "arguments")
  if tool.isSome then (tool, args)
  else
    let fn := (item (some it) "function").or (if isFlat it then some it else .none)
    if fn.isSome then (item fn "name", item fn "arguments") else (.none, args)

def actionOf (it : Json) : Option PlannedAction :=
  match it with
  | .object _ =>
    match callParts it with
    | (some (.string name), args) =>
      if validActionName name then (argsToJson args).map fun args => { tool := name, args } else .none
    | _ => .none
  | _ => .none

def isCall (root : Json) : Bool :=
  (item (some root) "tool").isSome || (item (some root) "function").isSome || isFlat root

/-- `parse_plan_actions` after the parse. -/
def planBatch (root : Json) : Parsed :=
  let items :=
    match item (some root) "tool_calls" with
    | some (.array items) => some (some items)
    | some _ => .none
    | .none =>
      match root with
      | .array items => some (some items)
      | _ => some (if isCall root then some [root] else .none)
  match items with
  | .none => .invalid
  | some .none => .none
  | some (some items) =>
    match items.mapM actionOf with
    | .none => .invalid
    | some actions => .batch actions

def parsePlanActions (plan : Text) : Parsed :=
  match (parse plan).or ((extractJsonSpan plan).bind parse) with
  | .none => .none
  | some root => planBatch root

/-! ### Markup -/

/-- The text behind the run that closes a run of `n` quotes. -/
def closeRun (quote : UInt8) (n : Nat) : Nat → Text → Option Text
  | 0, _ => none
  | fuel + 1, s =>
    let run := s.dropWhile (· ≠ quote)
    if run = [] then none
    else
      let count := (run.takeWhile (· = quote)).length
      if count = n ∨ (3 ≤ n ∧ n < count) then some (run.drop count) else closeRun quote n fuel (run.drop count)

def codeEnd (s : Text) : Option Text :=
  match s with
  | [] => none
  | c :: _ =>
    if c = 96 ∨ s.take 3 = [126, 126, 126] then
      let n := (s.takeWhile (· = c)).length
      closeRun c n (s.length + 1) (s.drop n)
    else none

def toolTag : Text :=
  ascii "<tool_call"

/-- `<tool_call` and no longer word. -/
def startsTag (s : Text) : Bool :=
  toolTag.isPrefixOf s &&
    match s.drop 10 with
    | [] => true
    | c :: _ => c = 62 || isSpace c

def wideBar : Text :=
  [0xEF, 0xBD, 0x9C]

def dsmlPrefixes : List Text :=
  [wideBar ++ wideBar ++ ascii "DSML" ++ wideBar ++ wideBar, wideBar ++ ascii "DSML" ++ wideBar,
    ascii "||DSML||", ascii "|DSML|"]

def startsDsml (s : Text) : Bool :=
  dsmlPrefixes.any fun dsml => (60 :: dsml).isPrefixOf s

def nextMarkup (includeDsml : Bool) : Nat → Text → Option Text
  | 0, _ => none
  | _, [] => none
  | fuel + 1, c :: rest =>
    match codeEnd (c :: rest) with
    | some after => nextMarkup includeDsml fuel after
    | none =>
      if startsTag (c :: rest) || (includeDsml && startsDsml (c :: rest)) then some (c :: rest)
      else nextMarkup includeDsml fuel rest

/-- `next_tool_markup`: the markup outside Markdown code. -/
def nextToolMarkup (text : Text) (includeDsml : Bool) : Option Text :=
  nextMarkup includeDsml ((cstr text).length + 1) (cstr text)

/-! ### Tagged calls -/

def startsJson (s : Text) : Bool :=
  s.head?.any isBracket

def taggedName (p : Text) : Text × Text :=
  let name := (p.drop 11).dropWhile isWhite
  let head := name.takeWhile fun c => !(isBracket c || c = 60)
  ((head.reverse.dropWhile isWhite).reverse, name.drop head.length)

def taggedCalls : Nat → Text → Option (List PlannedAction)
  | 0, _ => none
  | fuel + 1, p =>
    match nextToolMarkup p false with
    | none => some []
    | some p =>
      if !(ascii "<tool_call>").isPrefixOf p then none
      else
        let (name, json) := taggedName p
        if !startsJson json || !validActionName name then none
        else
          match extractJsonSpan json with
          | none => none
          | some body =>
            match parse body with
            | some (.object members) =>
              (taggedCalls fuel (json.drop body.length)).map ({ tool := name, args := .object members } :: ·)
            | _ => none

def parseTaggedToolCalls (plan : Text) : Parsed :=
  let root := (cstr plan).dropWhile isSpace
  if startsJson root then .none
  else
    let first := (nextToolMarkup root false).getD root
    if first.length ≠ root.length ∧ ¬ (ascii "<tool_call>").isPrefixOf first then .invalid
    else
      match taggedCalls (first.length + 1) first with
      | .none => .invalid
      | some [] => .none
      | some actions => .batch actions

/-! ### DSML envelopes -/

structure DsmlTag where
  kind : Text
  name : Text := []
  closing : Bool := false
  stringValue : Option Bool := none
  deriving DecidableEq

def isAlpha (c : UInt8) : Bool :=
  (65 ≤ c && c ≤ 90) || (97 ≤ c && c ≤ 122)

def isAttributeChar (c : UInt8) : Bool :=
  isAlpha c || c = 95

def isKindChar (c : UInt8) : Bool :=
  isAlpha c || isDigit c || c = 95

def dsmlSpace (s : Text) : Text :=
  s.dropWhile isSpace

def DsmlTag.set (tag : DsmlTag) (key value : Text) : Option DsmlTag :=
  if key = ascii "name" then
    if value = [] ∨ 256 ≤ value.length ∨ tag.name ≠ [] then none else some { tag with name := value }
  else if key = ascii "string" then
    if tag.stringValue.isSome then none
    else if value = ascii "true" then some { tag with stringValue := some true }
    else if value = ascii "false" then some { tag with stringValue := some false }
    else none
  else none

def readAttributes : Nat → DsmlTag → Text → Option (DsmlTag × Text)
  | 0, _, _ => none
  | fuel + 1, tag, s =>
    match dsmlSpace s with
    | [] => none
    | c :: rest =>
      if c = 62 then some (tag, rest)
      else if tag.closing then none
      else
        let key := (c :: rest).takeWhile isAttributeChar
        match dsmlSpace ((c :: rest).drop key.length) with
        | 61 :: value =>
          match dsmlSpace value with
          | quote :: value =>
            if quote ≠ 34 ∧ quote ≠ 39 then none
            else
              let text := value.takeWhile (· ≠ quote)
              match value.drop text.length with
              | [] => none
              | _ :: rest => (tag.set key text).bind fun tag => readAttributes fuel tag rest
          | [] => none
        | _ => none

/-- `dsml_tag_read`: the tag, and the text behind it. -/
def dsmlTagRead (s : Text) : Option (DsmlTag × Text) :=
  let s := dsmlSpace s
  let s := if s.take 2 = [92, 60] then s.drop 1 else s
  match s with
  | 60 :: s =>
    let closing : Bool := s.head? = some 47
    let s := if closing then s.drop 1 else s
    match dsmlPrefixes.find? fun dsml => dsml.isPrefixOf s with
    | none => none
    | some dsml =>
      let s := dsmlSpace (s.drop dsml.length)
      let kind := s.takeWhile isKindChar
      if kind = [] ∨ 32 ≤ kind.length then none
      else readAttributes (s.length + 1) { kind, closing } (s.drop kind.length)
  | _ => none

def closesWith (tag : DsmlTag) (kind : Text) : Bool :=
  tag.closing && tag.kind = kind

def parameterText : Text → Option (Text × Text)
  | [] => none
  | c :: rest =>
    let closed : Bool :=
      c = 60 && (dsmlTagRead (c :: rest)).any fun (tag, _) => closesWith tag (ascii "parameter")
    if closed then some ([], c :: rest)
    else (parameterText rest).map fun (text, after) => (c :: text, after)

def parameterValue (tag : DsmlTag) (s : Text) : Option (Json × Text) :=
  if tag.stringValue = some true then
    (parameterText s).map fun (text, after) => (.string text, after)
  else parseWithEnd s

/-- The parameters of a call up to its closing tag: the arguments, and the text behind it. -/
def dsmlParameters : Nat → List (Text × Json) → Bool → Text → Option (Json × Text)
  | 0, _, _, _ => none
  | fuel + 1, args, envelope, s =>
    match dsmlTagRead s with
    | none => none
    | some (tag, s) =>
      if closesWith tag (ascii "invoke") then some (.object args, s)
      else if tag.closing ∨ tag.kind ≠ ascii "parameter" ∨ tag.name = [] then none
      else if envelope ∨ ((Json.object args).get? tag.name).isSome then none
      else
        match parameterValue tag s with
        | none => none
        | some (value, s) =>
          match dsmlTagRead s with
          | none => none
          | some (close, s) =>
            if !closesWith close (ascii "parameter") then none
            else
              match value with
              | .object members =>
                if tag.name = ascii "args" ∨ tag.name = ascii "arguments" then
                  if args ≠ [] then none else dsmlParameters fuel members true s
                else dsmlParameters fuel (args ++ [(tag.name, value)]) false s
              | _ => dsmlParameters fuel (args ++ [(tag.name, value)]) false s

def dsmlInvokes (outer : Text) : Nat → Text → Option (List PlannedAction × Text)
  | 0, _ => none
  | fuel + 1, s =>
    match dsmlTagRead s with
    | none => none
    | some (tag, s) =>
      if closesWith tag outer then some ([], s)
      else if tag.closing ∨ tag.kind ≠ ascii "invoke" ∨ tag.name = [] then none
      else
        match dsmlParameters (s.length + 1) [] false s with
        | none => none
        | some (args, s) =>
          (dsmlInvokes outer fuel s).map fun (actions, s) => ({ tool := tag.name, args } :: actions, s)

/-- Where the envelope starts: behind commentary, when the first markup outside code is DSML. -/
def dsmlStart (plan : Text) : Text :=
  let p := dsmlSpace plan
  match if startsJson p then none else nextToolMarkup p true with
  | some markup => if startsDsml markup then markup else p
  | none => p

def parseDsmlToolCalls (plan : Text) : Parsed :=
  let p := dsmlStart (cstr plan)
  if !((60 :: wideBar).isPrefixOf p || (ascii "<|").isPrefixOf p) then .none
  else if (strstr (ascii "DSML") p).isNone then .none
  else
    match dsmlTagRead p with
    | none => .invalid
    | some (tag, s) =>
      if tag.closing ∨ (tag.kind ≠ ascii "calls" ∧ tag.kind ≠ ascii "function_calls") then .invalid
      else
        match dsmlInvokes tag.kind (s.length + 1) s with
        | none => .invalid
        | some ([], _) => .invalid
        | some (actions, s) => if dsmlSpace s = [] then .batch actions else .invalid

end CognitiveOs.Cognition.Planner
