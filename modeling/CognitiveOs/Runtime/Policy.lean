import CognitiveOs.Infra.Formatted
import CognitiveOs.Infra.Within
import CognitiveOs.Os.World
import Mathlib.Data.List.Find
import Mathlib.Data.List.Induction

/-!
# The policy engine

The rules of `runtime/policy_engine.c`, the decision on a tool, and what start-up makes of the saved
rules: it adds a default rule for every tool before them.
-/

namespace CognitiveOs.Runtime.Policy

open Infra Os

/-- `policy_decision`. -/
inductive Decision where
  | allow | deny | ask
  deriving DecidableEq, Repr

structure Rule where
  tool : Text
  decision : Decision
  reason : Option Text
  deriving DecidableEq

/-- `struct policy_engine`, without its callback. -/
structure PolicyEngine where
  rules : List Rule := []
  deriving DecidableEq

def wildcard : Text :=
  ascii "*"

/-- `parse_action`: everything unknown denies. -/
def parseAction (action : Text) : Decision :=
  if action = ascii "allow" then .allow
  else if action = ascii "deny" then .deny
  else if action = ascii "ask" then .ask
  else .deny

def decisionStr : Decision → Text
  | .allow => ascii "allow"
  | .deny => ascii "deny"
  | .ask => ascii "ask"

@[simp] theorem parseAction_decisionStr (decision : Decision) : parseAction (decisionStr decision) = decision := by
  cases decision <;> decide

/-- `policy_add_rule`: the texts are copied up to their terminators. -/
def addRule (pe : PolicyEngine) (tool action : Text) (reason : Option Text) : PolicyEngine :=
  let r : Rule := { tool := cstr tool, decision := parseAction (cstr action), reason := reason.map cstr }
  { pe with rules := pe.rules ++ [r] }

/-- `policy_remove_rule`. -/
def removeRule (pe : PolicyEngine) (index : Nat) : PolicyEngine :=
  { pe with rules := pe.rules.eraseIdx index }

/-- The loop of `policy_check`: the last exact rule and the last wildcard rule. -/
def scanRules (tool : Text) (rules : List Rule) : Option Rule × Option Rule :=
  rules.foldl (fun found r =>
    if r.tool = tool then (some r, found.2)
    else if r.tool = wildcard then (found.1, some r)
    else found) (none, none)

/-- The decision of a rule that matches: `ask` asks the callback, and denies without one. -/
def decide' (ask : Option (Text → Text → Bool)) (tool args : Text) (r : Rule) : Decision × Text :=
  match r.decision with
  | .ask =>
    if ask.any fun ask => ask tool args then (.allow, r.reason.getD (ascii "rule match"))
    else (.deny, ascii "ask denied")
  | decision => (decision, r.reason.getD (ascii "rule match"))

/-- `policy_check`: the decision and its reason. -/
def policyCheck (pe : PolicyEngine) (ask : Option (Text → Text → Bool)) (tool args : Text) : Decision × Text :=
  let (exact, wild) := scanRules tool pe.rules
  match exact <|> wild with
  | some r => decide' ask tool args r
  | none => (if pe.rules = [] then .allow else .ask, ascii "no rule")

/-! ### Saving and loading -/

def ruleJson (r : Rule) : Json :=
  .object [(ascii "tool", .string r.tool), (ascii "action", .string (decisionStr r.decision)),
    (ascii "reason", .string (r.reason.getD []))]

/-- `policy_save_file`: `none` where the source returns -1. -/
def policySaveFile (number : Rat → Text) (pe : PolicyEngine) (d : Disk) (path : Text) : Option Disk :=
  fsWriteFile d path (Json.printFormatted number 0 (.array (pe.rules.map ruleJson)))

/-- The body of the loop of `policy_load_file`. -/
def loadRule (pe : PolicyEngine) (it : Json) : PolicyEngine :=
  match (it.get? (ascii "tool")).bind Json.string? with
  | none => pe
  | some tool =>
    addRule pe tool (((it.get? (ascii "action")).bind Json.string?).getD (ascii "deny"))
      ((it.get? (ascii "reason")).bind Json.string?)

/-- `policy_load_file`: the rules of the file are added, if it can be read. -/
def policyLoadFile (pe : PolicyEngine) (d : Disk) (path : Text) : PolicyEngine :=
  match (fsReadFile d path).bind Cjson.parse with
  | some (.array items) => items.foldl loadRule pe
  | _ => pe

def startUp (d : Disk) (path : Text) : PolicyEngine :=
  policyLoadFile (addRule {} wildcard (ascii "allow") (some (ascii "default allow (demo)"))) d path

inductive Change where
  | add (tool action : Text) (reason : Option Text)
  | remove (index : Nat)

def Change.apply (pe : PolicyEngine) : Change → PolicyEngine
  | .add tool action reason => addRule pe tool action reason
  | .remove index => removeRule pe index

def changed (pe : PolicyEngine) (changes : List Change) : PolicyEngine :=
  changes.foldl Change.apply pe

/-! ### Which rule decides -/

variable {rules : List Rule}

def last? (p : Rule → Bool) (rules : List Rule) : Option Rule :=
  rules.reverse.find? p

theorem last?_append (p : Rule → Bool) (rules : List Rule) (r : Rule) :
    last? p (rules ++ [r]) = if p r then some r else last? p rules := by
  cases h : p r <;> simp [last?, h]

theorem last?_isSome {p : Rule → Bool} : (last? p rules).isSome ↔ ∃ r ∈ rules, p r := by
  simp [last?]

theorem last?_of_split {p : Rule → Bool} {before after : List Rule} {r : Rule} (holds : p r)
    (none_after : ∀ r' ∈ after, ¬ p r') : last? p (before ++ r :: after) = some r := by
  have skipped : after.reverse.find? p = none := by
    rw [List.find?_eq_none]
    intro r' member
    exact none_after r' (List.mem_reverse.mp member)
  simp [last?, List.find?_append, skipped, holds]

theorem scanRules_eq (tool : Text) (rules : List Rule) :
    scanRules tool rules =
      (last? (fun r => r.tool = tool) rules, last? (fun r => r.tool ≠ tool ∧ r.tool = wildcard) rules) := by
  induction rules using List.reverseRecOn with
  | nil => rfl
  | append_singleton rules r ih =>
    rw [scanRules] at ih ⊢
    rw [List.foldl_append, ih, last?_append, last?_append]
    by_cases exact' : r.tool = tool
    · simp [exact']
    · by_cases wild : r.tool = wildcard
      · have apart : wildcard ≠ tool := fun same => exact' (wild.trans same)
        simp [wild, apart]
      · simp [exact', wild]

def deciding (tool : Text) (rules : List Rule) : Option Rule :=
  last? (fun r => r.tool = tool) rules <|> last? (fun r => r.tool = wildcard) rules

theorem policyCheck_eq (pe : PolicyEngine) (ask : Option (Text → Text → Bool)) (tool args : Text) :
    policyCheck pe ask tool args =
      match deciding tool pe.rules with
      | some r => decide' ask tool args r
      | none => (if pe.rules = [] then .allow else .ask, ascii "no rule") := by
  have same : (last? (fun r => r.tool = tool) pe.rules <|>
      last? (fun r => r.tool ≠ tool ∧ r.tool = wildcard) pe.rules) = deciding tool pe.rules := by
    rw [deciding]
    cases found : last? (fun r => r.tool = tool) pe.rules with
    | some r => rfl
    | none =>
      -- without an exact rule, every wildcard rule is a rule for another tool
      have other : ∀ r ∈ pe.rules, r.tool ≠ tool := by
        intro r member exact'
        have := last?_isSome (p := fun r => r.tool = tool).mpr ⟨r, member, by simpa using exact'⟩
        rw [found] at this
        exact absurd this (by decide)
      have agree : ∀ r ∈ pe.rules.reverse, decide (r.tool ≠ tool ∧ r.tool = wildcard) = decide (r.tool = wildcard) := by
        intro r member
        simp [other r (List.mem_reverse.mp member)]
      exact List.find?_congr agree
  rw [policyCheck, scanRules_eq]
  simp only [same]

theorem deciding_eq_none {tool : Text} :
    deciding tool rules = none ↔ ∀ r ∈ rules, r.tool ≠ tool ∧ r.tool ≠ wildcard := by
  simp only [deciding, last?, Option.orElse_eq_orElse, Option.orElse_eq_or, Option.or_eq_none_iff,
    List.find?_eq_none, List.mem_reverse, decide_eq_true_eq]
  exact ⟨fun h r member => ⟨h.1 r member, h.2 r member⟩, fun h => ⟨fun r member => (h r member).1,
    fun r member => (h r member).2⟩⟩

/-- An exact rule wins over a wildcard one, and the last of the rules that are equally specific wins. -/
structure Precedence (pe : PolicyEngine) (ask : Option (Text → Text → Bool)) (tool args : Text) : Prop where
  specific : ∀ before r after, pe.rules = before ++ r :: after → r.tool = tool → (∀ r' ∈ after, r'.tool ≠ tool) →
    policyCheck pe ask tool args = decide' ask tool args r
  wild : ∀ before r after, pe.rules = before ++ r :: after → r.tool = wildcard →
    (∀ r' ∈ after, r'.tool ≠ wildcard) → (∀ r' ∈ pe.rules, r'.tool ≠ tool) →
    policyCheck pe ask tool args = decide' ask tool args r

theorem precedence (pe : PolicyEngine) (ask : Option (Text → Text → Bool)) (tool args : Text) :
    Precedence pe ask tool args := by
  constructor
  · intro before r after split exact' later
    have last : last? (fun r => r.tool = tool) pe.rules = some r := by
      rw [split]
      exact last?_of_split (by simpa using exact') (by simpa using later)
    rw [policyCheck_eq, deciding, last]
    rfl
  · intro before r after split wild later other
    have none_exact : last? (fun r => r.tool = tool) pe.rules = none := by
      rw [last?, List.find?_eq_none]
      intro r' member
      simpa using other r' (List.mem_reverse.mp member)
    have last : last? (fun r => r.tool = wildcard) pe.rules = some r := by
      rw [split]
      exact last?_of_split (by simpa using wild) (by simpa using later)
    rw [policyCheck_eq, deciding, none_exact, last]
    rfl

/-! ### After a restart -/

variable {pe : PolicyEngine} {number : Rat → Text} {d d' : Disk} {path : Text}

def Rule.Clean (r : Rule) : Prop :=
  0 ∉ r.tool ∧ ∀ reason ∈ r.reason, 0 ∉ reason

def PolicyEngine.Clean (pe : PolicyEngine) : Prop :=
  ∀ r ∈ pe.rules, r.Clean

theorem PolicyEngine.Clean.addRule (clean : pe.Clean) (tool action : Text) (reason : Option Text) :
    (addRule pe tool action reason).Clean := by
  intro r member
  rcases List.mem_append.mp member with old | new
  · exact clean r old
  · rw [List.mem_singleton.mp new]
    refine ⟨not_mem_cstr tool, ?_⟩
    intro text copied
    obtain ⟨reason, -, rfl⟩ := Option.map_eq_some_iff.mp copied
    exact not_mem_cstr reason

theorem PolicyEngine.Clean.loadRule (clean : pe.Clean) (it : Json) : (loadRule pe it).Clean := by
  unfold Policy.loadRule
  split
  · exact clean
  · exact clean.addRule _ _ _

theorem clean_startUp (d : Disk) (path : Text) : (startUp d path).Clean := by
  have start : (addRule {} wildcard (ascii "allow") (some (ascii "default allow (demo)"))).Clean :=
    PolicyEngine.Clean.addRule (fun _ member => absurd member List.not_mem_nil) _ _ _
  unfold startUp policyLoadFile
  split
  · next items _ =>
    refine List.foldlRecOn items _ start ?_
    intro pe clean it _
    exact clean.loadRule it
  · exact start

theorem clean_changed (clean : pe.Clean) (changes : List Change) : (changed pe changes).Clean := by
  refine List.foldlRecOn changes _ clean ?_
  intro pe clean change _
  cases change with
  | add tool action reason => exact clean.addRule tool action reason
  | remove index => exact fun r member => clean r (List.mem_of_mem_eraseIdx member)

def Rule.reread (r : Rule) : Rule :=
  { r with reason := some (r.reason.getD []) }

theorem loadRule_ruleJson (pe : PolicyEngine) {r : Rule} (clean : r.Clean) :
    loadRule pe (ruleJson r) = { pe with rules := pe.rules ++ [r.reread] } := by
  have tool : (ruleJson r).get? (ascii "tool") = some (.string r.tool) := by
    simp [ruleJson, Json.get?]
  have action : (ruleJson r).get? (ascii "action") = some (.string (decisionStr r.decision)) := by
    have apart : ascii "tool" ≠ ascii "action" := by decide
    simp [ruleJson, Json.get?, apart]
  have reason : (ruleJson r).get? (ascii "reason") = some (.string (r.reason.getD [])) := by
    have apart : ascii "tool" ≠ ascii "reason" ∧ ascii "action" ≠ ascii "reason" := by decide
    simp [ruleJson, Json.get?, apart]
  have text : 0 ∉ r.reason.getD [] := by
    cases given : r.reason with
    | none => simp
    | some reason => exact clean.2 reason given
  have word : cstr (decisionStr r.decision) = decisionStr r.decision := by cases r.decision <;> decide
  simp [loadRule, tool, action, reason, Json.string?, addRule, cstr_eq_self clean.1, cstr_eq_self text, word,
    Rule.reread]

theorem load_rules (pe : PolicyEngine) (clean : ∀ r ∈ rules, r.Clean) :
    (rules.map ruleJson).foldl loadRule pe = { pe with rules := pe.rules ++ rules.map Rule.reread } := by
  induction rules generalizing pe with
  | nil => simp
  | cons r rules ih =>
    rw [List.map_cons, List.foldl_cons, loadRule_ruleJson pe (clean r List.mem_cons_self),
      ih _ fun r member => clean r (List.mem_cons_of_mem _ member)]
    simp

theorem plain_rules (clean : ∀ r ∈ rules, r.Clean) : Json.Plain 2 (.array (rules.map ruleJson)) := by
  refine .array ?_
  induction rules with
  | nil => exact .nil
  | cons r rules ih =>
    have first := clean r List.mem_cons_self
    have reason : 0 ∉ r.reason.getD [] := by
      cases given : r.reason with
      | none => simp
      | some reason => exact first.2 reason given
    have word : 0 ∉ decisionStr r.decision := by cases r.decision <;> decide
    exact .cons (.object (.cons (by decide) (.string first.1) (.cons (by decide) (.string word)
      (.cons (by decide) (.string reason) .nil)))) (ih fun r member => clean r (List.mem_cons_of_mem _ member))

def defaultRule : Rule where
  tool := wildcard
  decision := .allow
  reason := some (ascii "default allow (demo)")

theorem startUp_saved (clean : pe.Clean) (readable : d.readable path)
    (saved : policySaveFile number pe d path = some d') :
    (startUp d' path).rules = defaultRule :: pe.rules.map Rule.reread := by
  have disk : d' = setNode d path (some (.file (Json.printFormatted number 0 (.array (pe.rules.map ruleJson))))) := by
    unfold policySaveFile fsWriteFile at saved
    split at saved
    · exact absurd saved (by simp)
    · exact (Option.some.inj saved).symm
  have file : fsReadFile d' path = some (Json.printFormatted number 0 (.array (pe.rules.map ruleJson))) := by
    rw [disk]
    simp [fsReadFile, setNode, readable]
  have parsed : Cjson.parse (Json.printFormatted number 0 (.array (pe.rules.map ruleJson))) =
      some (.array (pe.rules.map ruleJson)) := Cjson.parse_formatted number (plain_rules clean) (by decide)
  have first : (addRule {} wildcard (ascii "allow") (some (ascii "default allow (demo)"))).rules = [defaultRule] := by
    decide
  rw [startUp, policyLoadFile, file, Option.bind_some, parsed]
  simp only [load_rules _ clean, first]
  rfl

theorem deciding_reread (tool : Text) (rules : List Rule) :
    deciding tool (rules.map Rule.reread) = (deciding tool rules).map Rule.reread := by
  have last (p : Text → Bool) : last? (fun r => p r.tool) (rules.map Rule.reread) =
      (last? (fun r => p r.tool) rules).map Rule.reread := by
    rw [last?, last?, ← List.map_reverse, List.find?_map]
    rfl
  rw [deciding, deciding, last (fun t => t = tool), last (fun t => t = wildcard)]
  cases last? (fun r => decide (r.tool = tool)) rules <;> rfl

theorem decide'_reread (ask : Option (Text → Text → Bool)) (tool args : Text) (r : Rule) :
    (decide' ask tool args r.reread).1 = (decide' ask tool args r).1 := by
  unfold decide' Rule.reread
  cases r.decision <;> simp only
  split <;> rfl

theorem deciding_cons_default (tool : Text) (rules : List Rule) :
    deciding tool (defaultRule :: rules) = some ((deciding tool rules).getD defaultRule) := by
  have last (p : Rule → Bool) : last? p (defaultRule :: rules) =
      (last? p rules <|> if p defaultRule then some defaultRule else none) := by
    rw [last?, List.reverse_cons, List.find?_append]
    cases h : p defaultRule <;> simp [last?, h]
  rw [deciding, deciding, last, last]
  have wild : decide (defaultRule.tool = wildcard) = true := by decide
  rw [wild]
  cases exact' : last? (fun r => decide (r.tool = tool)) rules with
  | some r => rfl
  | none =>
    by_cases own : defaultRule.tool = tool
    · subst own
      have same : (fun r : Rule => decide (r.tool = wildcard)) = fun r => decide (r.tool = defaultRule.tool) := rfl
      rw [same, exact']
      rfl
    · cases last? (fun r => decide (r.tool = wildcard)) rules <;> simp [own]

def SameDecisions (pe pe' : PolicyEngine) : Prop :=
  ∀ ask tool args, (policyCheck pe ask tool args).1 = (policyCheck pe' ask tool args).1

theorem check_restarted (clean : pe.Clean) (readable : d.readable path)
    (saved : policySaveFile number pe d path = some d') (ask : Option (Text → Text → Bool)) (tool args : Text) :
    (policyCheck (startUp d' path) ask tool args).1 =
      match deciding tool pe.rules with
      | some r => (decide' ask tool args r).1
      | none => .allow := by
  rw [policyCheck_eq, startUp_saved clean readable saved, deciding_cons_default, deciding_reread]
  cases deciding tool pe.rules with
  | some r => exact decide'_reread ask tool args r
  | none => rfl

theorem sameDecisions_iff (clean : pe.Clean) (readable : d.readable path)
    (saved : policySaveFile number pe d path = some d') :
    SameDecisions (startUp d' path) pe ↔ (pe.rules = [] ∨ ∃ r ∈ pe.rules, r.tool = wildcard) := by
  constructor
  · intro same
    by_contra neither
    push Not at neither
    obtain ⟨some_rule, no_wild⟩ := neither
    -- no rule matches the tool that is named like the wildcard
    have unmatched : deciding wildcard pe.rules = none :=
      deciding_eq_none.mpr fun r member => ⟨no_wild r member, no_wild r member⟩
    have decided := same none wildcard []
    rw [check_restarted clean readable saved, policyCheck_eq, unmatched] at decided
    simp [some_rule] at decided
  · intro covered ask tool args
    rw [check_restarted clean readable saved, policyCheck_eq]
    cases found : deciding tool pe.rules with
    | some r => rfl
    | none =>
      rcases covered with empty | ⟨r, member, wild⟩
      · simp [empty]
      · exact absurd wild (deciding_eq_none.mp found r member).2

/-- The decisions survive a save and a restart exactly when the rules saved are none or have a wildcard
rule among them; in every engine the more specific and the later rule wins. -/
theorem decisions_survive_iff (number : Rat → Text) (d : Disk) (path : Text) (changes : List Change) {d' : Disk}
    (readable : d.readable path) (saved : policySaveFile number (changed (startUp d path) changes) d path = some d') :
    (SameDecisions (startUp d' path) (changed (startUp d path) changes) ↔
      ((changed (startUp d path) changes).rules = [] ∨
        ∃ r ∈ (changed (startUp d path) changes).rules, r.tool = wildcard)) ∧
    ∀ (pe : PolicyEngine) ask tool args, Precedence pe ask tool args :=
  ⟨sameDecisions_iff (clean_changed (clean_startUp d path) changes) readable saved, precedence⟩

def denyShell : List Change :=
  [.add (ascii "shell") (ascii "deny") none, .remove 0]

theorem rules_denyShell : (changed (startUp {} [47]) denyShell).rules = [⟨ascii "shell", .deny, none⟩] := by
  decide

theorem saved_denyShell : ∃ d', policySaveFile (fun _ => []) (changed (startUp {} [47]) denyShell) {} [47] = some d' :=
  ⟨_, rfl⟩

/-- The rules above as they are saved. -/
theorem decisions_survive_iff_denyShell : ∃ d',
    policySaveFile (fun _ => []) (changed (startUp {} [47]) denyShell) {} [47] = some d' ∧
      (SameDecisions (startUp d' [47]) (changed (startUp {} [47]) denyShell) ↔
        ((changed (startUp {} [47]) denyShell).rules = [] ∨
          ∃ r ∈ (changed (startUp {} [47]) denyShell).rules, r.tool = wildcard)) := by
  obtain ⟨d', saved⟩ := saved_denyShell
  exact ⟨d', saved, (decisions_survive_iff (fun _ => []) {} [47] denyShell rfl saved).1⟩

/-- Every other tool was asked about, and is allowed after the restart. -/
theorem asked_then_allowed : ∃ d',
    policySaveFile (fun _ => []) (changed (startUp {} [47]) denyShell) {} [47] = some d' ∧
      ¬ SameDecisions (startUp d' [47]) (changed (startUp {} [47]) denyShell) := by
  obtain ⟨d', saved⟩ := saved_denyShell
  refine ⟨d', saved, fun same => ?_⟩
  have decided := same none (ascii "git") []
  rw [check_restarted (clean_changed (clean_startUp {} [47]) denyShell) rfl saved, policyCheck_eq, rules_denyShell]
    at decided
  exact absurd decided (by decide)

end CognitiveOs.Runtime.Policy
