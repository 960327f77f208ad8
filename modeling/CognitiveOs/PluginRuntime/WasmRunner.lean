import CognitiveOs.Infra.Double
import CognitiveOs.Infra.Rereads

/-!
# Calls of plugin functions

`wasm3_run` of `plugin_runtime/wasm_runner.c` over any engine: a module's functions do with the
memory what they like, and return what they like.
-/

namespace CognitiveOs.PluginRuntime

open Infra

def maxArgs : Nat := 16

def maxText : Nat := 1024 * 1024

/-! ### The engine -/

/-- `M3ValueType` -/
inductive ValueType where
  | none
  | i32
  | i64
  | f32
  | f64
  deriving DecidableEq

structure FuncType where
  args : List ValueType
  rets : List ValueType
  deriving DecidableEq

/-- What `m3_GetResults` puts into the union. -/
structure Outcome where
  i32 : Int32
  i64 : UInt64
  /-- A number of either width, `none` when it is not finite. -/
  float : Option Rat

structure Guest (σ : Type*) where
  inner : σ
  memory : Option Text

/-- A loaded module. A call of a function ends with a state, and an error or what the function returns. -/
structure Engine (σ : Type*) where
  start : Guest σ
  /-- `m3_ParseModule`, `m3_LoadModule` and `m3_FindFunction` of the function that is called. -/
  function : Except Text FuncType
  call : Guest σ → List Text → Guest σ × Except Text Outcome
  /-- `coa_alloc`, if the module exports it. -/
  alloc : Option FuncType
  callAlloc : Guest σ → Text → Guest σ × Except Text UInt32

/-- The size `m3_GetMemory` reports. -/
def sizeOf (m : Text) : Nat :=
  m.length % 2 ^ 32

/-- `memcpy` into the guest's memory. -/
def overwrite (m : Text) (ptr : Nat) (bytes : Text) : Text :=
  m.take ptr ++ bytes ++ m.drop (ptr + bytes.length)

/-- What the host did to the guest's memory, which had `size` bytes then. -/
inductive Access where
  | write (ptr : Nat) (bytes : Text) (size : Nat)
  | read (ptr length size : Nat)
  deriving DecidableEq

/-! ### Arguments -/

def fltMax : Rat :=
  (2 ^ 24 - 1) * 2 ^ 104

/-- `marshal_number`; `number` is `%.17g`. -/
def marshalNumber (number : Rat → Text) (type : ValueType) (literal : Rat) : Except Text Text :=
  match nearest literal with
  | none => .error (ascii "non-finite numeric argument")
  | some value =>
    if type = .i32 ∨ type = .i64 then
      let limit : Rat := if type = .i32 then 2147483647 else 9007199254740991
      let minimum : Rat := if type = .i32 then -2147483648 else -limit
      if value < minimum ∨ limit < value ∨ (Cjson.castInt value : Rat) ≠ value then
        .error (ascii "integer argument is fractional or outside the exact JSON range")
      else .ok (printInteger (Cjson.castInt value))
    else if type = .f32 ∨ type = .f64 then
      if type = .f32 ∧ (value < -fltMax ∨ fltMax < value) then .error (ascii "f32 argument out of range")
      else .ok (number value)
    else .error (ascii "unsupported argument type")

/-- How far an attempt came: the guest, what was done to its memory, and an error or a value. -/
structure Attempt (σ : Type*) (α : Type) where
  guest : Guest σ
  accesses : List Access
  result : Except Text α

def marshalText {σ : Type*} (e : Engine σ) (g : Guest σ) (text : Text) : Attempt σ (UInt32 × Nat) :=
  let fail (g : Guest σ) (message : Text) : Attempt σ (UInt32 × Nat) := ⟨g, [], .error message⟩
  if maxText < text.length ∨ ¬strUtf8Valid text then fail g (ascii "text argument exceeds 1 MiB or is not UTF-8")
  else
    match e.alloc with
    | none => fail g (ascii "text arguments require exported coa_alloc(i32)->i32")
    | some type =>
      if type ≠ ⟨[.i32], [.i32]⟩ then fail g (ascii "invalid coa_alloc signature")
      else
        match e.callAlloc g (decimal (text.length + 1)) with
        | (g, .error message) => fail g message
        | (g, .ok ptr) =>
          match g.memory with
          | none => fail g (ascii "coa_alloc returned an invalid memory range")
          | some m =>
            if ptr = 0 ∨ sizeOf m < ptr.toNat ∨ sizeOf m - ptr.toNat < text.length + 1 then
              fail g (ascii "coa_alloc returned an invalid memory range")
            else
              { guest := { g with memory := some (overwrite m ptr.toNat (text ++ [0])) }
                accesses := [.write ptr.toNat (text ++ [0]) m.length]
                result := .ok (ptr, text.length) }

/-- How far the loop over the arguments came: `argc` entries of `argv`, and their texts if there is no error. -/
structure Filling (σ : Type*) where
  guest : Guest σ
  accesses : List Access
  argc : Nat
  argv : List Text
  error : Option Text

def fill {σ : Type*} (number : Rat → Text) (e : Engine σ) : Guest σ → List ValueType → List Json → Filling σ
  | g, [], [] => ⟨g, [], 0, [], none⟩
  | g, _ :: _, [] => ⟨g, [], 0, [], some (ascii "argument count mismatch")⟩
  | g, types, .number value :: args =>
    match types with
    | [] => ⟨g, [], 0, [], some (ascii "too many arguments")⟩
    | type :: types =>
      match marshalNumber number type value with
      | .error message => ⟨g, [], 1, [], some message⟩
      | .ok text =>
        let later := fill number e g types args
        { later with argc := later.argc + 1, argv := text :: later.argv }
  | g, types, .string s :: args =>
    match types with
    | .i32 :: .i32 :: types =>
      let copied := marshalText e g s
      match copied.result with
      | .error message => ⟨copied.guest, copied.accesses, 0, [], some message⟩
      | .ok (ptr, length) =>
        let later := fill number e copied.guest types args
        { later with
          accesses := copied.accesses ++ later.accesses
          argc := later.argc + 2
          argv := decimal ptr.toNat :: decimal length :: later.argv }
    | _ => ⟨g, [], 0, [], some (ascii "text arguments require an i32 pointer/length pair")⟩
  | g, _, _ :: _ => ⟨g, [], 0, [], some (ascii "arguments must be numbers or UTF-8 strings")⟩

/-! ### The result -/

inductive Value where
  | null
  | integer (value : Int)
  | float (value : Rat)
  | text (s : Text)
  deriving DecidableEq

def packedPtr (packed : UInt64) : Nat :=
  packed.toNat % 2 ^ 32

def packedLength (packed : UInt64) : Nat :=
  packed.toNat / 2 ^ 32

def textResult {σ : Type*} (g : Guest σ) (packed : UInt64) : Attempt σ Value :=
  let ptr := packedPtr packed
  let len := packedLength packed
  match g.memory with
  | none => ⟨g, [], .error (ascii "text result outside guest memory or exceeds 1 MiB")⟩
  | some m =>
    if maxText < len ∨ sizeOf m < ptr ∨ sizeOf m - ptr < len then
      ⟨g, [], .error (ascii "text result outside guest memory or exceeds 1 MiB")⟩
    else
      let bytes := (m.drop ptr).take len
      let read := Access.read ptr len m.length
      if 0 ∈ bytes ∨ ¬strUtf8Valid bytes then
        ⟨g, [read], .error (ascii "text result must be UTF-8 without embedded NUL")⟩
      else ⟨g, [read], .ok (.text bytes)⟩

def numberResult (type : ValueType) (o : Outcome) : Except Text Value :=
  match type with
  | .i32 => .ok (.integer o.i32.toInt)
  | .i64 => .ok (.integer o.i64.toInt64.toInt)
  | .f32 | .f64 =>
    match o.float with
    | none => .error (ascii "non-finite numeric result")
    | some value => .ok (.float value)
  | .none => .error (ascii "unsupported result type")

/-! ### A call -/

def readArgs (argsJson : Option Text) : Except Text (List Json × Bool) :=
  let text := argsJson.getD (ascii "[]")
  match Cjson.parseWhole text with
  | some (.array args) => .ok (args, false)
  | some (.object members) =>
    match (Json.object members).get? (ascii "args") with
    | some envelope =>
      match envelope, (Json.object members).get? (ascii "result") with
      | .array args, none => .ok (args, false)
      | .array args, some (.string format) =>
        if format = ascii "utf8" then .ok (args, true)
        else .error (ascii "expected \x7bargs:[...],result:\"utf8\"\x7d or \x7bargs:[...]\x7d")
      | _, _ => .error (ascii "expected \x7bargs:[...],result:\"utf8\"\x7d or \x7bargs:[...]\x7d")
    | none => .ok (members.map Prod.snd, false)
  | _ => .error (ascii "arguments must be a JSON array or object")

def escapedNul : Text → Bool
  | 92 :: c :: rest => (ascii "u0000").isPrefixOf (c :: rest) || escapedNul rest
  | _ :: rest => escapedNul rest
  | [] => false

/-- A call: what was filled in and done to the guest's memory, the texts the function was called with and what it
returned, and the reply. -/
structure Run (σ : Type*) where
  guest : Guest σ
  accesses : List Access
  argc : Nat
  called : Option (List Text × Outcome)
  reply : Except Text Value

def finish {σ : Type*} (e : Engine σ) (rets : List ValueType) (expectsText : Bool) (f : Filling σ) : Run σ :=
  match f.error with
  | some message => ⟨f.guest, f.accesses, f.argc, none, .error message⟩
  | none =>
    match e.call f.guest f.argv with
    | (g, .error message) => ⟨g, f.accesses, f.argc, none, .error message⟩
    | (g, .ok outcome) =>
      match rets with
      | [] => ⟨g, f.accesses, f.argc, some (f.argv, outcome), .ok .null⟩
      | ret :: _ =>
        if expectsText then
          let result := textResult g outcome.i64
          ⟨g, f.accesses ++ result.accesses, f.argc, some (f.argv, outcome), result.result⟩
        else ⟨g, f.accesses, f.argc, some (f.argv, outcome), numberResult ret outcome⟩

/-- `wasm3_run` of a module that can be read. -/
def wasm3Run {σ : Type*} (number : Rat → Text) (e : Engine σ) (argsJson : Option Text) : Run σ :=
  let fail (message : Text) : Run σ := ⟨e.start, [], 0, none, .error message⟩
  if (argsJson.map cstr).any escapedNul then fail (ascii "embedded NUL is unsupported in text arguments")
  else
    match readArgs argsJson with
    | .error message => fail message
    | .ok (args, expectsText) =>
      match e.function with
      | .error message => fail message
      | .ok type =>
        if maxArgs < type.args.length then fail (ascii "too many function arguments (max 16)")
        else if 1 < type.rets.length ∨ expectsText ∧ type.rets ≠ [.i64] then
          fail (ascii "unsupported return signature; utf8 requires one packed i64")
        else finish e type.rets expectsText (fill number e e.start type.args args)

/-! ### Arguments that are passed -/

def Access.Inside : Access → Prop
  | .write ptr bytes size => ptr + bytes.length ≤ size
  | .read ptr length size => ptr + length ≤ size

/-- The texts of `argv` that stand for the arguments, and what is written for them: an integer parameter gets the
integer, a float parameter the nearest double, and two parameters are where a text was copied to and its length. -/
inductive Passed (number : Rat → Text) : List Json → List ValueType → List Text → List Access → Prop where
  | nil : Passed number [] [] [] []
  | integer {args types argv writes} {type : ValueType} {literal : Rat} {k : Int} : type = .i32 ∨ type = .i64 →
      nearest literal = some (k : Rat) → (∀ n : Int, literal = n → k = n) → Passed number args types argv writes →
      Passed number (.number literal :: args) (type :: types) (printInteger k :: argv) writes
  | float {args types argv writes} {type : ValueType} {literal value : Rat} : type = .f32 ∨ type = .f64 →
      nearest literal = some value → Passed number args types argv writes →
      Passed number (.number literal :: args) (type :: types) (number value :: argv) writes
  | text {args types argv writes} {s : Text} {ptr size : Nat} : strUtf8Valid s = true →
      Passed number args types argv writes →
      Passed number (.string s :: args) (.i32 :: .i32 :: types) (decimal ptr :: decimal s.length :: argv)
        (.write ptr (s ++ [0]) size :: writes)

theorem Passed.length {number : Rat → Text} {args : List Json} {types : List ValueType} {argv : List Text}
    {writes : List Access} (passed : Passed number args types argv writes) : argv.length = types.length := by
  induction passed with
  | nil => rfl
  | integer _ _ _ _ ih => rw [List.length_cons, List.length_cons, ih]
  | float _ _ _ ih => rw [List.length_cons, List.length_cons, ih]
  | text _ _ ih =>
    simp only [List.length_cons, ih]

section

variable {number : Rat → Text} {type : ValueType} {literal : Rat} {text : Text}

theorem castInt_exact {low high value : Rat} (rounded : nearest literal = some value)
    (accepted : ¬(value < low ∨ high < value ∨ (Cjson.castInt value : Rat) ≠ value)) (above : -9007199254740991 ≤ low)
    (below : high ≤ 9007199254740991) :
    nearest literal = some (Cjson.castInt value : Rat) ∧ ∀ n : Int, literal = n → Cjson.castInt value = n := by
  rw [not_or, not_or, not_lt, not_lt, not_not] at accepted
  obtain ⟨least, most, whole⟩ := accepted
  rw [← whole] at rounded
  refine ⟨rounded, fun n same => ?_⟩
  have lower := above.trans least
  have upper := most.trans below
  rw [← whole] at lower upper
  have less : Cjson.castInt value ≤ 9007199254740991 := by exact_mod_cast upper
  have more : -9007199254740991 ≤ Cjson.castInt value := by exact_mod_cast lower
  rw [same] at rounded
  refine (nearest_eq_int rounded ?_).symm
  rw [abs_lt]
  omega

theorem marshalNumber_integer (isInteger : type = .i32 ∨ type = .i64)
    (marshalled : marshalNumber number type literal = .ok text) :
    ∃ k : Int, text = printInteger k ∧ nearest literal = some (k : Rat) ∧ ∀ n : Int, literal = n → k = n := by
  unfold marshalNumber at marshalled
  split at marshalled
  · cases marshalled
  · rename_i value rounded
    rw [if_pos isInteger] at marshalled
    simp only at marshalled
    rcases isInteger with rfl | rfl
    · rw [if_pos rfl, if_pos rfl] at marshalled
      split at marshalled
      · cases marshalled
      · rename_i accepted
        cases marshalled
        exact ⟨_, rfl, castInt_exact rounded accepted (by norm_num) (by norm_num)⟩
    · rw [if_neg (show ¬ValueType.i64 = .i32 by decide), if_neg (show ¬ValueType.i64 = .i32 by decide)] at marshalled
      split at marshalled
      · cases marshalled
      · rename_i accepted
        cases marshalled
        exact ⟨_, rfl, castInt_exact rounded accepted (le_refl _) (le_refl _)⟩

theorem marshalNumber_float (isInteger : ¬(type = .i32 ∨ type = .i64))
    (marshalled : marshalNumber number type literal = .ok text) :
    (type = .f32 ∨ type = .f64) ∧ ∃ value, nearest literal = some value ∧ text = number value := by
  unfold marshalNumber at marshalled
  split at marshalled
  · cases marshalled
  · rename_i value rounded
    rw [if_neg isInteger] at marshalled
    split at marshalled
    · rename_i isFloat
      split at marshalled
      · cases marshalled
      · cases marshalled
        exact ⟨isFloat, value, rounded, rfl⟩
    · cases marshalled

end

theorem sizeOf_le (m : Text) : sizeOf m ≤ m.length :=
  Nat.mod_le _ _

theorem marshalText_spec {σ : Type*} (e : Engine σ) (g : Guest σ) (s : Text) :
    (∃ message, (marshalText e g s).accesses = [] ∧ (marshalText e g s).result = .error message) ∨
      ∃ ptr size, (marshalText e g s).accesses = [.write ptr.toNat (s ++ [0]) size] ∧
        (marshalText e g s).result = .ok (ptr, s.length) ∧ strUtf8Valid s = true ∧
        ptr.toNat + (s.length + 1) ≤ size := by
  unfold marshalText
  simp only
  split
  · exact .inl ⟨_, rfl, rfl⟩
  · rename_i accepted
    split
    · exact .inl ⟨_, rfl, rfl⟩
    · split
      · exact .inl ⟨_, rfl, rfl⟩
      · split
        · exact .inl ⟨_, rfl, rfl⟩
        · rename_i g' ptr _
          split
          · exact .inl ⟨_, rfl, rfl⟩
          · rename_i m _
            split
            · exact .inl ⟨_, rfl, rfl⟩
            · rename_i range
              rw [not_or, not_or] at range
              have own := sizeOf_le m
              refine .inr ⟨ptr, m.length, rfl, rfl, ?_, by omega⟩
              simpa using (not_or.mp accepted).2

/-- What the loop does: every write is inside, no more parameters are filled than there are, and without an error
every argument is passed. -/
theorem fill_spec {σ : Type*} (number : Rat → Text) (e : Engine σ) (g : Guest σ) (types : List ValueType)
    (args : List Json) :
    (∀ a ∈ (fill number e g types args).accesses, a.Inside) ∧ (fill number e g types args).argc ≤ types.length ∧
      ((fill number e g types args).error = none →
        Passed number args types (fill number e g types args).argv (fill number e g types args).accesses) := by
  fun_induction fill number e g types args with
  | case1 g => exact ⟨by simp, by simp, fun _ => .nil⟩
  | case2 g type types => exact ⟨by simp, by simp, fun none => by cases none⟩
  | case3 g value args => exact ⟨by simp, by simp, fun none => by cases none⟩
  | case4 => exact ⟨by simp, by simp, fun none => by cases none⟩
  | case5 g literal args type types text marshalled later ih =>
    refine ⟨ih.1, Nat.succ_le_succ ih.2.1, fun none => ?_⟩
    have passed := ih.2.2 none
    by_cases isInteger : type = .i32 ∨ type = .i64
    · obtain ⟨k, rfl, rounded, exact⟩ := marshalNumber_integer isInteger marshalled
      exact .integer isInteger rounded exact passed
    · obtain ⟨isFloat, value, rounded, rfl⟩ := marshalNumber_float isInteger marshalled
      exact .float isFloat rounded passed
  | case6 g s args types copied message failed =>
    rcases marshalText_spec e g s with ⟨_, nothing, _⟩ | ⟨ptr, size, _, copied, _⟩
    · refine ⟨?_, by simp, fun none => by cases none⟩
      rw [nothing]
      simp
    · rw [copied] at failed
      cases failed
  | case7 g s args types copied ptr length done later ih =>
    rcases marshalText_spec e g s with ⟨_, _, failed⟩ | ⟨ptr', size, written, copied', valid, inside⟩
    · rw [failed] at done
      cases done
    · rw [copied'] at done
      cases done
      refine ⟨?_, Nat.add_le_add_right ih.2.1 2, fun none => ?_⟩
      · rw [written]
        intro a member
        rcases List.mem_cons.mp member with rfl | member
        · simpa [Access.Inside] using inside
        · exact ih.1 a member
      · rw [written]
        exact .text valid (ih.2.2 none)
  | case8 => exact ⟨by simp, by simp, fun none => by cases none⟩
  | case9 => exact ⟨by simp, by simp, fun none => by cases none⟩

/-! ### Results and calls -/

theorem textResult_spec {σ : Type*} (g : Guest σ) (packed : UInt64) :
    (∀ a ∈ (textResult g packed).accesses, a.Inside) ∧
      ∀ t, (textResult g packed).result = .ok (.text t) → ∃ m, g.memory = some m ∧
        packedPtr packed + packedLength packed ≤ m.length ∧ t = (m.drop (packedPtr packed)).take (packedLength packed) ∧
        0 ∉ t ∧ strUtf8Valid t = true := by
  unfold textResult
  simp only
  split
  · exact ⟨by simp, fun t done => by cases done⟩
  · rename_i m memory
    split
    · exact ⟨by simp, fun t done => by cases done⟩
    · rename_i range
      rw [not_or, not_or] at range
      have own := sizeOf_le m
      have inside : packedPtr packed + packedLength packed ≤ m.length := by omega
      split
      · exact ⟨by simpa [Access.Inside] using inside, fun t done => by cases done⟩
      · rename_i accepted
        rw [not_or, not_not] at accepted
        refine ⟨by simpa [Access.Inside] using inside, fun t done => ?_⟩
        cases done
        exact ⟨m, memory, inside, rfl, accepted⟩

theorem numberResult_ne_text (type : ValueType) (o : Outcome) (t : Text) : numberResult type o ≠ .ok (.text t) := by
  unfold numberResult
  intro same
  split at same
  · cases same
  · cases same
  · split at same <;> cases same
  · split at same <;> cases same
  · cases same

structure Confined {σ : Type*} (number : Rat → Text) (e : Engine σ) (argsJson : Option Text) (run : Run σ) : Prop where
  inside : ∀ a ∈ run.accesses, a.Inside
  filled : ∀ type, e.function = .ok type → run.argc ≤ type.args.length
  bounded : run.argc ≤ maxArgs
  passed : ∀ argv outcome, run.called = some (argv, outcome) → ∃ args expectsText type writes,
    readArgs argsJson = .ok (args, expectsText) ∧ e.function = .ok type ∧ argv.length = type.args.length ∧
      Passed number args type.args argv writes ∧ writes <+: run.accesses
  text : ∀ t, run.reply = .ok (.text t) → ∃ argv outcome m, run.called = some (argv, outcome) ∧
    run.guest.memory = some m ∧ packedPtr outcome.i64 + packedLength outcome.i64 ≤ m.length ∧
      t = (m.drop (packedPtr outcome.i64)).take (packedLength outcome.i64) ∧ 0 ∉ t ∧ strUtf8Valid t = true

section

variable {σ : Type*} (number : Rat → Text) (e : Engine σ) (argsJson : Option Text)

theorem Confined.fail (message : Text) : Confined number e argsJson ⟨e.start, [], 0, none, .error message⟩ where
  inside := by simp
  filled _ _ := Nat.zero_le _
  bounded := Nat.zero_le _
  passed _ _ called := by cases called
  text _ replied := by cases replied

theorem Confined.finish {args : List Json} {expectsText : Bool} {type : FuncType}
    (read : readArgs argsJson = .ok (args, expectsText)) (function : e.function = .ok type)
    (few : type.args.length ≤ maxArgs) :
    Confined number e argsJson (finish e type.rets expectsText (fill number e e.start type.args args)) := by
  obtain ⟨inside, count, passed⟩ := fill_spec number e e.start type.args args
  have filled (type' : FuncType) (same : e.function = .ok type') :
      (fill number e e.start type.args args).argc ≤ type'.args.length := by
    rw [function] at same
    cases same
    exact count
  have bounded := count.trans few
  have given (none : (fill number e e.start type.args args).error = none) {accesses : List Access}
      (later : (fill number e e.start type.args args).accesses <+: accesses) : ∃ args' expectsText type' writes,
        readArgs argsJson = .ok (args', expectsText) ∧ e.function = .ok type' ∧
          (fill number e e.start type.args args).argv.length = type'.args.length ∧
          Passed number args' type'.args (fill number e e.start type.args args).argv writes ∧ writes <+: accesses :=
    ⟨args, expectsText, type, _, read, function, (passed none).length, passed none, later⟩
  unfold PluginRuntime.finish
  split
  · exact ⟨inside, filled, bounded, fun _ _ called => (nomatch called), fun _ replied => (nomatch replied)⟩
  · rename_i none
    split
    · exact ⟨inside, filled, bounded, fun _ _ called => (nomatch called), fun _ replied => (nomatch replied)⟩
    · rename_i g outcome _
      split
      · refine ⟨inside, filled, bounded, fun _ _ called => ?_, fun _ replied => nomatch replied⟩
        cases called
        exact given none (List.prefix_refl _)
      · split
        · obtain ⟨read, result⟩ := textResult_spec g outcome.i64
          refine ⟨?_, filled, bounded, fun _ _ called => ?_, fun t replied => ?_⟩
          · intro a member
            exact (List.mem_append.mp member).elim (inside a) (read a)
          · cases called
            exact given none (List.prefix_append _ _)
          · obtain ⟨m, memory, rest⟩ := result t replied
            exact ⟨_, outcome, m, rfl, memory, rest⟩
        · refine ⟨inside, filled, bounded, fun _ _ called => ?_, fun t replied => ?_⟩
          · cases called
            exact given none (List.prefix_refl _)
          · exact absurd replied (numberResult_ne_text _ _ t)

/-- A call is confined to the guest's memory, passes what it was given, and replies a text only from the range that
the guest named. -/
theorem wasm_call_confined : Confined number e argsJson (wasm3Run number e argsJson) := by
  unfold wasm3Run
  simp only
  split
  · exact .fail number e argsJson _
  · split
    · exact .fail number e argsJson _
    · rename_i args expectsText read
      split
      · exact .fail number e argsJson _
      · rename_i type function
        split
        · exact .fail number e argsJson _
        · rename_i few
          split
          · exact .fail number e argsJson _
          · exact .finish number e argsJson read function (not_lt.mp few)

end

/-! ### A float parameter -/

def oneParameter (type : ValueType) : Engine Unit where
  start := ⟨(), none⟩
  function := .ok ⟨[type], []⟩
  call g _ := (g, .ok ⟨0, 0, none⟩)
  alloc := none
  callAlloc g _ := (g, .error [])

/-- A float parameter gets another integer than the one that was given. -/
theorem wasm_call_rounds : ¬ ∀ (type : ValueType) (n : Nat) (argv : List Text) (outcome : Outcome),
    (wasm3Run Cjson.integerText (oneParameter type) (some (ascii "[" ++ decimal n ++ ascii "]"))).called =
      some (argv, outcome) → argv = [decimal n] := by
  intro always
  have called : ((wasm3Run Cjson.integerText (oneParameter .f64)
      (some (ascii "[" ++ decimal 9007199254740993 ++ ascii "]"))).called.map Prod.fst) =
        some [ascii "9007199254740992"] := by
    decide +kernel
  obtain ⟨⟨argv, outcome⟩, isCalled, same⟩ := Option.map_eq_some_iff.mp called
  have unchanged := always .f64 9007199254740993 argv outcome isCalled
  rw [show argv = _ from same] at unchanged
  revert unchanged
  decide +kernel

end CognitiveOs.PluginRuntime
