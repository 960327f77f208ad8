import Mathlib.Data.List.TakeWhile

/-!
# Texts, paths and hashes

`infra/util.c`: strings are byte lists without the terminator, and a function that
writes into a buffer of `n` bytes keeps the first `n - 1`.
-/

namespace CognitiveOs.Infra

abbrev Text := List UInt8

instance lawful : LawfulBEq Text := inferInstance

def ascii (s : String) : Text :=
  s.toList.map fun c => c.toNat.toUInt8

def cstr (bytes : Text) : Text :=
  bytes.takeWhile (· ≠ 0)

/-- `snprintf(out, n, "%s", s)`. -/
def snprintf (n : Nat) (s : Text) : Text :=
  s.take (n - 1)

def slash : UInt8 := 47

def backslash : UInt8 := 92

def pathJoin (n : Nat) (a b : Text) : Text :=
  snprintf n <|
    match a.getLast? with
    | none => b
    | some last => if last = slash ∨ last = backslash then a ++ b else a ++ slash :: b

def pathResolve (n : Nat) (workspace path : Text) : Text :=
  match path with
  | [] => snprintf n workspace
  | first :: _ =>
    if first = slash ∨ first = backslash then snprintf n path
    else if workspace ≠ [] then pathJoin n workspace path
    else snprintf n path

def hash64 (data : Text) : UInt64 :=
  data.foldl (fun h byte => (h ^^^ byte.toUInt64) * 0x100000001b3) 0xcbf29ce484222325

def hexDigit (n : UInt64) : UInt8 :=
  if n < 10 then 48 + n.toUInt8 else 87 + n.toUInt8

/-- The sixteen digits of `h`, the highest first. -/
def hashHex (h : UInt64) : Text :=
  (List.range 16).map fun i => hexDigit ((h >>> (60 - 4 * i).toUInt64) &&& 0xF)

@[simp] theorem length_hashHex (h : UInt64) : (hashHex h).length = 16 := by
  simp [hashHex]

@[simp] theorem hashHex_ne_nil (h : UInt64) : hashHex h ≠ [] := by
  intro empty
  have length := length_hashHex h
  simp [empty] at length

theorem cstr_eq_self {bytes : Text} (clean : (0 : UInt8) ∉ bytes) : cstr bytes = bytes := by
  refine List.takeWhile_eq_self_iff.mpr fun byte member => ?_
  have nonzero : byte ≠ 0 := fun zero => clean (zero ▸ member)
  simpa using nonzero

theorem not_mem_cstr (s : Text) : 0 ∉ cstr s := by
  intro member
  have := List.mem_takeWhile_imp member
  simp at this

theorem cstr_cstr (s : Text) : cstr (cstr s) = cstr s :=
  cstr_eq_self (not_mem_cstr s)

theorem cstr_append (p q : Text) : ∃ t, cstr (p ++ q) = cstr p ++ t ∧ (0 ∈ p → t = []) := by
  by_cases zero : 0 ∈ p
  · refine ⟨[], ?_, fun _ => rfl⟩
    rw [List.append_nil]
    induction p with
    | nil => cases zero
    | cons b p ih =>
      unfold cstr at ih ⊢
      rw [List.cons_append, List.takeWhile_cons, List.takeWhile_cons]
      split
      · rename_i other
        have there : 0 ∈ p := by
          rcases List.mem_cons.mp zero with here | there
          · rw [← here] at other
            cases other
          · exact there
        rw [ih there]
      · rfl
  · refine ⟨cstr q, ?_, fun inside => absurd inside zero⟩
    rw [cstr_eq_self zero]
    unfold cstr
    apply List.takeWhile_append_of_pos
    intro b member
    exact decide_eq_true fun same => zero (same ▸ member)

end CognitiveOs.Infra
