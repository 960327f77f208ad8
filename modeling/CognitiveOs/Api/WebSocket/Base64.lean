import CognitiveOs.Infra.Text
import Mathlib.Algebra.Group.Nat.Defs

/-!
# Base64

The encoder and the decoder of `api/websocket.c`. A group of three bytes is four characters, and the
decoder collects the bits of the characters until they make a byte.
-/

namespace CognitiveOs.Api.WebSocket

open Infra

def b64Tab : Text :=
  ascii "ABCDEFGHIJKLMNOPQRSTUVWXYZabcdefghijklmnopqrstuvwxyz0123456789+/"

/-- `b64_tab[v & 63]`. -/
def b64Char (v : UInt32) : UInt8 :=
  b64Tab.getD (v &&& 63).toNat 0

def base64Encode : Text → Text
  | a :: b :: c :: rest =>
    let v := (a.toUInt32 <<< 16) ||| (b.toUInt32 <<< 8) ||| c.toUInt32
    b64Char (v >>> 18) :: b64Char (v >>> 12) :: b64Char (v >>> 6) :: b64Char v :: base64Encode rest
  | [a, b] =>
    let v := (a.toUInt32 <<< 16) ||| (b.toUInt32 <<< 8)
    [b64Char (v >>> 18), b64Char (v >>> 12), b64Char (v >>> 6), 61]
  | [a] =>
    let v := a.toUInt32 <<< 16
    [b64Char (v >>> 18), b64Char (v >>> 12), 61, 61]
  | [] => []

/-- `b64_val`; `none` is its -1. -/
def b64Val (c : UInt8) : Option UInt32 :=
  if 65 ≤ c ∧ c ≤ 90 then some (c - 65).toUInt32
  else if 97 ≤ c ∧ c ≤ 122 then some (c - 97 + 26).toUInt32
  else if 48 ≤ c ∧ c ≤ 57 then some (c - 48 + 52).toUInt32
  else if c = 43 then some 62
  else if c = 47 then some 63
  else none

/-- `out[olen++] = b` in an array of `cap` bytes, of which `out` are written; `none` is a write behind it. -/
def writeByte (cap : Nat) (out : Text) (b : UInt8) : Option Text :=
  if out.length < cap then some (out ++ [b]) else none

/-- The loop of `base64_decode`. A write behind the array is `none`, and the answer -1 is `some none`. -/
def decodeLoop (cap : Nat) : Text → (acc : UInt32) → (bits : Nat) → (out : Text) → Option (Option Text)
  | [], _, _, out => some (some out)
  | c :: rest, acc, bits, out =>
    if c = 61 ∨ c = 10 ∨ c = 13 then decodeLoop cap rest acc bits out
    else
      match b64Val c with
      | none => some none
      | some v =>
        let acc := (acc <<< 6) ||| v
        let bits := bits + 6
        if 8 ≤ bits then
          let bits := bits - 8
          let b := ((acc >>> bits.toUInt32) &&& 0xFF).toUInt8
          if cap ≤ out.length then some none
          else (writeByte cap out b).bind fun out => decodeLoop cap rest acc bits out
        else decodeLoop cap rest acc bits out

/-- `base64_decode` of a string; `out_len` is the length of what is written. -/
def base64Decode (cap : Nat) (input : Text) : Option (Option Text) :=
  decodeLoop cap (cstr input) 0 0 []

/-! ### Characters and their values -/

theorem b64Val_char (v : UInt32) :
    b64Val (b64Char v) = some (v &&& 63) ∧ b64Char v ≠ 61 ∧ b64Char v ≠ 10 ∧ b64Char v ≠ 13 ∧ b64Char v ≠ 0 := by
  have all : ∀ n < 64, b64Val (b64Tab.getD n 0) = some (UInt32.ofNat n) ∧ b64Tab.getD n 0 ≠ 61 ∧ b64Tab.getD n 0 ≠ 10 ∧
      b64Tab.getD n 0 ≠ 13 ∧ b64Tab.getD n 0 ≠ 0 := by
    decide +kernel
  have small : (v &&& 63).toNat < 64 := by
    rw [UInt32.toNat_and]
    exact Nat.lt_succ_of_le Nat.and_le_right
  have this := all (v &&& 63).toNat small
  rwa [UInt32.ofNat_toNat] at this

theorem toNat_and_63 (v : UInt32) : (v &&& 63).toNat = v.toNat % 64 := by
  rw [UInt32.toNat_and]
  exact Nat.and_two_pow_sub_one_eq_mod v.toNat 6

theorem toNat_shiftRight {v : UInt32} {k : UInt32} (small : k.toNat < 32) :
    (v >>> k).toNat = v.toNat / 2 ^ k.toNat := by
  rw [UInt32.toNat_shiftRight, Nat.mod_eq_of_lt small, Nat.shiftRight_eq_div_pow]

theorem toNat_shiftLeft_or {a v k : UInt32} (small : k.toNat < 32) (below : v.toNat < 2 ^ k.toNat) :
    ((a <<< k) ||| v).toNat = a.toNat * 2 ^ k.toNat % 2 ^ 32 + v.toNat := by
  rw [UInt32.toNat_or, UInt32.toNat_shiftLeft, Nat.mod_eq_of_lt small, Nat.shiftLeft_eq]
  have divides : 2 ^ k.toNat ∣ a.toNat * 2 ^ k.toNat % 2 ^ 32 := by
    rw [Nat.dvd_mod_iff (Nat.pow_dvd_pow 2 (Nat.le_of_lt small))]
    exact Nat.dvd_mul_left _ _
  obtain ⟨high, same⟩ := divides
  rw [same, Nat.two_pow_add_eq_or_of_lt below]

/-! ### One character -/

def collect (acc v : UInt32) : UInt32 :=
  (acc <<< 6) ||| (v &&& 63)

theorem toNat_collect (acc v : UInt32) : (collect acc v).toNat = acc.toNat * 64 % 2 ^ 32 + v.toNat % 64 := by
  have below : (v &&& 63).toNat < 2 ^ (6 : UInt32).toNat := by
    rw [toNat_and_63]
    exact Nat.mod_lt _ (by decide)
  have this := @toNat_shiftLeft_or acc (v &&& 63) 6 (by decide) below
  rwa [toNat_and_63] at this

variable {cap : Nat} {rest out : Text}

theorem decodeLoop_first (acc v : UInt32) :
    decodeLoop cap (b64Char v :: rest) acc 0 out = decodeLoop cap rest (collect acc v) 6 out := by
  obtain ⟨value, padding, newline, back, -⟩ := b64Val_char v
  rw [decodeLoop, if_neg (by simp [padding, newline, back]), value]
  exact if_neg (by decide)

theorem decodeLoop_next (acc v : UInt32) {bits : Nat} (enough : bits < 6) :
    decodeLoop cap (b64Char v :: rest) acc (bits + 2) out =
      if cap ≤ out.length then some none
      else decodeLoop cap rest (collect acc v) bits
        (out ++ [UInt8.ofNat ((collect acc v).toNat / 2 ^ bits % 256)]) := by
  obtain ⟨value, padding, newline, back, -⟩ := b64Val_char v
  have byte : (((collect acc v) >>> bits.toUInt32) &&& 0xFF).toUInt8 =
      UInt8.ofNat ((collect acc v).toNat / 2 ^ bits % 256) := by
    have shift : bits.toUInt32.toNat = bits := by
      show bits % 2 ^ 32 = bits
      omega
    apply UInt8.toNat_inj.mp
    rw [UInt32.toNat_toUInt8, UInt32.toNat_and, toNat_shiftRight (by omega), shift, UInt8.toNat_ofNat']
    have mask := Nat.and_two_pow_sub_one_eq_mod ((collect acc v).toNat / 2 ^ bits) 8
    exact congrArg (· % 2 ^ 8) mask
  rw [decodeLoop, if_neg (by simp [padding, newline, back]), value]
  simp only [show 8 ≤ bits + 2 + 6 by omega, if_true, show bits + 2 + 6 - 8 = bits by omega]
  change (if cap ≤ out.length then some none else
    (writeByte cap out ((collect acc v >>> bits.toUInt32) &&& 0xFF).toUInt8).bind fun out =>
      decodeLoop cap rest (collect acc v) bits out) = _
  rw [byte]
  split
  · rfl
  · rename_i room
    rw [writeByte, if_pos (Nat.not_le.mp room), Option.bind_some]

theorem decodeLoop_padding (acc : UInt32) (bits : Nat) :
    decodeLoop cap (61 :: rest) acc bits out = decodeLoop cap rest acc bits out := by
  rw [decodeLoop, if_pos (Or.inl rfl)]

/-! ### Groups -/

theorem toNat_shiftLeft_byte (a : UInt8) {k : UInt32} (small : k.toNat ≤ 16) :
    (a.toUInt32 <<< k).toNat = a.toNat * 2 ^ k.toNat := by
  have byte := a.toNat_lt
  have pow : 2 ^ k.toNat ≤ 2 ^ 16 := Nat.pow_le_pow_right (by decide) small
  rw [UInt32.toNat_shiftLeft, Nat.mod_eq_of_lt (show k.toNat < 32 by omega), Nat.shiftLeft_eq, UInt8.toNat_toUInt32]
  apply Nat.mod_eq_of_lt
  calc a.toNat * 2 ^ k.toNat ≤ 255 * 2 ^ 16 := Nat.mul_le_mul (by omega) pow
    _ < 2 ^ 32 := by decide

theorem toNat_two (a b : UInt8) :
    ((a.toUInt32 <<< 16) ||| (b.toUInt32 <<< 8)).toNat = a.toNat * 65536 + b.toNat * 256 := by
  have low := b.toNat_lt
  have below : (b.toUInt32 <<< 8).toNat = b.toNat * 256 := toNat_shiftLeft_byte b (by decide)
  have high : (a.toUInt32 <<< 16).toNat = a.toNat * 65536 := toNat_shiftLeft_byte a (by decide)
  have this := @toNat_shiftLeft_or a.toUInt32 (b.toUInt32 <<< 8) 16 (by decide) (by
    rw [below]
    show b.toNat * 256 < 65536
    omega)
  rw [this, below, UInt8.toNat_toUInt32]
  have byte := a.toNat_lt
  show a.toNat * 65536 % 2 ^ 32 + b.toNat * 256 = _
  omega

theorem toNat_three (a b c : UInt8) :
    ((a.toUInt32 <<< 16) ||| (b.toUInt32 <<< 8) ||| c.toUInt32).toNat = a.toNat * 65536 + b.toNat * 256 + c.toNat := by
  rw [UInt32.toNat_or, toNat_two, UInt8.toNat_toUInt32]
  have same : a.toNat * 65536 + b.toNat * 256 = 2 ^ 8 * (a.toNat * 256 + b.toNat) := by omega
  rw [same, Nat.two_pow_add_eq_or_of_lt c.toNat_lt]

theorem shifted (v : UInt32) : (v >>> 18).toNat = v.toNat / 262144 ∧ (v >>> 12).toNat = v.toNat / 4096 ∧
    (v >>> 6).toNat = v.toNat / 64 :=
  ⟨toNat_shiftRight (by decide), toNat_shiftRight (by decide), toNat_shiftRight (by decide)⟩

theorem byte_eq {n : Nat} {b : UInt8} (same : n = b.toNat) : UInt8.ofNat n = b := by
  rw [same, UInt8.ofNat_toNat]

theorem decodeLoop_one (acc v w : UInt32) :
    decodeLoop cap (b64Char v :: b64Char w :: rest) acc 0 out =
      if cap ≤ out.length then some none
      else decodeLoop cap rest (collect (collect acc v) w) 4
        (out ++ [UInt8.ofNat ((v.toNat % 64 * 64 + w.toNat % 64) / 16)]) := by
  have byte : (collect (collect acc v) w).toNat / 2 ^ 4 % 256 = (v.toNat % 64 * 64 + w.toNat % 64) / 16 := by
    rw [toNat_collect, toNat_collect]
    omega
  rw [decodeLoop_first, decodeLoop_next _ _ (by decide), byte]

theorem decodeLoop_two (acc v w : UInt32) :
    decodeLoop cap (b64Char w :: rest) (collect acc v) 4 out =
      if cap ≤ out.length then some none
      else decodeLoop cap rest (collect (collect acc v) w) 2
        (out ++ [UInt8.ofNat (v.toNat % 16 * 16 + w.toNat % 64 / 4)]) := by
  have byte : (collect (collect acc v) w).toNat / 2 ^ 2 % 256 = v.toNat % 16 * 16 + w.toNat % 64 / 4 := by
    rw [toNat_collect, toNat_collect]
    omega
  rw [decodeLoop_next _ _ (by decide), byte]

theorem decodeLoop_three (acc v w : UInt32) :
    decodeLoop cap (b64Char w :: rest) (collect acc v) 2 out =
      if cap ≤ out.length then some none
      else decodeLoop cap rest (collect (collect acc v) w) 0
        (out ++ [UInt8.ofNat (v.toNat % 4 * 64 + w.toNat % 64)]) := by
  have byte : (collect (collect acc v) w).toNat / 2 ^ 0 % 256 = v.toNat % 4 * 64 + w.toNat % 64 := by
    rw [toNat_collect, toNat_collect]
    omega
  rw [decodeLoop_next _ _ (by decide), byte]

theorem decodeLoop_encode (data : Text) (acc : UInt32) (out : Text) :
    decodeLoop cap (base64Encode data) acc 0 out =
      some (if data.length = 0 ∨ out.length + data.length ≤ cap then some (out ++ data) else none) := by
  induction data using base64Encode.induct generalizing acc out with
  | case1 a b c rest ih =>
    have bits := toNat_three a b c
    have first := a.toNat_lt
    have second := b.toNat_lt
    have third := c.toNat_lt
    rw [base64Encode]
    generalize (a.toUInt32 <<< 16) ||| (b.toUInt32 <<< 8) ||| c.toUInt32 = v at bits ⊢
    obtain ⟨at18, at12, at6⟩ := shifted v
    rw [decodeLoop_one, decodeLoop_two, decodeLoop_three, ih,
      byte_eq (b := a) (by omega), byte_eq (b := b) (by omega), byte_eq (b := c) (by omega)]
    simp only [List.length_append, List.length_cons, List.length_nil, List.append_assoc, List.cons_append,
      List.nil_append]
    grind
  | case2 a b =>
    have bits := toNat_two a b
    have first := a.toNat_lt
    have second := b.toNat_lt
    rw [base64Encode]
    generalize (a.toUInt32 <<< 16) ||| (b.toUInt32 <<< 8) = v at bits ⊢
    obtain ⟨at18, at12, at6⟩ := shifted v
    rw [decodeLoop_one, decodeLoop_two, decodeLoop_padding, decodeLoop,
      byte_eq (b := a) (by omega), byte_eq (b := b) (by omega)]
    simp only [List.length_append, List.length_cons, List.length_nil, List.append_assoc, List.cons_append,
      List.nil_append]
    grind
  | case3 a =>
    have bits : (a.toUInt32 <<< 16).toNat = a.toNat * 65536 := toNat_shiftLeft_byte a (by decide)
    have first := a.toNat_lt
    rw [base64Encode]
    generalize a.toUInt32 <<< 16 = v at bits ⊢
    obtain ⟨at18, at12, -⟩ := shifted v
    rw [decodeLoop_one, decodeLoop_padding, decodeLoop_padding, decodeLoop, byte_eq (b := a) (by omega)]
    simp only [List.length_cons, List.length_nil]
    grind
  | case4 => simp [base64Encode, decodeLoop]

/-! ### The encoded text -/

theorem length_base64Encode (data : Text) : (base64Encode data).length = (data.length + 2) / 3 * 4 := by
  induction data using base64Encode.induct with
  | case1 a b c rest ih =>
    simp only [base64Encode, List.length_cons, ih]
    omega
  | case2 | case3 | case4 => simp [base64Encode]

theorem base64Encode_nonzero (data : Text) : 0 ∉ base64Encode data := by
  have char : ∀ v, ¬ 0 = b64Char v := fun v => (b64Val_char v).2.2.2.2.symm
  induction data using base64Encode.induct with
  | case1 a b c rest ih => simp [base64Encode, char, ih]
  | case2 | case3 => simp [base64Encode, char]
  | case4 => exact List.not_mem_nil

/-! ### Any text -/

theorem decodeLoop_inside (text : Text) (acc : UInt32) (bits : Nat) (room : out.length ≤ cap) :
    ∃ answer, decodeLoop cap text acc bits out = some answer ∧ ∀ written ∈ answer, written.length ≤ cap := by
  induction text generalizing acc bits out with
  | nil => exact ⟨some out, rfl, by simpa using room⟩
  | cons c rest ih =>
    rw [decodeLoop]
    split
    · exact ih acc bits room
    · cases b64Val c with
      | none => exact ⟨none, rfl, by simp⟩
      | some v =>
        simp only
        split_ifs with byte full
        · exact ⟨none, rfl, by simp⟩
        · -- the test before the write is the test of the write
          rw [writeByte, if_pos (Nat.not_le.mp full)]
          exact ih _ _ (by simpa [Nat.succ_le_iff] using Nat.not_le.mp full)
        · exact ih _ _ room

/-- What is encoded is decoded to the bytes again where the array holds them, it has four characters for
every third of the bytes, and every text is decoded or rejected inside the array. -/
theorem base64_exact (data : Text) :
    (base64Encode data).length = (data.length + 2) / 3 * 4 ∧
      (∀ cap, base64Decode cap (base64Encode data) = some (if data.length ≤ cap then some data else none)) ∧
      ∀ cap text, ∃ answer, base64Decode cap text = some answer ∧ ∀ written ∈ answer, written.length ≤ cap := by
  refine ⟨length_base64Encode data, fun cap => ?_, fun cap text => ?_⟩
  · rw [base64Decode, cstr_eq_self (base64Encode_nonzero data), decodeLoop_encode]
    have same : (data.length = 0 ∨ ([] : Text).length + data.length ≤ cap) ↔ data.length ≤ cap := by
      simp only [List.length_nil]
      omega
    simp only [same, List.nil_append]
  · exact decodeLoop_inside (cstr text) 0 0 (Nat.zero_le cap)

end CognitiveOs.Api.WebSocket
