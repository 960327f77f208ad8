import CognitiveOs.Infra.Utf8

/-!
# Code points

The texts that are validated are the encodings of sequences of code points, and what the repair
makes is one of them.
-/

namespace CognitiveOs.Infra

/-- The encoding of a text of code points; a `Char` is one below `0x110000` that is no surrogate. -/
def utf8Encode (text : List Char) : Text :=
  text.flatMap String.utf8EncodeChar

/-! ### The bytes of a sequence -/

theorem utf8SeqLen_eq (b : UInt8) :
    utf8SeqLen b =
      if b.toNat < 128 then 1 else if b.toNat < 192 then 0 else if b.toNat < 224 then 2
      else if b.toNat < 240 then 3 else if b.toNat < 248 then 4 else 0 := by
  have all : ∀ n < 256, utf8SeqLen (UInt8.ofNat n) =
      if (UInt8.ofNat n).toNat < 128 then 1 else if (UInt8.ofNat n).toNat < 192 then 0
      else if (UInt8.ofNat n).toNat < 224 then 2 else if (UInt8.ofNat n).toNat < 240 then 3
      else if (UInt8.ofNat n).toNat < 248 then 4 else 0 := by
    decide +kernel
  have this := all b.toNat b.toNat_lt
  rwa [UInt8.ofNat_toNat] at this

theorem utf8SeqLen_range (b : UInt8) :
    utf8SeqLen b = 0 ∨ utf8SeqLen b = 1 ∧ b.toNat < 128 ∨ utf8SeqLen b = 2 ∧ 192 ≤ b.toNat ∧ b.toNat < 224 ∨
      utf8SeqLen b = 3 ∧ 224 ≤ b.toNat ∧ b.toNat < 240 ∨ utf8SeqLen b = 4 ∧ 240 ≤ b.toNat ∧ b.toNat < 248 := by
  rw [utf8SeqLen_eq]
  split_ifs <;> omega

theorem isContinuation_eq (b : UInt8) : isContinuation b = decide (128 ≤ b.toNat ∧ b.toNat < 192) := by
  have all : ∀ n < 256, isContinuation (UInt8.ofNat n) =
      decide (128 ≤ (UInt8.ofNat n).toNat ∧ (UInt8.ofNat n).toNat < 192) := by
    decide +kernel
  have this := all b.toNat b.toNat_lt
  rwa [UInt8.ofNat_toNat] at this

theorem toNat_mask (b : UInt8) : (b &&& 0xFF).toNat = b.toNat ∧ (b &&& 0x3F).toNat = b.toNat % 64 ∧
    (b &&& 0x1F).toNat = b.toNat % 32 ∧ (b &&& 0x0F).toNat = b.toNat % 16 ∧ (b &&& 0x07).toNat = b.toNat % 8 := by
  refine ⟨?_, ?_, ?_, ?_, ?_⟩
  · rw [UInt8.toNat_and]
    exact (Nat.and_two_pow_sub_one_eq_mod b.toNat 8).trans (Nat.mod_eq_of_lt b.toNat_lt)
  · rw [UInt8.toNat_and]
    exact Nat.and_two_pow_sub_one_eq_mod b.toNat 6
  · rw [UInt8.toNat_and]
    exact Nat.and_two_pow_sub_one_eq_mod b.toNat 5
  · rw [UInt8.toNat_and]
    exact Nat.and_two_pow_sub_one_eq_mod b.toNat 4
  · rw [UInt8.toNat_and]
    exact Nat.and_two_pow_sub_one_eq_mod b.toNat 3

theorem codePoint_one (a : UInt8) : codePoint [a] = a.toNat := by
  simp [codePoint, (toNat_mask a).1]

theorem codePoint_two (a b : UInt8) : codePoint [a, b] = a.toNat % 32 * 64 + b.toNat % 64 := by
  simp only [codePoint, List.length_cons, List.length_nil, List.foldl_cons, List.foldl_nil, (toNat_mask a).2.2.1,
    (toNat_mask b).2.1]

theorem codePoint_three (a b c : UInt8) :
    codePoint [a, b, c] = (a.toNat % 16 * 64 + b.toNat % 64) * 64 + c.toNat % 64 := by
  simp only [codePoint, List.length_cons, List.length_nil, List.foldl_cons, List.foldl_nil, (toNat_mask a).2.2.2.1,
    (toNat_mask b).2.1, (toNat_mask c).2.1]

theorem codePoint_four (a b c d : UInt8) :
    codePoint [a, b, c, d] = ((a.toNat % 8 * 64 + b.toNat % 64) * 64 + c.toNat % 64) * 64 + d.toNat % 64 := by
  simp only [codePoint, List.length_cons, List.length_nil, List.foldl_cons, List.foldl_nil, (toNat_mask a).2.2.2.2,
    (toNat_mask b).2.1, (toNat_mask c).2.1, (toNat_mask d).2.1]

theorem toNat_byte {n : Nat} (small : n < 256) : (UInt8.ofNat n).toNat = n := by
  rw [UInt8.toNat_ofNat', Nat.mod_eq_of_lt small]

theorem char_range (c : Char) : c.toNat < 0xD800 ∨ 0xDFFF < c.toNat ∧ c.toNat < 0x110000 :=
  c.valid

theorem utf8Sequence_char (c : Char) (t : Text) :
    utf8Sequence (String.utf8EncodeChar c ++ t) = some (String.utf8EncodeChar c).length := by
  rw [utf8Sequence_append (Nat.le_refl _), utf8Sequence_eq_some, List.take_length]
  refine ⟨Nat.le_refl _, ?_⟩
  have range := char_range c
  have value : c.val.toNat = c.toNat := rfl
  unfold String.utf8EncodeChar
  simp only [value]
  generalize c.toNat = v at range
  split_ifs with one two three
  · refine ⟨_, _, rfl, ?_, rfl, ?_⟩
    · rw [utf8SeqLen_eq, toNat_byte (by omega), if_pos (by omega)]
      rfl
    · rw [codePoint_one, toNat_byte (by omega)]
      simp [badCodePoint]
      omega
  · refine ⟨_, _, rfl, ?_, ?_, ?_⟩
    · rw [utf8SeqLen_eq, toNat_byte (by omega), if_neg (by omega), if_neg (by omega), if_pos (by omega)]
      rfl
    · simp [isContinuation_eq]
      omega
    · rw [codePoint_two, toNat_byte (by omega), toNat_byte (by omega)]
      simp [badCodePoint]
      omega
  · refine ⟨_, _, rfl, ?_, ?_, ?_⟩
    · rw [utf8SeqLen_eq, toNat_byte (by omega), if_neg (by omega), if_neg (by omega), if_neg (by omega),
        if_pos (by omega)]
      rfl
    · simp [isContinuation_eq]
      omega
    · rw [codePoint_three, toNat_byte (by omega), toNat_byte (by omega), toNat_byte (by omega)]
      simp [badCodePoint]
      omega
  · refine ⟨_, _, rfl, ?_, ?_, ?_⟩
    · rw [utf8SeqLen_eq, toNat_byte (by omega), if_neg (by omega), if_neg (by omega), if_neg (by omega),
        if_neg (by omega), if_pos (by omega)]
      rfl
    · simp [isContinuation_eq]
      omega
    · rw [codePoint_four, toNat_byte (by omega), toNat_byte (by omega), toNat_byte (by omega),
        toNat_byte (by omega)]
      simp [badCodePoint]
      omega

theorem utf8EncodeChar_of {v : Nat} (range : v < 0xD800 ∨ 0xDFFF < v ∧ v < 0x110000) :
    ∃ c : Char, String.utf8EncodeChar c =
      if v ≤ 0x7f then [UInt8.ofNat v]
      else if v ≤ 0x7ff then [UInt8.ofNat (v / 64 % 0x20 + 0xc0), UInt8.ofNat (v % 0x40 + 0x80)]
      else if v ≤ 0xffff then
        [UInt8.ofNat (v / 4096 % 0x10 + 0xe0), UInt8.ofNat (v / 64 % 0x40 + 0x80), UInt8.ofNat (v % 0x40 + 0x80)]
      else
        [UInt8.ofNat (v / 262144 % 0x08 + 0xf0), UInt8.ofNat (v / 4096 % 0x40 + 0x80),
          UInt8.ofNat (v / 64 % 0x40 + 0x80), UInt8.ofNat (v % 0x40 + 0x80)] := by
  obtain ⟨c, value⟩ : ∃ c : Char, c.val.toNat = v := ⟨Char.ofNatAux v range, rfl⟩
  refine ⟨c, ?_⟩
  unfold String.utf8EncodeChar
  simp only [value]

theorem char_of_sequence {s : Text} {l : Nat} (found : utf8Sequence s = some l) :
    ∃ c : Char, s.take l = String.utf8EncodeChar c := by
  obtain ⟨within, b, rest, taken, size, continued, good⟩ := utf8Sequence_eq_some.mp found
  have length : rest.length + 1 = l := by
    rw [← List.length_cons, ← taken, List.length_take, Nat.min_eq_left within]
  rw [taken] at good ⊢
  have byte (n : Nat) (c : UInt8) (same : c.toNat = n) : c = UInt8.ofNat n := by
    rw [← same, UInt8.ofNat_toNat]
  have tail (c : UInt8) (member : c ∈ rest) : 128 ≤ c.toNat ∧ c.toNat < 192 := by
    have this := List.all_eq_true.mp continued c member
    rw [isContinuation_eq] at this
    exact of_decide_eq_true this
  have range := utf8SeqLen_range b
  rw [size] at range
  match rest, length with
  | [], rfl =>
    have low : b.toNat < 128 := by
      simp only [List.length_nil] at range
      omega
    obtain ⟨c, encoded⟩ := @utf8EncodeChar_of b.toNat (by omega)
    refine ⟨c, ?_⟩
    rw [encoded, if_pos (by omega), ← byte _ b rfl]
  | [b₁], rfl =>
    have two : 192 ≤ b.toNat ∧ b.toNat < 224 := by
      simp only [List.length_cons, List.length_nil] at range
      omega
    have first := tail b₁ (by simp)
    rw [codePoint_two] at good
    simp [badCodePoint] at good
    obtain ⟨c, encoded⟩ := @utf8EncodeChar_of (b.toNat % 32 * 64 + b₁.toNat % 64) (by omega)
    refine ⟨c, ?_⟩
    rw [encoded, if_neg (by omega), if_pos (by omega), ← byte _ b (by omega), ← byte _ b₁ (by omega)]
  | [b₁, b₂], rfl =>
    have three : 224 ≤ b.toNat ∧ b.toNat < 240 := by
      simp only [List.length_cons, List.length_nil] at range
      omega
    have first := tail b₁ (by simp)
    have second := tail b₂ (by simp)
    rw [codePoint_three] at good
    simp [badCodePoint] at good
    obtain ⟨c, encoded⟩ := @utf8EncodeChar_of ((b.toNat % 16 * 64 + b₁.toNat % 64) * 64 + b₂.toNat % 64) (by omega)
    refine ⟨c, ?_⟩
    rw [encoded, if_neg (by omega), if_neg (by omega), if_pos (by omega), ← byte _ b (by omega), ← byte _ b₁ (by omega),
      ← byte _ b₂ (by omega)]
  | [b₁, b₂, b₃], rfl =>
    have four : 240 ≤ b.toNat ∧ b.toNat < 248 := by
      simp only [List.length_cons, List.length_nil] at range
      omega
    have first := tail b₁ (by simp)
    have second := tail b₂ (by simp)
    have third := tail b₃ (by simp)
    rw [codePoint_four] at good
    simp [badCodePoint] at good
    obtain ⟨c, encoded⟩ := @utf8EncodeChar_of
      (((b.toNat % 8 * 64 + b₁.toNat % 64) * 64 + b₂.toNat % 64) * 64 + b₃.toNat % 64) (by omega)
    refine ⟨c, ?_⟩
    rw [encoded, if_neg (by omega), if_neg (by omega), if_neg (by omega), ← byte _ b (by omega), ← byte _ b₁ (by omega),
      ← byte _ b₂ (by omega), ← byte _ b₃ (by omega)]
  | _ :: _ :: _ :: _ :: _, rfl =>
    exfalso
    simp only [List.length_cons] at range
    omega

theorem strUtf8Valid_iff (s : Text) : strUtf8Valid s = true ↔ ∃ text : List Char, s = utf8Encode text := by
  constructor
  · intro valid
    induction valid using valid_induction with
    | nil => exact ⟨[], rfl⟩
    | step s l _ found _ ih =>
      obtain ⟨c, taken⟩ := char_of_sequence found
      obtain ⟨text, rest⟩ := ih
      refine ⟨c :: text, ?_⟩
      rw [utf8Encode, List.flatMap_cons, ← taken]
      exact (List.take_append_drop l s).symm.trans (congrArg (s.take l ++ ·) rest)
  · rintro ⟨text, rfl⟩
    induction text with
    | nil => rfl
    | cons c text ih =>
      rw [utf8Encode, List.flatMap_cons, strUtf8Valid_some (utf8Sequence_char c _), List.drop_left]
      exact ih

/-! ### The repair -/

theorem sanitize_induction {motive : Text → Prop} (nil : motive [])
    (broken : ∀ b s, utf8Sequence (b :: s) = none → motive s → motive (b :: s))
    (sequence : ∀ s l, utf8Sequence s = some l → motive (s.drop l) → motive s) (s : Text) : motive s := by
  induction size : s.length using Nat.strongRecOn generalizing s with
  | ind n ih =>
    cases s with
    | nil => exact nil
    | cons b s =>
      cases found : utf8Sequence (b :: s) with
      | none => exact broken b s found (ih s.length (by rw [← size, List.length_cons]; omega) s rfl)
      | some l =>
        have pos := utf8Sequence_pos found
        refine sequence _ l found (ih _ ?_ _ rfl)
        rw [← size, List.length_drop, List.length_cons]
        omega

theorem strUtf8Valid_sanitize (s : Text) : strUtf8Valid (strUtf8Sanitize s) = true := by
  induction s using sanitize_induction with
  | nil => rfl
  | broken b s broken ih =>
    rw [strUtf8Sanitize_none broken, strUtf8Valid_some (utf8Sequence_ascii (by decide) _)]
    exact ih
  | sequence s l found ih =>
    rw [strUtf8Sanitize_some found]
    have within := (utf8Sequence_eq_some.mp found).1
    have first : utf8Sequence (s.take l ++ strUtf8Sanitize (s.drop l)) = some l := by
      rw [utf8Sequence_append (by simp [within]), ← utf8Sequence_append (v := s.drop l) (by simp [within]),
        List.take_append_drop]
      exact found
    rw [strUtf8Valid_some first, List.drop_left' (by simp [within])]
    exact ih

theorem length_sanitize (s : Text) : (strUtf8Sanitize s).length ≤ s.length := by
  induction s using sanitize_induction with
  | nil => exact Nat.le_refl _
  | broken b s broken ih =>
    rw [strUtf8Sanitize_none broken]
    exact Nat.succ_le_succ ih
  | sequence s l found ih =>
    rw [strUtf8Sanitize_some found, List.length_append]
    calc (s.take l).length + (strUtf8Sanitize (s.drop l)).length
        ≤ (s.take l).length + (s.drop l).length := Nat.add_le_add_left ih _
      _ = s.length := by rw [← List.length_append, List.take_append_drop]

/-- The repair makes a valid text that is not longer and leaves a valid text as it is, and valid are exactly the
encodings of texts of code points. -/
theorem sanitize_exact (s : Text) :
    strUtf8Valid (strUtf8Sanitize s) = true ∧ (strUtf8Valid s = true → strUtf8Sanitize s = s) ∧
      (strUtf8Sanitize s).length ≤ s.length ∧ strUtf8Sanitize (strUtf8Sanitize s) = strUtf8Sanitize s ∧
      (strUtf8Valid s = true ↔ ∃ text : List Char, s = utf8Encode text) :=
  ⟨strUtf8Valid_sanitize s, strUtf8Sanitize_of_valid, length_sanitize s,
    strUtf8Sanitize_of_valid (strUtf8Valid_sanitize s), strUtf8Valid_iff s⟩

end CognitiveOs.Infra
