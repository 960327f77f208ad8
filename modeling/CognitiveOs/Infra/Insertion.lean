import CognitiveOs.Foundation.Options
import CognitiveOs.Infra.Print
import Mathlib.Tactic.Ring

/-!
# Texts between quotes

A text that is put between two quotes as it is, with a comma and a quote behind it. It is read back
just when it has no quote and no backslash.
-/

namespace CognitiveOs.Infra.Cjson

open Foundation

def Bare (s : Text) : Prop :=
  34 ∉ s ∧ 92 ∉ s

instance (s : Text) : Decidable (Bare s) :=
  inferInstanceAs (Decidable (34 ∉ s ∧ 92 ∉ s))

/-- `"%s"` in a format. -/
def inserted (s : Text) : Text :=
  34 :: (s ++ [34])

/-! ### Bare texts -/

variable {s : Text} {c : UInt8} {fuel : Nat}

theorem splitString_bare (bare : Bare s) (t : Text) : splitString (s ++ 34 :: t) = some (s, t) := by
  induction s with
  | nil => exact splitString_quote t
  | cons c s ih =>
    obtain ⟨quote, slash⟩ := bare
    obtain ⟨first, quote⟩ := not_or.mp (mt List.mem_cons.mpr quote)
    obtain ⟨first', slash⟩ := not_or.mp (mt List.mem_cons.mpr slash)
    rw [List.cons_append, splitString_char (Ne.symm first) (Ne.symm first'), ih ⟨quote, slash⟩]
    rfl

theorem unescape_char (slash : c ≠ 92) (fuel : Nat) (s : Text) :
    unescape (fuel + 1) (c :: s) = (unescape fuel s).map (c :: ·) :=
  if_pos slash

theorem unescape_plain (slash : 92 ∉ s) (enough : s.length ≤ fuel) : unescape fuel s = some s := by
  induction s generalizing fuel with
  | nil => cases fuel <;> rfl
  | cons c s ih =>
    obtain ⟨first, slash⟩ := not_or.mp (mt List.mem_cons.mpr slash)
    rw [List.length_cons] at enough
    obtain ⟨fuel, rfl⟩ : ∃ k, fuel = k + 1 := ⟨fuel - 1, by omega⟩
    rw [unescape_char (Ne.symm first), ih slash (by omega)]
    rfl

theorem parseString_bare (text : 0 ∉ s) (bare : Bare s) (t : Text) : parseString (inserted s ++ t) = some (s, t) := by
  have split := splitString_bare bare t
  unfold inserted parseString
  simp only [List.cons_append, List.append_assoc, List.nil_append]
  rw [split]
  simp only [unescape_plain bare.2 (le_refl _), Option.map_some, cstr_eq_self text]

/-! ### What an escape takes away -/

variable {raw value : Text}

theorem hexValue?_lt {digit : Nat} (value : hexValue? c = some digit) : digit < 16 := by
  unfold hexValue? at value
  split at value
  · next range =>
    have upper : c.toNat ≤ 57 := range.2
    cases value
    omega
  · split at value
    · next range =>
      have upper : c.toNat ≤ 70 := range.2
      cases value
      omega
    · split at value
      · next range =>
        have upper : c.toNat ≤ 102 := range.2
        cases value
        omega
      · cases value

theorem foldl_hex_lt {digits : List Nat} (small : ∀ digit ∈ digits, digit < 16) (h : Nat) :
    digits.foldl (fun h digit => 16 * h + digit) h < (h + 1) * 16 ^ digits.length := by
  induction digits generalizing h with
  | nil => simp
  | cons digit digits ih =>
    have first := small digit List.mem_cons_self
    have rest := ih (fun other member => small other (List.mem_cons_of_mem _ member)) (16 * h + digit)
    have grows : (16 * h + digit + 1) * 16 ^ digits.length ≤ (16 * (h + 1)) * 16 ^ digits.length :=
      Nat.mul_le_mul_right _ (by omega)
    rw [List.foldl_cons, List.length_cons, Nat.pow_succ]
    calc
      _ < _ := rest
      _ ≤ _ := grows
      _ = _ := by ring

theorem parseHex4_lt (s : Text) : parseHex4 s < 0x10000 := by
  unfold parseHex4
  split
  · next digits values =>
    have length : (s.take 4).length = digits.length := (forall₂_mapM values).length_eq
    have small : ∀ digit ∈ digits, digit < 16 := by
      intro digit member
      obtain ⟨c, _, value⟩ := mem_mapM values member
      exact hexValue?_lt value
    have bound := foldl_hex_lt small 0
    have four : digits.length ≤ 4 := by
      rw [← length, List.length_take]
      omega
    calc
      _ < _ := bound
      _ ≤ (0 + 1) * 16 ^ 4 := Nat.mul_le_mul_left _ (Nat.pow_le_pow_right (by decide) four)
      _ = _ := by decide
  · exact Nat.succ_pos _

theorem utf16Literal_length {bytes : Text} {n : Nat} (literal : utf16Literal raw = some (bytes, n)) :
    bytes.length + 3 ≤ n ∧ n ≤ raw.length := by
  unfold utf16Literal at literal
  split at literal
  · cases literal
  · next six =>
    dsimp only at literal
    have hex := parseHex4_lt (raw.drop 2)
    split at literal
    · cases literal
    · split at literal
      · split at literal
        · cases literal
        · next pair =>
          rw [not_or] at pair
          have more := pair.1
          rw [List.length_drop] at more
          split at literal
          · cases literal
          · cases literal
            refine ⟨?_, by omega⟩
            unfold encodeUtf8
            split_ifs <;> simp
      · cases literal
        refine ⟨?_, by omega⟩
        unfold encodeUtf8
        split_ifs <;> simp

inductive Unescaped (fuel : Nat) (rest value : Text) : UInt8 → Prop where
  | char {c : UInt8} {later : Text} : c ≠ 92 → unescape fuel rest = some later → value = c :: later →
      Unescaped fuel rest value c
  | last : rest = [] → value = [34] → Unescaped fuel rest value 92
  | code {bytes later : Text} {n : Nat} : bytes.length + 3 ≤ n → n ≤ rest.length + 1 →
      unescape fuel (rest.drop (n - 1)) = some later → value = bytes ++ later → Unescaped fuel rest value 92
  | short {escape byte : UInt8} {after later : Text} : rest = escape :: after → simpleEscape? escape = some byte →
      unescape fuel after = some later → value = byte :: later → Unescaped fuel rest value 92

theorem unescape_cases {rest : Text} (read : unescape (fuel + 1) (c :: rest) = some value) :
    Unescaped fuel rest value c := by
  by_cases slash : c ≠ 92
  · rw [unescape_char slash] at read
    obtain ⟨later, others, rfl⟩ := Option.map_eq_some_iff.mp read
    exact .char slash others rfl
  · rw [not_not] at slash
    subst slash
    match rest with
    | [] =>
      cases read
      exact .last rfl rfl
    | escape :: rest =>
      by_cases u : escape = 117
      · subst u
        obtain ⟨⟨bytes, n⟩, literal, read⟩ := Option.bind_eq_some_iff.mp read
        obtain ⟨later, others, rfl⟩ := Option.map_eq_some_iff.mp read
        obtain ⟨less, within⟩ := utf16Literal_length literal
        exact .code less within others rfl
      · have read : ((simpleEscape? escape).bind fun byte => (unescape fuel rest).map (byte :: ·)) = some value := by
          rw [← read]
          simp [unescape]
        obtain ⟨byte, simple, read⟩ := Option.bind_eq_some_iff.mp read
        obtain ⟨later, others, rfl⟩ := Option.map_eq_some_iff.mp read
        exact .short rfl simple others rfl

theorem unescape_length (read : unescape fuel raw = some value) : value.length ≤ raw.length := by
  induction fuel generalizing raw value with
  | zero =>
    cases raw with
    | nil =>
      cases read
      exact le_refl _
    | cons c rest => cases read
  | succ fuel ih =>
    cases raw with
    | nil =>
      cases read
      exact le_refl _
    | cons c rest =>
      cases unescape_cases read with
      | char _ others same =>
        have := ih others
        rw [same]
        simpa using this
      | last nothing same => simp [nothing, same]
      | code less within others same =>
        have := ih others
        rw [List.length_drop] at this
        rw [same, List.length_append, List.length_cons]
        omega
      | short start _ others same =>
        have := ih others
        rw [same, start, List.length_cons, List.length_cons, List.length_cons]
        omega

theorem no_slash_of_unescape (read : unescape fuel raw = some raw) : 92 ∉ raw := by
  induction fuel generalizing raw with
  | zero =>
    cases raw with
    | nil => exact List.not_mem_nil
    | cons c rest => cases read
  | succ fuel ih =>
    cases raw with
    | nil => exact List.not_mem_nil
    | cons c rest =>
      cases unescape_cases read with
      | char slash others same =>
        rw [← (List.cons.inj same).2] at others
        exact fun member => (List.mem_cons.mp member).elim (fun here => slash here.symm) (ih others)
      | last nothing same => exact absurd (List.cons.inj same).1 (by decide)
      | code less within others same =>
        have shorter := unescape_length others
        have length := congrArg List.length same
        rw [List.length_drop] at shorter
        rw [List.length_append, List.length_cons] at length
        omega
      | short start _ others same =>
        have shorter := unescape_length others
        have length := congrArg List.length same
        rw [start, List.length_cons, List.length_cons, List.length_cons] at length
        omega

/-- A text that ends with a comma and is unescaped to a C string of two bytes less, or more: this ends
with the comma as well. -/
theorem last_of_unescape (read : unescape fuel raw = some value) (text : 0 ∉ raw) (comma : raw.getLast? = some 44)
    (long : raw.length ≤ (cstr value).length + 2) : (cstr value).getLast? = some 44 := by
  induction fuel generalizing raw value with
  | zero =>
    cases raw with
    | nil => cases comma
    | cons c rest => cases read
  | succ fuel ih =>
    have cut (value : Text) : (cstr value).length ≤ value.length := (List.takeWhile_prefix _).length_le
    cases raw with
    | nil => cases comma
    | cons c rest =>
      obtain ⟨first, behind⟩ := not_or.mp (mt List.mem_cons.mpr text)
      cases unescape_cases read with
      | @char _ later slash others same =>
        have step : cstr (c :: later) = c :: cstr later := List.takeWhile_cons_of_pos (by simpa using Ne.symm first)
        rw [same, step] at long ⊢
        cases rest with
        | nil =>
          have nothing : cstr later = [] := by
            have := unescape_length others
            have := cut later
            exact List.eq_nil_of_length_eq_zero (by simp only [List.length_nil] at *; omega)
          rw [nothing]
          exact comma
        | cons d rest =>
          have last := ih others behind (by simpa using comma) (by simp only [List.length_cons] at *; omega)
          rw [List.getLast?_cons, last]
          rfl
      | last nothing _ =>
        rw [nothing] at comma
        exact absurd (Option.some.inj comma) (by decide)
      | @code bytes later n less within others same =>
        have shorter := unescape_length others
        have whole := cut (bytes ++ later)
        rw [List.length_drop] at shorter
        rw [same, List.length_cons] at long
        rw [List.length_append] at whole
        omega
      | @short escape byte after later start simple others same =>
        have visible : byte ≠ 0 := by
          rintro rfl
          unfold simpleEscape? at simple
          split_ifs at simple <;> simp_all
        have step : cstr (byte :: later) = byte :: cstr later := List.takeWhile_cons_of_pos (by simpa using visible)
        subst start
        rw [same, step] at long ⊢
        cases after with
        | nil =>
          have here : escape = 44 := by simpa using comma
          subst here
          cases simple
        | cons d after =>
          have last := ih others (fun member => behind (List.mem_cons_of_mem _ member)) (by simpa using comma)
            (by simp only [List.length_cons] at *; omega)
          rw [List.getLast?_cons, last]
          rfl

/-! ### Where the string ends -/

/-- A text between quotes, with a comma and a quote behind it: the string ends before the text does,
or with it, or its last backslash takes the quote away and the string ends with the comma. -/
theorem splitString_cases {raw after t : Text} : ∀ {s : Text},
    splitString (s ++ 34 :: 44 :: 34 :: t) = some (raw, after) →
      raw.length < s.length ∨ raw = s ∧ after = 44 :: 34 :: t ∨ raw = s ++ [34, 44] ∧ s.getLast? = some 92
  | [], read => by
    cases (splitString_quote _).symm.trans read
    exact .inr (.inl ⟨rfl, rfl⟩)
  | [c], read => by
    by_cases quote : c = 34
    · subst quote
      cases (splitString_quote _).symm.trans read
      exact .inl (Nat.succ_pos _)
    · by_cases slash : c = 92
      · subst slash
        rw [List.cons_append, List.nil_append, splitString_slash,
          splitString_char (show (44 : UInt8) ≠ 34 by decide) (by decide), splitString_quote] at read
        cases read
        exact .inr (.inr ⟨rfl, rfl⟩)
      · rw [List.cons_append, List.nil_append, splitString_char quote slash, splitString_quote] at read
        cases read
        exact .inr (.inl ⟨rfl, rfl⟩)
  | c :: d :: s, read => by
    by_cases quote : c = 34
    · subst quote
      cases (splitString_quote _).symm.trans read
      exact .inl (Nat.succ_pos _)
    · by_cases slash : c = 92
      · subst slash
        rw [List.cons_append, List.cons_append, splitString_slash] at read
        obtain ⟨⟨raw, after⟩, read, same⟩ := Option.map_eq_some_iff.mp read
        cases same
        rcases splitString_cases read with short | ⟨whole, rest⟩ | ⟨more, last⟩
        · exact .inl (by simpa using short)
        · exact .inr (.inl ⟨by rw [whole], rest⟩)
        · refine .inr (.inr ⟨by rw [more]; rfl, ?_⟩)
          rw [List.getLast?_cons, List.getLast?_cons, last]
          rfl
      · rw [List.cons_append, splitString_char quote slash] at read
        obtain ⟨⟨raw, after⟩, read, same⟩ := Option.map_eq_some_iff.mp read
        cases same
        rcases @splitString_cases _ _ _ (d :: s) read with short | ⟨whole, rest⟩ | ⟨more, last⟩
        · exact .inl (Nat.succ_lt_succ short)
        · exact .inr (.inl ⟨by rw [whole], rest⟩)
        · refine .inr (.inr ⟨by rw [more]; rfl, ?_⟩)
          rw [List.getLast?_cons, last]
          rfl

theorem no_quote_of_split {after : Text} (read : splitString s = some (raw, after)) (slash : 92 ∉ raw) : 34 ∉ raw := by
  induction s generalizing raw after with
  | nil => cases read
  | cons c s ih =>
    by_cases quote : c = 34
    · subst quote
      cases (splitString_quote _).symm.trans read
      exact List.not_mem_nil
    · by_cases other : c = 92
      · subst other
        cases s with
        | nil => cases read
        | cons d s =>
          rw [splitString_slash] at read
          obtain ⟨⟨raw, after⟩, _, same⟩ := Option.map_eq_some_iff.mp read
          cases same
          exact absurd List.mem_cons_self slash
      · rw [splitString_char quote other] at read
        obtain ⟨⟨raw, after⟩, read, same⟩ := Option.map_eq_some_iff.mp read
        cases same
        intro member
        rcases List.mem_cons.mp member with here | there
        · exact quote here.symm
        · exact ih read (fun member => slash (List.mem_cons_of_mem _ member)) there

theorem parseString_quote (s : Text) : parseString (34 :: s) =
    (splitString s).bind fun (raw, after) => (unescape raw.length raw).map fun value => (cstr value, after) := by
  rw [parseString]
  cases splitString s <;> rfl

theorem bare_of_parseString {after t : Text} (text : 0 ∉ s)
    (read : parseString (inserted s ++ 44 :: 34 :: t) = some (s, after)) : Bare s := by
  have shape : inserted s ++ 44 :: 34 :: t = 34 :: (s ++ 34 :: 44 :: 34 :: t) := by simp [inserted]
  rw [shape, parseString_quote] at read
  obtain ⟨⟨raw, rest⟩, split, read⟩ := Option.bind_eq_some_iff.mp read
  obtain ⟨value, unescaped, pair⟩ := Option.map_eq_some_iff.mp read
  obtain ⟨same, rfl⟩ := Prod.mk.inj pair
  have shorter := unescape_length unescaped
  have cut : (cstr value).length ≤ value.length := (List.takeWhile_prefix _).length_le
  rw [same] at cut
  rcases splitString_cases split with short | ⟨rfl, -⟩ | ⟨rfl, last⟩
  · omega
  · -- nothing is cut off at a terminator, so the text is unescaped to itself
    have whole : cstr value = value := by
      apply (List.takeWhile_prefix _).eq_of_length
      have length : (cstr value).length = raw.length := congrArg List.length same
      exact length.trans (by omega)
    rw [whole] at same
    subst same
    have slash := no_slash_of_unescape unescaped
    exact ⟨no_quote_of_split split slash, slash⟩
  · have comma := last_of_unescape unescaped (by simpa using text) (by simp) (by rw [same]; simp)
    rw [same, last] at comma
    exact absurd (Option.some.inj comma) (by decide)

end CognitiveOs.Infra.Cjson
