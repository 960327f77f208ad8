import CognitiveOs.Cognition.Planner.Batches
import CognitiveOs.Infra.Grammar

/-!
# Cutting a JSON text out of a reply

The scanner counts both kinds of brackets with one counter and skips strings. The text of an
array or an object is balanced, so the first bracket is closed by the last byte of that text,
and by no byte before.
-/

namespace CognitiveOs.Cognition.Planner

open Infra Grammar

/-! ### Balanced texts -/

variable {s raw : Text}

theorem Balanced.append {s t : Text} (first : Balanced s) (second : Balanced t) : Balanced (s ++ t) := by
  induction first with
  | nil => exact second
  | char plain _ ih => exact .char plain ih
  | string body _ ih =>
    rw [List.cons_append, List.append_assoc, List.cons_append]
    exact .string body ih
  | array inner _ _ ih =>
    rw [List.cons_append, List.append_assoc, List.cons_append]
    exact .array inner ih
  | object inner _ _ ih =>
    rw [List.cons_append, List.append_assoc, List.cons_append]
    exact .object inner ih

theorem balanced_plain (plain : ∀ c ∈ s, c ∉ ([0, 34, 91, 93, 123, 125] : Text)) : Balanced s := by
  induction s with
  | nil => exact .nil
  | cons c s ih => exact .char (plain c List.mem_cons_self) (ih fun d member => plain d (List.mem_cons_of_mem c member))

theorem balanced_white (white : Grammar.White s) : Balanced s := by
  refine balanced_plain fun c member => ?_
  have space := white c member
  unfold Grammar.isWhite at space
  grind

theorem plain_digit {c : UInt8} (digit : isDigit c = true) : c ∉ ([0, 34, 91, 93, 123, 125] : Text) := by
  intro member
  simp only [List.mem_cons, List.not_mem_nil, or_false] at member
  obtain rfl | rfl | rfl | rfl | rfl | rfl := member <;> cases digit

theorem balanced_digits (digits : Digits s) : Balanced s :=
  balanced_plain fun c member => plain_digit (digits.2 c member)

theorem balanced_number (number : Number s) : Balanced s := by
  obtain ⟨signed, whole, -, fraction, exponent⟩ := number
  refine .append ?_ ((balanced_digits whole).append (.append ?_ ?_))
  · simp only [List.mem_cons, List.not_mem_nil, or_false] at signed
    obtain rfl | rfl := signed
    · exact .nil
    · exact .char (by decide) .nil
  · cases fraction with
    | none => exact .nil
    | some digits => exact .char (by decide) (balanced_digits digits)
  · cases exponent with
    | none => exact .nil
    | @some e sign digits letter signs number =>
      simp only [List.mem_cons, List.not_mem_nil, or_false] at letter signs
      have signed : Balanced (sign ++ digits) := by
        obtain rfl | rfl | rfl := signs
        · exact balanced_digits number
        · exact .char (by decide) (balanced_digits number)
        · exact .char (by decide) (balanced_digits number)
      obtain rfl | rfl := letter
      · exact .char (by decide) signed
      · exact .char (by decide) signed

theorem stringBody_hex {digits : Text} (hex : ∀ c ∈ digits, isHexDigit c = true) (later : StringBody s) :
    StringBody (digits ++ s) := by
  induction digits with
  | nil => exact later
  | cons c digits ih =>
    have digit := hex c List.mem_cons_self
    refine .char ?_ ?_ ?_ (ih fun d member => hex d (List.mem_cons_of_mem c member))
    all_goals
      rintro rfl
      cases digit

theorem stringBody_chars (chars : Chars raw) : StringBody raw := by
  induction chars with
  | nil => exact .nil
  | @char c s visible quote slash _ ih =>
    refine .char ?_ quote slash ih
    rintro rfl
    exact absurd visible (by decide)
  | @escape c s escape _ ih =>
    refine .escape ?_ ih
    rintro rfl
    exact absurd escape (by decide)
  | code _ hex _ ih => exact .escape (by decide) (stringBody_hex hex ih)

theorem balanced_string (chars : Chars raw) (later : Balanced s) : Balanced (34 :: (raw ++ 34 :: s)) :=
  .string (stringBody_chars chars) later

mutual

theorem balanced_value : {s : Text} → Value s → Balanced s
  | _, .null => balanced_plain (by simp [ascii])
  | _, .true => balanced_plain (by simp [ascii])
  | _, .false => balanced_plain (by simp [ascii])
  | _, .number number => balanced_number number
  | _, .string chars => balanced_string chars .nil
  | _, .array items => .array (balanced_items items) .nil
  | _, .object members => .object (balanced_members members) .nil

theorem balanced_items : {s : Text} → Items s → Balanced s
  | _, .none white => balanced_white white
  | _, .one before value after =>
    (balanced_white before).append ((balanced_value value).append (balanced_white after))
  | _, .more before value after rest =>
    (balanced_white before).append ((balanced_value value).append
      ((balanced_white after).append (.char (by decide) (balanced_items rest))))

theorem balanced_members : {s : Text} → Members s → Balanced s
  | _, .none white => balanced_white white
  | _, .one before key gap lead value after =>
    (balanced_white before).append (balanced_string key ((balanced_white gap).append (.char (by decide)
      ((balanced_white lead).append ((balanced_value value).append (balanced_white after))))))
  | _, .more before key gap lead value after rest =>
    (balanced_white before).append (balanced_string key ((balanced_white gap).append (.char (by decide)
      ((balanced_white lead).append ((balanced_value value).append
        ((balanced_white after).append (.char (by decide) (balanced_members rest))))))))

end

/-! ### The scanner on a balanced text -/

theorem balancedSpan_append {scan : Scan} {span : Text} (found : balancedSpan scan s = some span) (y : Text) :
    balancedSpan scan (s ++ y) = some span := by
  induction s generalizing scan span with
  | nil => cases found
  | cons c s ih =>
    rw [balancedSpan] at found
    rw [List.cons_append, balancedSpan]
    split at found
    · next closes => rw [if_pos closes, found]
    · next opens =>
      obtain ⟨later, rest, rfl⟩ := Option.map_eq_some_iff.mp found
      rw [if_neg opens, ih rest]
      rfl

theorem balancedSpan_pass {scan : Scan} {c : UInt8} (open' : 1 ≤ (scan.step c).depth) (y : Text) :
    balancedSpan scan (c :: y) = (balancedSpan (scan.step c) y).map (c :: ·) := by
  rw [balancedSpan, if_neg]
  rw [Bool.and_eq_true, not_and, decide_eq_true_eq]
  intro _ zero
  omega

variable {depth : Int}

theorem balancedSpan_string (body : StringBody raw) (deep : 1 ≤ depth) (y : Text) :
    balancedSpan { depth, inStr := true } (raw ++ 34 :: y) =
      (balancedSpan { depth } y).map fun rest => raw ++ 34 :: rest := by
  induction body with
  | nil =>
    have shut : Scan.step { depth, inStr := true } 34 = { depth } := by simp [Scan.step]
    rw [List.nil_append, balancedSpan_pass (by rw [shut]; exact deep), shut]
    rfl
  | @char c s _ quote slash _ ih =>
    have same : Scan.step { depth, inStr := true } c = { depth, inStr := true } := by
      simp [Scan.step, quote, slash]
    rw [List.cons_append, balancedSpan_pass (by rw [same]; exact deep), same, ih, Option.map_map]
    rfl
  | @escape c s _ _ ih =>
    have first : Scan.step { depth, inStr := true } 92 = { depth, inStr := true, esc := true } := by
      simp [Scan.step]
    have second : Scan.step { depth, inStr := true, esc := true } c = { depth, inStr := true } := by
      simp [Scan.step]
    rw [List.cons_append, List.cons_append, balancedSpan_pass (by rw [first]; exact deep), first,
      balancedSpan_pass (by rw [second]; exact deep), second, ih, Option.map_map, Option.map_map]
    rfl

theorem balancedSpan_bracket {left right : UInt8} {inner : Text} (deep : 1 ≤ depth)
    (opens : Scan.step { depth } left = { depth := depth + 1 })
    (shuts : Scan.step { depth := depth + 1 } right = { depth })
    (within : ∀ y, balancedSpan { depth := depth + 1 } (inner ++ y) =
      (balancedSpan { depth := depth + 1 } y).map (inner ++ ·)) (y : Text) :
    balancedSpan { depth } (left :: (inner ++ right :: y)) =
      (balancedSpan { depth } y).map fun rest => left :: (inner ++ right :: rest) := by
  have above : 1 ≤ depth + 1 := by omega
  rw [balancedSpan_pass (by rw [opens]; exact above), opens, within,
    balancedSpan_pass (by rw [shuts]; exact deep), shuts, Option.map_map, Option.map_map]
  rfl

theorem balancedSpan_balanced {t : Text} (balanced : Balanced t) (deep : 1 ≤ depth) (y : Text) :
    balancedSpan { depth } (t ++ y) = (balancedSpan { depth } y).map (t ++ ·) := by
  induction balanced generalizing depth y with
  | nil => simp
  | @char c s plain _ ih =>
    simp only [List.mem_cons, List.not_mem_nil, or_false, not_or] at plain
    have same : Scan.step { depth } c = { depth } := by simp [Scan.step, plain]
    rw [List.cons_append, balancedSpan_pass (by rw [same]; exact deep), same, ih deep, Option.map_map]
    rfl
  | @string raw s body _ ih =>
    have quote : Scan.step { depth } 34 = { depth, inStr := true } := by simp [Scan.step]
    rw [List.cons_append, List.append_assoc, List.cons_append, balancedSpan_pass (by rw [quote]; exact deep),
      quote, balancedSpan_string body deep, ih deep, Option.map_map, Option.map_map]
    simp [Function.comp_def]
  | @array inner s _ _ within later =>
    rw [List.cons_append, List.append_assoc, List.cons_append,
      balancedSpan_bracket deep (by simp [Scan.step]) (by simp [Scan.step]) (within (by omega)), later deep,
      Option.map_map]
    simp [Function.comp_def]
  | @object inner s _ _ within later =>
    rw [List.cons_append, List.append_assoc, List.cons_append,
      balancedSpan_bracket deep (by simp [Scan.step]) (by simp [Scan.step]) (within (by omega)), later deep,
      Option.map_map]
    simp [Function.comp_def]

/-! ### The span of a document -/

variable {json : Text}

theorem document_shape (document : Document json) :
    ∃ left inner right, json = left :: (inner ++ [right]) ∧ isBracket left = true ∧ Balanced inner ∧
      Scan.step {} left = { depth := 1 } ∧ Scan.step { depth := 1 } right = {} ∧ (right = 93 ∨ right = 125) := by
  cases document with
  | @array inner items => exact ⟨91, inner, 93, rfl, rfl, balanced_items items, by decide, by decide, .inl rfl⟩
  | @object inner members =>
    exact ⟨123, inner, 125, rfl, rfl, balanced_members members, by decide, by decide, .inr rfl⟩

theorem document_text (document : Document json) : (0 : UInt8) ∉ json := by
  cases document with
  | array items => exact (balanced_value (.array items)).text
  | object members => exact (balanced_value (.object members)).text

theorem balancedSpan_document (document : Document json) (y : Text) : balancedSpan {} (json ++ y) = some json := by
  obtain ⟨left, inner, right, rfl, -, balanced, opens, shuts, closing⟩ := document_shape document
  have closes : balancedSpan { depth := 1 } (right :: y) = some [right] := by
    rw [balancedSpan, shuts, if_pos]
    obtain rfl | rfl := closing <;> rfl
  have rejoin : left :: (inner ++ [right]) ++ y = left :: (inner ++ right :: y) := by simp
  rw [rejoin, balancedSpan_pass (Int.le_of_eq (congrArg Scan.depth opens).symm), opens,
    balancedSpan_balanced balanced (Int.le_refl 1), closes]
  rfl

theorem balancedSpan_cut (document : Document json) {n : Nat} (cut : n < json.length) :
    balancedSpan {} (json.take n) = none := by
  obtain ⟨left, inner, right, rfl, -, balanced, opens, -, -⟩ := document_shape document
  cases n with
  | zero => rfl
  | succ n =>
    have within : n ≤ inner.length := by
      simp only [List.length_cons, List.length_append, List.length_nil] at cut
      omega
    rw [List.take_succ_cons, List.take_append_of_le_length within,
      balancedSpan_pass (Int.le_of_eq (congrArg Scan.depth opens).symm), opens, Option.map_eq_none_iff]
    cases found : balancedSpan { depth := 1 } (inner.take n) with
    | none => rfl
    | some span =>
      have whole := balancedSpan_append found (inner.drop n)
      have passed := balancedSpan_balanced balanced (Int.le_refl 1) []
      rw [List.take_append_drop] at whole
      rw [List.append_nil, whole] at passed
      cases passed

theorem extractJsonSpan_lead {lead rest : Text} (clean : (0 : UInt8) ∉ lead)
    (plain : ∀ c ∈ lead, isBracket c = false) :
    extractJsonSpan (lead ++ rest) = balancedSpan {} ((cstr rest).dropWhile fun c => !isBracket c) := by
  have visible : ∀ c ∈ lead, decide (c ≠ 0) = true := by
    intro c member
    rw [decide_eq_true_eq]
    rintro rfl
    exact clean member
  unfold extractJsonSpan cstr
  rw [List.takeWhile_append_of_pos visible, List.dropWhile_append_of_pos]
  intro c member
  rw [plain c member]
  rfl

/-- Behind a text without brackets an array or an object is cut out as it is written, whatever
follows; when it is incomplete, nothing is. -/
theorem document_extracted {lead json : Text} (clean : (0 : UInt8) ∉ lead)
    (plain : ∀ c ∈ lead, isBracket c = false) (document : Document json) :
    (∀ rest, extractJsonSpan (lead ++ (json ++ rest)) = some json) ∧
      ∀ n < json.length, extractJsonSpan (lead ++ json.take n) = none := by
  obtain ⟨left, inner, right, same, bracket, -⟩ := document_shape document
  have text := document_text document
  have visible : ∀ c ∈ json, decide (c ≠ 0) = true := by
    intro c member
    rw [decide_eq_true_eq]
    rintro rfl
    exact text member
  constructor
  · intro rest
    have start : (json ++ cstr rest).dropWhile (fun c => !isBracket c) = json ++ cstr rest := by
      rw [same]
      exact List.dropWhile_cons_of_neg (by simp [bracket])
    have whole : cstr (json ++ rest) = json ++ cstr rest := List.takeWhile_append_of_pos visible
    rw [extractJsonSpan_lead clean plain, whole, start, balancedSpan_document document]
  · intro n cut
    have whole : cstr (json.take n) = json.take n :=
      cstr_eq_self fun zero => text (List.mem_of_mem_take zero)
    have start : (json.take n).dropWhile (fun c => !isBracket c) = json.take n := by
      rw [same]
      cases n with
      | zero => rfl
      | succ n => exact List.dropWhile_cons_of_neg (by simp [bracket])
    rw [extractJsonSpan_lead clean plain, whole, start, balancedSpan_cut document cut]

/-- A fenced array with a bracket in a string. -/
theorem fenced_extracted :
    (∀ rest, extractJsonSpan (ascii "```json\n" ++ (ascii "[\"]\"]" ++ rest)) = some (ascii "[\"]\"]")) ∧
      ∀ n < (ascii "[\"]\"]").length, extractJsonSpan (ascii "```json\n" ++ (ascii "[\"]\"]").take n) = none :=
  have white : Grammar.White [] := fun _ member => nomatch member
  have quoted : Value [34, 93, 34] := .string (.char (by decide) (by decide) (by decide) .nil)
  document_extracted (by simp [ascii]) (by simp [ascii, isBracket]) (.array (.one white quoted white))

end CognitiveOs.Cognition.Planner
