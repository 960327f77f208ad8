import CognitiveOs.Infra.Spelled
import CognitiveOs.Llm.Preview.Units

/-!
# The scan for the answer

The scan decides from left to right, so it finds the same answer in every longer text, and it passes
by what the parser reads as one value.
-/

namespace CognitiveOs.Llm.Preview

open Infra Cjson

def scanned (depth : Int) (s : Text) : Option Text :=
  scan s.length depth s

def Plain (c : UInt8) : Prop :=
  c ≠ 34 ∧ c ≠ 91 ∧ c ≠ 93 ∧ c ≠ 123 ∧ c ≠ 125

variable {raw rest : Text}

theorem length_of_split {s : Text} (read : splitString s = some (raw, rest)) : rest.length < s.length := by
  rw [(splitString_inside read).1, List.length_append, List.length_cons]
  omega

/-! ### Rounds -/

theorem scan_enough {n rounds : Nat} {depth : Int} {s : Text} (short : s.length ≤ n) (enough : s.length ≤ rounds) :
    scan rounds depth s = scanned depth s := by
  induction n generalizing rounds depth s with
  | zero =>
    rw [List.eq_nil_of_length_eq_zero (Nat.le_zero.mp short)]
    cases rounds <;> rfl
  | succ n ih =>
    cases s with
    | nil => cases rounds <;> rfl
    | cons c rest =>
      obtain ⟨rounds, rfl⟩ : ∃ more, rounds = more + 1 := ⟨rounds - 1, by simp at enough; omega⟩
      simp only [List.length_cons] at short enough
      have both : ∀ (depth : Int) (t : Text), t.length ≤ rest.length →
          scan rounds depth t = scan rest.length depth t := by
        intro depth t small
        rw [@ih rounds depth t (by omega) (by omega), @ih rest.length depth t (by omega) small]
      rw [scanned, List.length_cons]
      unfold scan
      rw [both _ rest (Nat.le_refl _), both _ rest (Nat.le_refl _), both _ rest (Nat.le_refl _)]
      cases split_ : splitString rest with
      | none => rfl
      | some pair =>
        obtain ⟨raw, after⟩ := pair
        have small := Nat.le_of_lt (length_of_split split_)
        simp only [both _ after small]

theorem scanned_cons (depth : Int) (c : UInt8) (s : Text) : scanned depth (c :: s) =
    if c = 123 ∨ c = 91 then scanned (depth + 1) s
    else if c = 125 ∨ c = 93 then scanned (depth - 1) s
    else if c ≠ 34 then scanned depth s
    else
      match splitString s with
      | none => none
      | some (raw, rest) =>
        match blanks rest with
        | 58 :: after =>
          if depth ≠ 1 ∨ quoted raw ≠ some (ascii "answer") then scanned depth rest
          else shownValue (blanks after)
        | _ => scanned depth rest := by
  rw [scanned, List.length_cons, scan]
  cases split_ : splitString s with
  | none => rfl
  | some pair =>
    obtain ⟨raw, after⟩ := pair
    have small := Nat.le_of_lt (length_of_split split_)
    simp only [@scan_enough s.length s.length depth after small small]
    rfl

theorem scanned_open {c : UInt8} (open_ : c = 123 ∨ c = 91) (depth : Int) (s : Text) :
    scanned depth (c :: s) = scanned (depth + 1) s := by
  rw [scanned_cons, if_pos open_]

theorem scanned_close {c : UInt8} (close : c = 125 ∨ c = 93) (depth : Int) (s : Text) :
    scanned depth (c :: s) = scanned (depth - 1) s := by
  rw [scanned_cons, if_neg (by rcases close with rfl | rfl <;> decide), if_pos close]

theorem scanned_plain {c : UInt8} (plain : Plain c) (depth : Int) (s : Text) :
    scanned depth (c :: s) = scanned depth s := by
  obtain ⟨quote, open_, close, brace, shut⟩ := plain
  rw [scanned_cons, if_neg (by simp [open_, brace]), if_neg (by simp [close, shut]), if_pos quote]

theorem scanned_key {s after : Text} (read : splitString s = some (raw, rest)) (colon : blanks rest = 58 :: after)
    (depth : Int) : scanned depth (34 :: s) =
      if depth ≠ 1 ∨ quoted raw ≠ some (ascii "answer") then scanned depth rest else shownValue (blanks after) := by
  have quote : scanned depth (34 :: s) = _ := scanned_cons depth 34 s
  rw [quote, read]
  simp [colon]

theorem scanned_string {s : Text} (read : splitString s = some (raw, rest)) (other : (blanks rest).head? ≠ some 58)
    (depth : Int) : scanned depth (34 :: s) = scanned depth rest := by
  have quote : scanned depth (34 :: s) = _ := scanned_cons depth 34 s
  rw [quote, read]
  cases start : blanks rest with
  | nil => simp [start]
  | cons c after =>
    rw [start] at other
    have differ : c ≠ 58 := by simpa using other
    simp [start, differ]

theorem scanned_open_string {s : Text} (read : splitString s = none) (depth : Int) :
    scanned depth (34 :: s) = none := by
  have quote : scanned depth (34 :: s) = _ := scanned_cons depth 34 s
  rw [quote, read]
  simp

theorem scanned_plains {p : Text} (plain : ∀ c ∈ p, Plain c) (depth : Int) (s : Text) :
    scanned depth (p ++ s) = scanned depth s := by
  induction p with
  | nil => rfl
  | cons c p ih =>
    obtain ⟨first, later⟩ := List.forall_mem_cons.mp plain
    rw [List.cons_append, scanned_plain first, ih later]

theorem plain_of_space {c : UInt8} (space : c ≤ 32) : Plain c := by
  have small : c.toNat ≤ 32 := space
  unfold Plain
  refine ⟨?_, ?_, ?_, ?_, ?_⟩ <;>
  · rintro rfl
    exact absurd small (by decide)

theorem scanned_skipSpace (depth : Int) (s : Text) : scanned depth (skipSpace s) = scanned depth s := by
  have plain : ∀ c ∈ s.takeWhile (· ≤ 32), Plain c := by
    intro c member
    exact plain_of_space (by simpa using List.mem_takeWhile_imp member)
  have whole : s.takeWhile (· ≤ 32) ++ skipSpace s = s := List.takeWhile_append_dropWhile
  rw [← scanned_plains plain depth (skipSpace s), whole]

theorem space_of_blank {c : UInt8} (blank : isBlank c = true) : c ≤ 32 := by
  unfold isBlank at blank
  simp only [Bool.or_eq_true, decide_eq_true_eq] at blank
  rcases blank with ((rfl | rfl) | rfl) | rfl <;> decide

theorem scanned_blanks (depth : Int) (s : Text) : scanned depth (blanks s) = scanned depth s := by
  have plain : ∀ c ∈ s.takeWhile isBlank, Plain c := fun c member =>
    plain_of_space (space_of_blank (List.mem_takeWhile_imp member))
  have whole : s.takeWhile isBlank ++ blanks s = s := List.takeWhile_append_dropWhile
  rw [← scanned_plains plain depth (blanks s), whole]

/-! ### Longer texts -/

variable {t : Text} {depth : Int}

theorem blanks_append {s : Text} (some_ : blanks s ≠ []) (t : Text) : blanks (s ++ t) = blanks s ++ t := by
  unfold blanks at some_ ⊢
  rw [List.dropWhile_append, if_neg]
  simpa using some_

theorem mem_of_blanks {s : Text} {c : UInt8} (member : c ∈ blanks s) : c ∈ s :=
  (List.dropWhile_suffix isBlank).subset member

theorem shownValue_prefix {s r r' : Text} (text : 0 ∉ s ++ t) (first : shownValue s = some r)
    (second : shownValue (s ++ t) = some r') : r <+: r' := by
  unfold shownValue at first
  split at first
  next q => exact shown_prefix (fun member => text (List.mem_cons_of_mem 34 member)) first second
  next => cases first

theorem scanned_prefix {n : Nat} {s r r' : Text} (short : s.length ≤ n) (text : 0 ∉ s ++ t)
    (first : scanned depth s = some r) (second : scanned depth (s ++ t) = some r') : r <+: r' := by
  induction n generalizing depth s with
  | zero =>
    rw [List.eq_nil_of_length_eq_zero (Nat.le_zero.mp short)] at first
    cases first
  | succ n ih =>
    cases s with
    | nil => cases first
    | cons c s =>
      rw [List.length_cons] at short
      have later : 0 ∉ s ++ t := fun member => text (List.mem_cons_of_mem c member)
      rw [List.cons_append] at second
      by_cases quote : c = 34
      · subst quote
        cases read : splitString s with
        | none =>
          rw [scanned_open_string read] at first
          cases first
        | some pair =>
          obtain ⟨raw, rest⟩ := pair
          obtain ⟨whole, reads⟩ := splitString_inside read
          have longer : splitString (s ++ t) = some (raw, rest ++ t) := by
            rw [whole, List.append_assoc, List.cons_append, reads]
          have small := length_of_split read
          have behind : 0 ∉ rest ++ t := by
            intro member
            refine later ?_
            rw [whole, List.append_assoc, List.cons_append]
            exact List.mem_append_right raw (List.mem_cons_of_mem 34 member)
          cases start : blanks rest with
          | nil =>
            rw [scanned_string read (by simp [start]), ← scanned_blanks, start] at first
            cases first
          | cons d after =>
            have start' : blanks (rest ++ t) = d :: (after ++ t) := by
              rw [blanks_append (by rw [start]; exact List.cons_ne_nil d after), start, List.cons_append]
            by_cases colon : d = 58
            · subst colon
              rw [scanned_key read start] at first
              rw [scanned_key longer start'] at second
              split at first
              next skip =>
                rw [if_pos skip] at second
                exact ih (by omega) behind first second
              next found =>
                rw [if_neg found] at second
                have value : blanks (after ++ t) = blanks after ++ t := by
                  refine blanks_append (fun none => ?_) t
                  rw [none] at first
                  cases first
                rw [value] at second
                refine shownValue_prefix (fun member => behind ?_) first second
                exact mem_of_blanks (start' ▸ List.mem_cons_of_mem 58 (mem_of_blanks (value ▸ member)))
            · rw [scanned_string read (by simp [start, colon])] at first
              rw [scanned_string longer (by simp [start', colon])] at second
              exact ih (by omega) behind first second
      · rw [scanned_cons] at first second
        simp only [if_pos quote, ne_eq] at first second
        split at first
        next open_ =>
          rw [if_pos open_] at second
          exact ih (by omega) later first second
        next open_ =>
          rw [if_neg open_] at second
          split at first
          next close =>
            rw [if_pos close] at second
            exact ih (by omega) later first second
          next close =>
            rw [if_neg close] at second
            exact ih (by omega) later first second

/-! ### What the parser reads -/

theorem scanned_passed {s : Text} (read : splitString s = some (raw, rest))
    (other : depth ≠ 1 ∨ (skipSpace rest).head? ≠ some 58) : scanned depth (34 :: s) = scanned depth rest := by
  by_cases colon : (blanks rest).head? = some 58
  · obtain ⟨after, start⟩ := List.head?_eq_some_iff.mp colon
    have inside : depth ≠ 1 := by
      refine other.resolve_right (not_not.mpr ?_)
      have whole : rest.takeWhile isBlank ++ 58 :: after = rest := start ▸ List.takeWhile_append_dropWhile
      have spaces : ∀ c ∈ rest.takeWhile isBlank, decide (c ≤ 32) = true := fun c member =>
        decide_eq_true (space_of_blank (List.mem_takeWhile_imp member))
      have skipped : skipSpace (rest.takeWhile isBlank ++ 58 :: after) = 58 :: after := by
        rw [skipSpace, List.dropWhile_append_of_pos spaces]
        rfl
      rw [whole] at skipped
      rw [skipped]
      rfl
    rw [scanned_key read start, if_pos (.inl inside)]
  · exact scanned_string read colon depth

theorem plain_of_number {c : UInt8} (number : isNumberByte c = true) : Plain c := by
  unfold Plain
  refine ⟨?_, ?_, ?_, ?_, ?_⟩ <;>
  · rintro rfl
    exact absurd number (by decide)

theorem scanned_number {s : Text} {json : Json} (read : parseNumber s = some (json, t)) (depth : Int) :
    scanned depth s = scanned depth t := by
  obtain ⟨⟨value, left⟩, number, same⟩ := Option.map_eq_some_iff.mp read
  cases same
  obtain ⟨front, whole⟩ := strtod_rest number
  have plain : ∀ c ∈ front, Plain c := by
    intro c member
    have inside : c ∈ s.takeWhile isNumberByte := whole ▸ List.mem_append_left left member
    exact plain_of_number (List.mem_takeWhile_imp inside)
  have split_ : s = front ++ (left ++ s.dropWhile isNumberByte) := by
    rw [← List.append_assoc, whole, List.takeWhile_append_dropWhile]
  rw [split_, scanned_plains plain, ← split_]

theorem scanned_literal {word s : Text} {json result : Json} {n : Nat} (size : word.length = n)
    (plain : ∀ c ∈ word, Plain c)
    (read : (if word.isPrefixOf s then some (json, s.drop n) else none) = some (result, t)) (depth : Int) :
    scanned depth s = scanned depth t := by
  obtain ⟨rfl, -, -⟩ := local_literal size read
  exact scanned_plains plain depth t

theorem split_of_string {s value after : Text} (read : parseString s = some (value, after)) :
    ∃ q raw, s = 34 :: q ∧ splitString q = some (raw, after) ∧ (decode raw).map cstr = some value := by
  unfold parseString at read
  split at read
  next q =>
    cases split_ : splitString q with
    | none =>
      rw [split_] at read
      cases read
    | some pair =>
      obtain ⟨raw, rest⟩ := pair
      rw [split_] at read
      obtain ⟨v, decoded, same⟩ := Option.map_eq_some_iff.mp read
      cases same
      exact ⟨q, raw, rfl, split_, by rw [decode, decoded]; rfl⟩
  next => cases read

structure Passes (fuel : Nat) : Prop where
  value : ∀ {limit : Nat} {s t : Text} {json : Json}, parseValue fuel limit s = some (json, t) → ∀ depth : Int,
    2 ≤ depth ∨ 1 ≤ depth ∧ (skipSpace t).head? ≠ some 58 → scanned depth s = scanned depth t
  items : ∀ {limit : Nat} {s t : Text} {items : List Json}, parseItems fuel limit s = some (items, t) →
    ∀ depth : Int, 2 ≤ depth → scanned depth s = scanned (depth - 1) t
  members : ∀ {limit : Nat} {s t : Text} {members : List (Text × Json)},
    parseMembers fuel limit s = some (members, t) → ∀ depth : Int, 2 ≤ depth → scanned depth s = scanned (depth - 1) t

theorem scanned_empty {s : Text} {c : UInt8} (close : c = 125 ∨ c = 93) (first : (skipSpace s).head? = some c)
    (depth : Int) :
    scanned (depth + 1) s = scanned depth (skipSpace s).tail := by
  obtain ⟨after, start⟩ := List.head?_eq_some_iff.mp first
  rw [← scanned_skipSpace, start, scanned_close close, Int.add_sub_cancel]
  rfl

theorem passes_value {fuel : Nat} (ih : Passes fuel) {limit : Nat} {s : Text} {json : Json}
    (read : parseValue (fuel + 1) limit s = some (json, t)) (depth : Int)
    (inside : 2 ≤ depth ∨ 1 ≤ depth ∧ (skipSpace t).head? ≠ some 58) : scanned depth s = scanned depth t := by
  have deep : 2 ≤ depth + 1 := by
    rcases inside with two | ⟨one, -⟩
    · omega
    · omega
  cases s with
  | nil =>
    rw [parseValue_nil] at read
    cases read
  | cons c s =>
    by_cases n : c = 110
    · subst n
      rw [parseValue_null] at read
      exact scanned_literal (by simp [ascii]) (by simp [ascii, Plain]) read depth
    by_cases f : c = 102
    · subst f
      rw [parseValue_false] at read
      exact scanned_literal (by simp [ascii]) (by simp [ascii, Plain]) read depth
    by_cases tr : c = 116
    · subst tr
      rw [parseValue_true] at read
      exact scanned_literal (by simp [ascii]) (by simp [ascii, Plain]) read depth
    rw [parseValue_cons n f tr] at read
    split at read
    next quote =>
      obtain ⟨⟨value, after⟩, string, same⟩ := Option.map_eq_some_iff.mp read
      cases same
      obtain ⟨q, raw, whole, split_, -⟩ := split_of_string string
      rw [whole]
      refine scanned_passed split_ ?_
      rcases inside with two | ⟨-, other⟩
      · exact .inl (by omega)
      · exact .inr other
    next quote =>
      split at read
      next number => exact scanned_number read depth
      next number =>
        split at read
        next bracket =>
          rw [scanned_open (.inr bracket)]
          split at read
          · cases read
          · split at read
            next empty =>
              cases read
              exact scanned_empty (.inr rfl) empty depth
            next =>
              obtain ⟨⟨items, after⟩, items_, same⟩ := Option.map_eq_some_iff.mp read
              cases same
              rw [ih.items items_ _ deep, Int.add_sub_cancel]
        next bracket =>
          split at read
          next brace =>
            rw [scanned_open (.inl brace)]
            split at read
            · cases read
            · split at read
              next empty =>
                cases read
                exact scanned_empty (.inl rfl) empty depth
              next =>
                obtain ⟨⟨members, after⟩, members_, same⟩ := Option.map_eq_some_iff.mp read
                cases same
                rw [ih.members members_ _ deep, Int.add_sub_cancel]
          next => cases read

theorem passes_items {fuel : Nat} (ih : Passes fuel) {limit : Nat} {s : Text} {items : List Json}
    (read : parseItems (fuel + 1) limit s = some (items, t)) (depth : Int) (deep : 2 ≤ depth) :
    scanned depth s = scanned (depth - 1) t := by
  unfold parseItems at read
  cases item : parseValue fuel limit (skipSpace s) with
  | none =>
    rw [item] at read
    cases read
  | some pair =>
    obtain ⟨json, rest⟩ := pair
    rw [item] at read
    dsimp only at read
    rw [← scanned_skipSpace, ih.value item depth (.inl deep), ← scanned_skipSpace]
    cases next : skipSpace rest with
    | nil =>
      rw [next] at read
      cases read
    | cons c after =>
      rw [next] at read
      dsimp only at read
      split at read
      next comma =>
        obtain ⟨⟨items, behind⟩, more, same⟩ := Option.map_eq_some_iff.mp read
        cases same
        rw [comma, scanned_plain (by simp [Plain]), ih.items more depth deep]
      next =>
        split at read
        next close =>
          cases read
          rw [scanned_close (.inr close)]
        next => cases read

/-- A member: its key, the colon and its value, and the byte behind them. -/
structure Member (fuel limit : Nat) (s : Text) (key : Text) (json : Json) (c : UInt8) (after : Text) where
  q : Text
  raw : Text
  rest : Text
  value : Text
  left : Text
  start : skipSpace s = 34 :: q
  split : splitString q = some (raw, rest)
  decoded : (decode raw).map cstr = some key
  colon : skipSpace rest = 58 :: value
  read : parseValue fuel limit (skipSpace value) = some (json, left)
  next : skipSpace left = c :: after

theorem member_of_parse {fuel limit : Nat} {s : Text} {members : List (Text × Json)}
    (read : parseMembers (fuel + 1) limit s = some (members, t)) :
    ∃ key json c after, Nonempty (Member fuel limit s key json c after) ∧
      (c = 125 ∧ members = [(key, json)] ∧ t = after ∨
        c = 44 ∧ ∃ more, members = (key, json) :: more ∧ parseMembers fuel limit after = some (more, t)) := by
  unfold parseMembers at read
  cases name : parseString (skipSpace s) with
  | none =>
    rw [name] at read
    cases read
  | some pair =>
    obtain ⟨key, rest⟩ := pair
    rw [name] at read
    dsimp only at read
    obtain ⟨q, raw, start, split_, decoded⟩ := split_of_string name
    cases colon : skipSpace rest with
    | nil =>
      rw [colon] at read
      cases read
    | cons d value =>
      rw [colon] at read
      dsimp only at read
      split at read
      · cases read
      next same =>
        rw [not_not] at same
        subst same
        cases item : parseValue fuel limit (skipSpace value) with
        | none =>
          rw [item] at read
          cases read
        | some pair =>
          obtain ⟨json, left⟩ := pair
          rw [item] at read
          dsimp only at read
          cases next_ : skipSpace left with
          | nil =>
            rw [next_] at read
            cases read
          | cons c after =>
            rw [next_] at read
            dsimp only at read
            refine ⟨key, json, c, after, ⟨⟨q, raw, rest, value, left, start, split_, decoded, colon, item, next_⟩⟩, ?_⟩
            split at read
            next comma =>
              obtain ⟨⟨more, behind⟩, parsed, same⟩ := Option.map_eq_some_iff.mp read
              cases same
              exact .inr ⟨comma, more, rfl, parsed⟩
            next =>
              split at read
              next brace =>
                cases read
                exact .inl ⟨brace, rfl, rfl⟩
              next => cases read

theorem Member.passed {fuel limit : Nat} {s key : Text} {json : Json} {c : UInt8} {after : Text}
    (m : Member fuel limit s key json c after) (ih : Passes fuel) (positive : 1 ≤ depth)
    (other : scanned depth (34 :: m.q) = scanned depth m.rest) (end_ : c ≠ 58) :
    scanned depth s = scanned depth (c :: after) := by
  have outside : 2 ≤ depth ∨ 1 ≤ depth ∧ (skipSpace m.left).head? ≠ some 58 := by
    refine .inr ⟨positive, ?_⟩
    rw [m.next]
    simpa using end_
  rw [← scanned_skipSpace, m.start, other, ← scanned_skipSpace, m.colon, scanned_plain (by simp [Plain]),
    ← scanned_skipSpace, ih.value m.read depth outside, ← scanned_skipSpace, m.next]

theorem passes_members {fuel : Nat} (ih : Passes fuel) {limit : Nat} {s : Text} {members : List (Text × Json)}
    (read : parseMembers (fuel + 1) limit s = some (members, t)) (depth : Int) (deep : 2 ≤ depth) :
    scanned depth s = scanned (depth - 1) t := by
  obtain ⟨key, json, c, after, ⟨m⟩, last⟩ := member_of_parse read
  have other : scanned depth (34 :: m.q) = scanned depth m.rest := scanned_passed m.split (.inl (by omega))
  rcases last with ⟨rfl, -, rfl⟩ | ⟨rfl, more, -, parsed⟩
  · rw [m.passed ih (by omega) other (by decide), scanned_close (.inl rfl)]
  · rw [m.passed ih (by omega) other (by decide), scanned_plain (by simp [Plain]), ih.members parsed depth deep]

theorem passes (fuel : Nat) : Passes fuel := by
  induction fuel with
  | zero =>
    constructor
    · intro limit s t json read
      cases read
    · intro limit s t items read
      cases read
    · intro limit s t members read
      cases read
  | succ fuel ih =>
    exact ⟨fun read depth => passes_value ih read depth, fun read depth => passes_items ih read depth,
      fun read depth => passes_members ih read depth⟩

end CognitiveOs.Llm.Preview

/-!
## The preview is the answer

Of a whole JSON object the scan gives the string of its answer, so what the stream shows one after
the other is that string.
-/

namespace CognitiveOs.Llm.Preview

open Infra Cjson

def Tidy (s : Text) : Prop :=
  ∀ c ∈ s, c ≤ 32 → c ≠ 0 ∧ isBlank c = true

instance (s : Text) : Decidable (Tidy s) :=
  inferInstanceAs (Decidable (∀ c ∈ s, c ≤ 32 → c ≠ 0 ∧ isBlank c = true))

theorem Tidy.text {s : Text} (tidy : Tidy s) : 0 ∉ s :=
  fun member => (tidy 0 member (by decide)).1 rfl

theorem Tidy.mono {s t : Text} (tidy : Tidy s) (part : t ⊆ s) : Tidy t :=
  fun c member small => tidy c (part member) small

theorem Tidy.blanks {s : Text} (tidy : Tidy s) : blanks s = skipSpace s := by
  induction s with
  | nil => rfl
  | cons c s ih =>
    have later := ih (tidy.mono (List.subset_cons_self c s))
    unfold Preview.blanks skipSpace at later ⊢
    by_cases small : c ≤ 32
    · rw [List.dropWhile_cons_of_pos (tidy c List.mem_cons_self small).2, later]
      exact (@List.dropWhile_cons_of_pos _ (fun b => decide (b ≤ 32)) c s (decide_eq_true small)).symm
    · have other : ¬ isBlank c = true := fun blank => small (space_of_blank blank)
      rw [List.dropWhile_cons_of_neg other, List.dropWhile_cons_of_neg (by simpa using small)]

/-! ### Members -/

section Member

variable {fuel limit : Nat} {s key after : Text} {json : Json} {c : UInt8}

theorem Member.rest_subset (m : Member fuel limit s key json c after) : m.raw ⊆ s ∧ m.rest ⊆ s := by
  have inside : m.q ⊆ s := by
    intro b member
    have there : b ∈ skipSpace s := m.start ▸ List.mem_cons_of_mem 34 member
    exact (List.dropWhile_suffix _).subset there
  have whole := (splitString_inside m.split).1
  constructor
  · exact fun b member => inside (whole ▸ List.mem_append_left _ member)
  · exact fun b member => inside (whole ▸ List.mem_append_right _ (List.mem_cons_of_mem 34 member))

theorem Member.value_subset (m : Member fuel limit s key json c after) : m.value ⊆ s := by
  intro b member
  have there : b ∈ skipSpace m.rest := m.colon ▸ List.mem_cons_of_mem 58 member
  exact m.rest_subset.2 ((List.dropWhile_suffix _).subset there)

theorem Member.after_subset (m : Member fuel limit s key json c after) (other : isNumberByte c = false) :
    after ⊆ s := by
  obtain ⟨part, whole, -⟩ := (local_read fuel).value m.read (ends_of_space m.next other)
  intro b member
  have left : b ∈ skipSpace m.left := m.next ▸ List.mem_cons_of_mem c member
  have there : b ∈ skipSpace m.value := whole ▸ List.mem_append_right part ((List.dropWhile_suffix _).subset left)
  exact m.value_subset ((List.dropWhile_suffix _).subset there)

theorem Member.quoted (m : Member fuel limit s key json c after) (text : 0 ∉ s) : quoted m.raw = some key := by
  rw [quoted_eq ((splitString_inside m.split).2 []) fun member => text (m.rest_subset.1 member)]
  exact m.decoded

theorem source_of_value {value left : Text} (read : parseValue fuel limit value = some (json, left)) :
    (∀ x, json = .string x →
        ∃ q raw, value = 34 :: q ∧ splitString q = some (raw, left) ∧ (decode raw).map cstr = some x) ∧
      ∀ members, json = .object members → ∃ body, value = 123 :: body ∧
        (members = [] ∨ ∃ rounds, parseMembers rounds (limit + 1) body = some (members, left)) := by
  cases fuel with
  | zero => cases read
  | succ fuel =>
    cases value with
    | nil =>
      rw [parseValue_nil] at read
      cases read
    | cons b value =>
      by_cases n : b = 110
      · subst n
        rw [parseValue_null] at read
        split at read <;> cases read
        simp
      by_cases f : b = 102
      · subst f
        rw [parseValue_false] at read
        split at read <;> cases read
        simp
      by_cases tr : b = 116
      · subst tr
        rw [parseValue_true] at read
        split at read <;> cases read
        simp
      rw [parseValue_cons n f tr] at read
      split at read
      next =>
        obtain ⟨⟨y, after⟩, string, same⟩ := Option.map_eq_some_iff.mp read
        cases same
        refine ⟨?_, by simp⟩
        rintro x same
        cases same
        exact split_of_string string
      next =>
        split at read
        next =>
          obtain ⟨⟨value, left⟩, -, same⟩ := Option.map_eq_some_iff.mp read
          cases same
          simp
        next =>
          split at read
          next =>
            split at read
            · cases read
            · split at read
              · cases read
                simp
              · obtain ⟨pair, -, same⟩ := Option.map_eq_some_iff.mp read
                cases same
                simp
          next =>
            split at read
            next brace =>
              subst brace
              split at read
              · cases read
              · split at read
                · cases read
                  refine ⟨by simp, ?_⟩
                  rintro members same
                  cases same
                  exact ⟨value, rfl, .inl rfl⟩
                · obtain ⟨⟨members, after⟩, parsed, same⟩ := Option.map_eq_some_iff.mp read
                  cases same
                  refine ⟨by simp, ?_⟩
                  rintro members same
                  cases same
                  exact ⟨value, rfl, .inr ⟨fuel, parsed⟩⟩
            next => cases read

theorem Member.shown {x : Text} (m : Member fuel limit s (ascii "answer") (.string x) c after) (tidy : Tidy s) :
    scanned 1 s = some x := by
  have colon : Preview.blanks m.rest = 58 :: m.value := by rw [(tidy.mono m.rest_subset.2).blanks, m.colon]
  have blank : Preview.blanks m.value = skipSpace m.value := (tidy.mono m.value_subset).blanks
  obtain ⟨q, raw, whole, split_, decoded⟩ := (source_of_value m.read).1 x rfl
  obtain ⟨v, read, rfl⟩ := Option.map_eq_some_iff.mp decoded
  have clean : 0 ∉ q := by
    intro member
    have there : 0 ∈ skipSpace m.value := whole ▸ List.mem_cons_of_mem 34 member
    exact tidy.text (m.value_subset ((List.dropWhile_suffix _).subset there))
  rw [← scanned_skipSpace, m.start, scanned_key m.split colon, if_neg (by simp [m.quoted tidy.text]), blank, whole]
  exact shown_whole clean split_ read

end Member

theorem scanned_members {fuel limit : Nat} {s t x : Text} {members : List (Text × Json)}
    (read : parseMembers fuel limit s = some (members, t)) (tidy : Tidy s)
    (answer : (members.find? fun m => m.1 = ascii "answer").map Prod.snd = some (.string x)) :
    scanned 1 s = some x := by
  induction fuel generalizing s members with
  | zero => cases read
  | succ fuel ih =>
    obtain ⟨key, json, c, after, ⟨m⟩, last⟩ := member_of_parse read
    by_cases same : key = ascii "answer"
    · subst same
      have first : json = .string x := by
        rcases last with ⟨-, rfl, -⟩ | ⟨-, more, rfl, -⟩ <;> simpa using answer
      subst first
      exact m.shown tidy
    · have other : scanned 1 (34 :: m.q) = scanned 1 m.rest := by
        have colon : blanks m.rest = 58 :: m.value := by rw [(tidy.mono m.rest_subset.2).blanks, m.colon]
        rw [scanned_key m.split colon, if_pos (.inr (by simpa [m.quoted tidy.text] using same))]
      rcases last with ⟨rfl, rfl, rfl⟩ | ⟨rfl, more, rfl, parsed⟩
      · simp [same] at answer
      · rw [m.passed (passes fuel) (Int.le_refl 1) other (by decide), scanned_plain (by simp [Plain])]
        refine ih parsed (tidy.mono (m.after_subset (by decide))) ?_
        simpa [same] using answer

/-- A text that is read as an object, by a parser that knows no other white space. -/
structure ObjectOf (s : Text) (members : List (Text × Json)) : Prop where
  tidy : Tidy s
  parsed : parse s = some (.object members)

theorem nativeAnswerPrefix_eq (args : Text) : nativeAnswerPrefix args = scanned 0 (cstr args) :=
  rfl

theorem scanned_skipBom (depth : Int) (s : Text) : scanned depth (skipBom s) = scanned depth s := by
  unfold skipBom
  split
  next mark =>
    have whole : [0xEF, 0xBB, 0xBF] ++ s.drop 3 = s := by rw [← mark.2, List.take_append_drop]
    have plain : ∀ c ∈ ([0xEF, 0xBB, 0xBF] : Text), Plain c := by simp [Plain]
    rw [← scanned_plains plain depth (s.drop 3), whole]
  next => rfl

theorem skipBom_subset (s : Text) : skipBom s ⊆ s := by
  unfold skipBom
  split
  · exact List.drop_subset 3 s
  · exact List.Subset.refl s

theorem whole_preview {s x : Text} {members : List (Text × Json)} (object : ObjectOf s members)
    (answer : (Json.object members).get? (ascii "answer") = some (.string x)) : nativeAnswerPrefix s = some x := by
  have clean := cstr_eq_self object.tidy.text
  obtain ⟨⟨json, left⟩, read, same⟩ := Option.map_eq_some_iff.mp object.parsed
  obtain rfl : json = .object members := same
  rw [parseWithEnd, clean] at read
  obtain ⟨body, whole, parsed⟩ := (source_of_value read).2 members rfl
  rw [nativeAnswerPrefix_eq, clean, ← scanned_skipBom, ← scanned_skipSpace, whole, scanned_open (.inl rfl)]
  rcases parsed with rfl | ⟨rounds, parsed⟩
  · cases answer
  · refine scanned_members parsed (object.tidy.mono fun b member => ?_) answer
    have there : b ∈ skipSpace (skipBom s) := whole ▸ List.mem_cons_of_mem 123 member
    exact skipBom_subset s ((List.dropWhile_suffix _).subset there)

variable {p : Text}

theorem preview_prefix {s r r' : Text} (shorter : p <+: s) (first : nativeAnswerPrefix p = some r)
    (second : nativeAnswerPrefix s = some r') : r <+: r' := by
  obtain ⟨t, rfl⟩ := shorter
  rw [nativeAnswerPrefix_eq] at first second
  obtain ⟨u, same, -⟩ := cstr_append p t
  rw [same] at second
  exact scanned_prefix (Nat.le_refl _) (same ▸ not_mem_cstr (p ++ t)) first second

/-! ### The stream -/

variable {v : Showing}

/-- What has been shown is the preview of what has come in, or of a part of it. -/
structure Follows (v : Showing) (p : Text) : Prop where
  part : p <+: v.args
  length : v.exposed = v.increments.flatten.length
  shows : v.increments.flatten = [] ∨ nativeAnswerPrefix p = some v.increments.flatten

theorem Follows.look (follows : Follows v p) :
    ∃ p', Follows v.look p' ∧ v.look.args = v.args ∧
      ∀ r, nativeAnswerPrefix v.args = some r → v.look.increments.flatten = r := by
  unfold Showing.look
  cases read : nativeAnswerPrefix v.args with
  | none => exact ⟨p, follows, rfl, by simp⟩
  | some r =>
    have part : v.increments.flatten <+: r := by
      rcases follows.shows with none | first
      · rw [none]
        exact List.nil_prefix
      · exact preview_prefix follows.part first read
    dsimp only
    split
    next longer =>
      have whole : (v.increments ++ [r.drop v.exposed]).flatten = r := by
        rw [List.flatten_append, List.flatten_singleton, follows.length]
        obtain ⟨u, rfl⟩ := part
        rw [List.drop_left]
      refine ⟨v.args, ⟨List.prefix_rfl, ?_, ?_⟩, rfl, ?_⟩
      · dsimp only
        rw [whole]
      · right
        dsimp only
        rw [whole, read]
      · intro r' same
        cases same
        exact whole
    next shorter =>
      have same : v.increments.flatten = r := by
        refine part.eq_of_length (Nat.le_antisymm part.length_le ?_)
        rw [← follows.length]
        exact Nat.le_of_not_lt shorter
      refine ⟨p, follows, rfl, ?_⟩
      intro r' equal
      cases equal
      exact same

theorem Follows.feed (follows : Follows v p) (fragment : Text × Bool) :
    ∃ p', Follows (v.feed fragment) p' ∧ (v.feed fragment).args = v.args ++ fragment.1 := by
  have longer : Follows { v with args := v.args ++ fragment.1 } p :=
    ⟨follows.part.trans (List.prefix_append _ _), follows.length, follows.shows⟩
  unfold Showing.feed
  dsimp only
  split
  · obtain ⟨p', looked, args, -⟩ := longer.look
    exact ⟨p', looked, args⟩
  · exact ⟨p, longer, rfl⟩

theorem Follows.run (follows : Follows v p) (fragments : List (Text × Bool)) :
    ∃ p', Follows (fragments.foldl Showing.feed v) p' ∧
      (fragments.foldl Showing.feed v).args = v.args ++ (fragments.map Prod.fst).flatten := by
  induction fragments generalizing v p with
  | nil => exact ⟨p, follows, by simp⟩
  | cons fragment fragments ih =>
    obtain ⟨p', next, args⟩ := follows.feed fragment
    obtain ⟨p'', last, whole⟩ := ih next
    exact ⟨p'', last, by rw [List.foldl_cons, whole, args]; simp⟩

/-- The preview is monotone, it shows a part of the answer of a whole object and in the end all of
it, and what is shown one after the other is the answer. -/
theorem preview_faithful (fragments : List (Text × Bool)) :
    (∀ p s r r', p <+: s → nativeAnswerPrefix p = some r → nativeAnswerPrefix s = some r' → r <+: r') ∧
      ∀ members x, ObjectOf (fragments.map Prod.fst).flatten members →
        (Json.object members).get? (ascii "answer") = some (.string x) →
          nativeAnswerPrefix (fragments.map Prod.fst).flatten = some x ∧
            (∀ p r, p <+: (fragments.map Prod.fst).flatten → nativeAnswerPrefix p = some r → r <+: x) ∧
              (preview fragments).increments.flatten = x := by
  refine ⟨fun p s r r' => preview_prefix, fun members x object answer => ?_⟩
  have last := whole_preview object answer
  refine ⟨last, fun p r part first => preview_prefix part first last, ?_⟩
  have start : Follows {} [] := ⟨List.nil_prefix, rfl, .inl rfl⟩
  obtain ⟨p, follows, args⟩ := start.run fragments
  obtain ⟨-, -, -, shown⟩ := follows.look
  refine shown x ?_
  rw [args]
  exact last

def answerText (value : Text) : Text :=
  123 :: (([] ++ (Json.printString (ascii "answer") ++ ([] ++ 58 :: ([] ++ (Json.printString value ++ []))))) ++ [125])

theorem object_answerText {value : Text} (text : 0 ∉ value) (tidy : Tidy (answerText value)) :
    ObjectOf (answerText value) [(ascii "answer", .string value)] := by
  have clean : 0 ∉ ascii "answer" := by decide
  have names : Names (Json.printString (ascii "answer")) (ascii "answer") :=
    ⟨(printString_clean _).1, fun rest => parseString_print clean rest⟩
  have none : Grammar.White [] := fun c member => absurd member List.not_mem_nil
  have writes : Writes (answerText value) (.object [(ascii "answer", .string value)]) := by
    refine ⟨1, [], answerText value, [], by decide, none, ?_, none, by simp⟩
    exact .object (.one none names none none (.scalar trivial (shows_printString text)) none)
  exact ⟨tidy, writes.parse_eq⟩

def cutAnswer : List (Text × Bool) :=
  [((answerText [97, 10, 98]).take 13, true), ((answerText [97, 10, 98]).drop 13, true)]

theorem preview_faithful_cut : (preview cutAnswer).increments.flatten = [97, 10, 98] := by
  have whole : (cutAnswer.map Prod.fst).flatten = answerText [97, 10, 98] := by simp [cutAnswer]
  have object := @object_answerText [97, 10, 98] (by decide) (by decide +kernel)
  rw [← whole] at object
  have faithful := (preview_faithful cutAnswer).2 _ [97, 10, 98] object (by simp [Json.get?])
  exact faithful.2.2

end CognitiveOs.Llm.Preview
