import CognitiveOs.Infra.Cjson
import Mathlib.Data.List.Induction

/-!
# Values in longer texts

A value that `cJSON_Parse` reads takes up a part of the text of its own: it is the same in front of
every other text. Only a number at the very end of a text can change.
-/

namespace CognitiveOs.Infra.Cjson

variable {after : Text} {c : UInt8}

theorem skipSpace_split {s : Text} (next : skipSpace s = c :: after) :
    ∃ spaces, s = spaces ++ c :: after ∧ ∀ t, skipSpace (spaces ++ c :: t) = c :: t := by
  refine ⟨s.takeWhile (· ≤ 32), ?_, fun t => ?_⟩
  · rw [← next]
    exact List.takeWhile_append_dropWhile.symm
  · have visible : ¬ c ≤ 32 := by
      have head := List.head?_dropWhile_not (· ≤ (32 : UInt8)) s
      rw [show s.dropWhile (· ≤ 32) = c :: after from next] at head
      simpa using head
    have shown : ¬ (decide (c ≤ 32) = true) := by simpa using visible
    have spaces : ∀ b ∈ s.takeWhile (· ≤ 32), decide (b ≤ 32) = true := by
      intro b member
      simpa using List.mem_takeWhile_imp member
    rw [skipSpace, List.dropWhile_append_of_pos spaces]
    exact List.dropWhile_cons_of_neg shown

theorem skipSpace_append {s : Text} (visible : skipSpace s ≠ []) (t : Text) :
    skipSpace (s ++ t) = skipSpace s ++ t := by
  unfold skipSpace at visible ⊢
  rw [List.dropWhile_append, if_neg]
  simpa using visible

theorem splitString_local {s raw : Text} (read : splitString s = some (raw, after)) :
    ∃ part, s = part ++ after ∧ ∀ t, splitString (part ++ t) = some (raw, t) := by
  fun_induction splitString s generalizing raw after with
  | case1 => cases read
  | case2 rest =>
    cases read
    exact ⟨[34], rfl, fun t => splitString_quote t⟩
  | case3 => cases read
  | case4 escaped rest quote ih =>
    obtain ⟨⟨raw', after'⟩, found, same⟩ := Option.map_eq_some_iff.mp read
    cases same
    obtain ⟨part, rfl, reads⟩ := ih found
    refine ⟨92 :: escaped :: part, rfl, fun t => ?_⟩
    rw [List.cons_append, List.cons_append, splitString_slash, reads]
    rfl
  | case5 c rest quote slash ih =>
    obtain ⟨⟨raw', after'⟩, found, same⟩ := Option.map_eq_some_iff.mp read
    cases same
    obtain ⟨part, rfl, reads⟩ := ih found
    refine ⟨c :: part, rfl, fun t => ?_⟩
    rw [List.cons_append, splitString_char quote slash, reads]
    rfl

theorem parseString_local {s value : Text} (read : parseString s = some (value, after)) :
    ∃ part, s = 34 :: part ++ after ∧ ∀ t, parseString (34 :: part ++ t) = some (value, t) := by
  unfold parseString at read
  split at read
  · next s =>
    cases split : splitString s with
    | none => rw [split] at read; cases read
    | some pair =>
      rcases pair with ⟨raw, rest⟩
      rw [split] at read
      obtain ⟨text, unescaped, same⟩ := Option.map_eq_some_iff.mp read
      cases same
      obtain ⟨part, rfl, reads⟩ := splitString_local split
      refine ⟨part, rfl, fun t => ?_⟩
      rw [List.cons_append]
      simp only [parseString, reads t, unescaped, Option.map_some]
  · cases read

/-! ### Numbers -/

theorem scanExponent_rest (s : Text) : (scanExponent s).2 <:+ s := by
  cases s with
  | nil => exact List.suffix_refl _
  | cons e s =>
    have digits {t : Text} (within : t <:+ s) (n : Int) :
        (if (e = 101 ∨ e = 69) ∧ t.takeWhile isDigit ≠ [] then (n, t.dropWhile isDigit)
          else (0, e :: s)).2 <:+ e :: s := by
      split
      · exact ((List.dropWhile_suffix _).trans within).trans (List.suffix_cons ..)
      · exact List.suffix_refl _
    unfold scanExponent
    simp only
    split
    · exact digits (List.suffix_cons ..) _
    · exact digits (List.suffix_cons ..) _
    · exact digits (List.suffix_refl _) _

theorem fraction_rest (t : Text) :
    (match t with
      | 46 :: u => (u.takeWhile isDigit, u.dropWhile isDigit)
      | _ => ([], t)).2 <:+ t := by
  split
  · exact (List.dropWhile_suffix _).trans (List.suffix_cons ..)
  · exact List.suffix_refl _

theorem strtod_rest {s rest : Text} {value : Rat} (read : strtod s = some (value, rest)) : rest <:+ s := by
  have unsigned {t : Text} (within : t <:+ s) := (scanExponent_rest _).trans
    ((fraction_rest (t.dropWhile isDigit)).trans ((List.dropWhile_suffix _).trans within))
  unfold strtod at read
  simp only at read
  split at read
  · obtain ⟨-, same⟩ := Option.ite_none_left_eq_some.mp read
    rw [← (Prod.mk.inj (Option.some.inj same)).2]
    exact unsigned (List.suffix_cons ..)
  · obtain ⟨-, same⟩ := Option.ite_none_left_eq_some.mp read
    rw [← (Prod.mk.inj (Option.some.inj same)).2]
    exact unsigned (List.suffix_cons ..)
  · obtain ⟨-, same⟩ := Option.ite_none_left_eq_some.mp read
    rw [← (Prod.mk.inj (Option.some.inj same)).2]
    exact unsigned (List.suffix_refl _)

theorem parseNumber_local {s rest : Text} {json : Json} (read : parseNumber s = some (json, c :: rest))
    (other : isNumberByte c = false) :
    ∃ part, s = part ++ c :: rest ∧ part ≠ [] ∧
      ∀ d t, isNumberByte d = false → parseNumber (part ++ d :: t) = some (json, d :: t) := by
  obtain ⟨⟨value, left⟩, scanned, same⟩ := Option.map_eq_some_iff.mp read
  obtain ⟨rfl, ends⟩ := Prod.mk.inj same
  have none_left : left = [] := by
    cases left with
    | nil => rfl
    | cons d left =>
      obtain ⟨rfl, -⟩ := List.cons.inj ends
      have inside : d ∈ s.takeWhile isNumberByte := (strtod_rest scanned).subset List.mem_cons_self
      have number := List.mem_takeWhile_imp inside
      rw [other] at number
      cases number
  subst none_left
  refine ⟨s.takeWhile isNumberByte, ?_, ?_, fun d t ending => ?_⟩
  · rw [← show s.dropWhile isNumberByte = c :: rest from ends]
    exact List.takeWhile_append_dropWhile.symm
  · intro nothing
    rw [nothing] at scanned
    cases scanned
  · have ending : ¬ isNumberByte d = true := by simp [ending]
    have numbers : ∀ b ∈ s.takeWhile isNumberByte, isNumberByte b = true :=
      fun b member => List.mem_takeWhile_imp member
    unfold parseNumber
    rw [List.takeWhile_append_of_pos numbers, List.dropWhile_append_of_pos numbers,
      List.takeWhile_cons_of_neg ending, List.dropWhile_cons_of_neg ending, List.append_nil, scanned]
    rfl

/-! ### Values -/

variable {fuel depth : Nat} {members : List (Text × Json)}

theorem parseValue_nil (fuel depth : Nat) : parseValue fuel depth [] = none := by
  cases fuel <;> rfl

theorem parseValue_cons (n : c ≠ 110) (f : c ≠ 102) (t : c ≠ 116) (fuel depth : Nat) (rest : Text) :
    parseValue (fuel + 1) depth (c :: rest) =
      if c = 34 then (parseString (c :: rest)).map fun (value, after) => (.string value, after)
      else if c = 45 ∨ isDigit c then parseNumber (c :: rest)
      else if c = 91 then
        if nestingLimit ≤ depth then none
        else if (skipSpace rest).head? = some 93 then some (.array [], (skipSpace rest).tail)
        else (parseItems fuel (depth + 1) rest).map fun (items, after) => (.array items, after)
      else if c = 123 then
        if nestingLimit ≤ depth then none
        else if (skipSpace rest).head? = some 125 then some (.object [], (skipSpace rest).tail)
        else (parseMembers fuel (depth + 1) rest).map fun (members, after) => (.object members, after)
      else none := by
  have null : (ascii "null").isPrefixOf (c :: rest) = false := by
    rw [show ascii "null" = [110, 117, 108, 108] by simp [ascii]]
    simp [List.isPrefixOf_cons_cons, Ne.symm n]
  have false_ : (ascii "false").isPrefixOf (c :: rest) = false := by
    rw [show ascii "false" = [102, 97, 108, 115, 101] by simp [ascii]]
    simp [List.isPrefixOf_cons_cons, Ne.symm f]
  have true_ : (ascii "true").isPrefixOf (c :: rest) = false := by
    rw [show ascii "true" = [116, 114, 117, 101] by simp [ascii]]
    simp [List.isPrefixOf_cons_cons, Ne.symm t]
  rw [parseValue, null, false_, true_]
  rfl

theorem parseValue_null (fuel depth : Nat) (s : Text) :
    parseValue (fuel + 1) depth (110 :: s) =
      if (ascii "null").isPrefixOf (110 :: s) then some (.null, (110 :: s).drop 4) else none := by
  rw [parseValue, show ascii "false" = [102, 97, 108, 115, 101] by simp [ascii],
    show ascii "true" = [116, 114, 117, 101] by simp [ascii]]
  simp [List.isPrefixOf_cons_cons, isDigit]

theorem parseValue_false (fuel depth : Nat) (s : Text) :
    parseValue (fuel + 1) depth (102 :: s) =
      if (ascii "false").isPrefixOf (102 :: s) then some (.bool false, (102 :: s).drop 5) else none := by
  rw [parseValue, show ascii "null" = [110, 117, 108, 108] by simp [ascii],
    show ascii "true" = [116, 114, 117, 101] by simp [ascii]]
  simp [List.isPrefixOf_cons_cons, isDigit]

theorem parseValue_true (fuel depth : Nat) (s : Text) :
    parseValue (fuel + 1) depth (116 :: s) =
      if (ascii "true").isPrefixOf (116 :: s) then some (.bool true, (116 :: s).drop 4) else none := by
  rw [parseValue, show ascii "null" = [110, 117, 108, 108] by simp [ascii],
    show ascii "false" = [102, 97, 108, 115, 101] by simp [ascii]]
  simp [List.isPrefixOf_cons_cons, isDigit]

def Ends : Json → Text → Prop
  | .number _, rest => ∃ c after, rest = c :: after ∧ isNumberByte c = false
  | _, _ => True

theorem space_not_number {d : UInt8} (space : d ≤ 32) : isNumberByte d = false := by
  have small : d.toNat ≤ 32 := space
  simp only [isNumberByte, isDigit, UInt8.le_iff_toNat_le, ← UInt8.toNat_inj]
  simp
  omega

theorem ends_of_space {json : Json} {rest : Text} (next : skipSpace rest = c :: after)
    (other : isNumberByte c = false) : Ends json rest := by
  cases json with
  | number value =>
    cases rest with
    | nil => cases next
    | cons d rest =>
      refine ⟨d, rest, rfl, ?_⟩
      by_cases space : d ≤ 32
      · exact space_not_number space
      · rw [skipSpace_cons (UInt8.not_le.mp space)] at next
        obtain ⟨rfl, -⟩ := List.cons.inj next
        exact other
  | _ => trivial

/-- What is read takes up a part of the text, and is read from it with more fuel and whatever
follows. The part of an object ends in its brace. -/
structure Local (fuel : Nat) : Prop where
  value : ∀ {depth : Nat} {s rest : Text} {json : Json}, parseValue fuel depth s = some (json, rest) →
    Ends json rest → ∃ part, s = part ++ rest ∧ part ≠ [] ∧
      (∀ members, json = .object members → part.getLast? = some 125) ∧
      ∀ (more : Nat) (t : Text), fuel ≤ more → Ends json t → parseValue more depth (part ++ t) = some (json, t)
  items : ∀ {depth : Nat} {s rest : Text} {items : List Json}, parseItems fuel depth s = some (items, rest) →
    ∃ part, s = part ++ rest ∧
      ∀ (more : Nat) (t : Text), fuel ≤ more → parseItems more depth (part ++ t) = some (items, t)
  members : ∀ {depth : Nat} {s rest : Text} {members : List (Text × Json)},
    parseMembers fuel depth s = some (members, rest) →
      ∃ part, s = part ++ rest ∧ part.getLast? = some 125 ∧
        ∀ (more : Nat) (t : Text), fuel ≤ more → parseMembers more depth (part ++ t) = some (members, t)

theorem items_visible {s rest : Text} {items : List Json} (read : parseItems fuel depth s = some (items, rest)) :
    skipSpace s ≠ [] := by
  intro nothing
  cases fuel with
  | zero => cases read
  | succ fuel =>
    rw [parseItems, nothing, parseValue_nil] at read
    cases read

theorem members_visible {s rest : Text} (read : parseMembers fuel depth s = some (members, rest)) :
    skipSpace s ≠ [] := by
  intro nothing
  cases fuel with
  | zero => cases read
  | succ fuel =>
    rw [parseMembers, nothing] at read
    cases read

theorem local_literal {word s rest : Text} {json result : Json} {n : Nat} (size : word.length = n)
    (read : (if word.isPrefixOf s then some (json, s.drop n) else none) = some (result, rest)) :
    s = word ++ rest ∧ json = result ∧
      ∀ t, (if word.isPrefixOf (word ++ t) then some (json, (word ++ t).drop n) else none) = some (result, t) := by
  obtain ⟨found, same⟩ := Option.ite_none_right_eq_some.mp read
  obtain ⟨rfl, rfl⟩ := Prod.mk.inj (Option.some.inj same)
  subst size
  obtain ⟨after, rfl⟩ := List.isPrefixOf_iff_prefix.mp found
  refine ⟨by rw [List.drop_left], rfl, fun t => ?_⟩
  rw [if_pos (List.isPrefixOf_iff_prefix.mpr (List.prefix_append ..)), List.drop_left]

theorem local_empty {s : Text} (first : (skipSpace s).head? = some c) :
    ∃ spaces, s = spaces ++ c :: (skipSpace s).tail ∧ ∀ t, skipSpace (spaces ++ c :: t) = c :: t := by
  cases next : skipSpace s with
  | nil =>
    rw [next] at first
    cases first
  | cons d after =>
    rw [next] at first
    obtain rfl : d = c := by simpa using first
    exact skipSpace_split next

theorem head_local {part rest : Text} (visible : skipSpace part ≠ [])
    (other : ¬ (skipSpace (part ++ rest)).head? = some c) (t : Text) : ¬ (skipSpace (part ++ t)).head? = some c := by
  rw [skipSpace_append visible] at other ⊢
  cases skipped : skipSpace part with
  | nil => exact absurd skipped visible
  | cons d after => simpa [skipped] using other

theorem local_bracket {α : Type} (parse : Nat → Text → Option (List α × Text)) (make : List α → Json) {close : UInt8}
    (Q : Text → Prop) (closed : ∀ spaces, Q (spaces ++ [close]))
    (visible : ∀ {s rest : Text} {xs : List α}, parse fuel s = some (xs, rest) → skipSpace s ≠ [])
    (inner : ∀ {s rest : Text} {xs : List α}, parse fuel s = some (xs, rest) → ∃ part, s = part ++ rest ∧ Q part ∧
      ∀ (more : Nat) (t : Text), fuel ≤ more → parse more (part ++ t) = some (xs, t))
    {s rest : Text} {json : Json} (read : (if nestingLimit ≤ depth then none
        else if (skipSpace s).head? = some close then some (make [], (skipSpace s).tail)
        else (parse fuel s).map fun (xs, after) => (make xs, after)) = some (json, rest)) :
    ∃ part, s = part ++ rest ∧ Q part ∧ (∃ xs, json = make xs) ∧ ∀ (more : Nat) (t : Text), fuel ≤ more →
      (if nestingLimit ≤ depth then none
        else if (skipSpace (part ++ t)).head? = some close then some (make [], (skipSpace (part ++ t)).tail)
        else (parse more (part ++ t)).map fun (xs, after) => (make xs, after)) = some (json, t) := by
  split at read
  · cases read
  · next shallow =>
    simp only [if_neg shallow]
    split at read
    · next empty =>
      cases read
      obtain ⟨spaces, split, skips⟩ := local_empty empty
      refine ⟨spaces ++ [close], by rw [List.append_assoc]; exact split, closed spaces, ⟨_, rfl⟩, fun more t _ => ?_⟩
      rw [List.append_assoc, List.singleton_append, skips, if_pos (by rfl)]
      rfl
    · next some_items =>
      obtain ⟨⟨found, after⟩, between, same⟩ := Option.map_eq_some_iff.mp read
      cases same
      obtain ⟨part, rfl, holds, reads⟩ := inner between
      have visible : skipSpace part ≠ [] := by
        have alone := reads fuel [] (le_refl _)
        rw [List.append_nil] at alone
        exact visible alone
      refine ⟨part, rfl, holds, ⟨_, rfl⟩, fun more t enough => ?_⟩
      rw [if_neg (head_local visible some_items t), reads more t enough]
      rfl

theorem local_array (ih : Local fuel) {s rest : Text} {json : Json} (read : (if nestingLimit ≤ depth then none
        else if (skipSpace s).head? = some 93 then some (Json.array [], (skipSpace s).tail)
        else (parseItems fuel (depth + 1) s).map fun (items, after) => (Json.array items, after)) = some (json, rest)) :
    ∃ part, s = part ++ rest ∧ (∃ items, json = .array items) ∧ ∀ (more : Nat) (t : Text), fuel ≤ more →
      (if nestingLimit ≤ depth then none
        else if (skipSpace (part ++ t)).head? = some 93 then some (Json.array [], (skipSpace (part ++ t)).tail)
        else (parseItems more (depth + 1) (part ++ t)).map fun (items, after) => (Json.array items, after)) =
          some (json, t) := by
  obtain ⟨part, whole, -, found⟩ := local_bracket (fun fuel s => parseItems fuel (depth + 1) s) .array (fun _ => True)
    (fun _ => trivial) items_visible
    (fun between => (ih.items between).imp fun _ ⟨whole, reads⟩ => ⟨whole, trivial, reads⟩) read
  exact ⟨part, whole, found⟩

theorem local_object (ih : Local fuel) {s rest : Text} {json : Json} (read : (if nestingLimit ≤ depth then none
        else if (skipSpace s).head? = some 125 then some (Json.object [], (skipSpace s).tail)
        else (parseMembers fuel (depth + 1) s).map fun (members, after) => (Json.object members, after)) =
          some (json, rest)) :
    ∃ part, s = part ++ rest ∧ part.getLast? = some 125 ∧ (∃ members, json = .object members) ∧
      ∀ (more : Nat) (t : Text), fuel ≤ more →
      (if nestingLimit ≤ depth then none
        else if (skipSpace (part ++ t)).head? = some 125 then some (Json.object [], (skipSpace (part ++ t)).tail)
        else (parseMembers more (depth + 1) (part ++ t)).map fun (members, after) => (Json.object members, after)) =
          some (json, t) :=
  local_bracket (fun fuel s => parseMembers fuel (depth + 1) s) .object (fun part => part.getLast? = some 125)
    (fun _ => List.getLast?_concat) members_visible ih.members read

theorem local_value (ih : Local fuel) {s rest : Text} {json : Json}
    (read : parseValue (fuel + 1) depth s = some (json, rest)) (ends : Ends json rest) :
    ∃ part, s = part ++ rest ∧ part ≠ [] ∧ (∀ members, json = .object members → part.getLast? = some 125) ∧
      ∀ (more : Nat) (t : Text), fuel ≤ more → Ends json t →
        parseValue (more + 1) depth (part ++ t) = some (json, t) := by
  cases s with
  | nil => rw [parseValue_nil] at read; cases read
  | cons c s =>
    by_cases n : c = 110
    · subst n
      rw [parseValue_null] at read
      obtain ⟨split, rfl, reads⟩ := local_literal (by simp [ascii]) read
      exact ⟨ascii "null", split, by simp [ascii], by simp, fun more t _ _ =>
        (parseValue_null more depth _).trans (reads t)⟩
    by_cases f : c = 102
    · subst f
      rw [parseValue_false] at read
      obtain ⟨split, rfl, reads⟩ := local_literal (by simp [ascii]) read
      exact ⟨ascii "false", split, by simp [ascii], by simp, fun more t _ _ =>
        (parseValue_false more depth _).trans (reads t)⟩
    by_cases tr : c = 116
    · subst tr
      rw [parseValue_true] at read
      obtain ⟨split, rfl, reads⟩ := local_literal (by simp [ascii]) read
      exact ⟨ascii "true", split, by simp [ascii], by simp, fun more t _ _ =>
        (parseValue_true more depth _).trans (reads t)⟩
    rw [parseValue_cons n f tr] at read
    split at read
    · next quote =>
      obtain ⟨⟨value, after⟩, string, same⟩ := Option.map_eq_some_iff.mp read
      cases same
      obtain ⟨part, split, reads⟩ := parseString_local string
      refine ⟨34 :: part, split, List.cons_ne_nil _ _, by simp, fun more t _ _ => ?_⟩
      rw [List.cons_append, parseValue_cons (by decide) (by decide) (by decide), if_pos rfl, ← List.cons_append, reads]
      rfl
    · next quote =>
      split at read
      · next number =>
        obtain ⟨⟨value, left⟩, -, same⟩ := Option.map_eq_some_iff.mp read
        obtain ⟨rfl, -⟩ := Prod.mk.inj same
        obtain ⟨d, after, rfl, other⟩ := ends
        obtain ⟨part, split, some_part, reads⟩ := parseNumber_local read other
        cases part with
        | nil => exact absurd rfl some_part
        | cons b part =>
          obtain ⟨rfl, -⟩ := List.cons.inj split
          refine ⟨c :: part, split, some_part, by simp, fun more t _ ending => ?_⟩
          obtain ⟨e, after', rfl, other'⟩ := ending
          rw [List.cons_append, parseValue_cons n f tr, if_neg quote, if_pos number, ← List.cons_append]
          exact reads e after' other'
      · next number =>
        split at read
        · next bracket =>
          obtain ⟨part, rfl, ⟨items, rfl⟩, reads⟩ := local_array ih read
          refine ⟨c :: part, rfl, List.cons_ne_nil _ _, by simp, fun more t enough _ => ?_⟩
          rw [List.cons_append, parseValue_cons n f tr, if_neg quote, if_neg number, if_pos bracket]
          exact reads more t enough
        · next bracket =>
          split at read
          · next brace =>
            obtain ⟨part, rfl, last, ⟨members, rfl⟩, reads⟩ := local_object ih read
            refine ⟨c :: part, rfl, List.cons_ne_nil _ _, fun _ _ => ?_, fun more t enough _ => ?_⟩
            · rw [List.getLast?_cons, last]
              rfl
            · rw [List.cons_append, parseValue_cons n f tr, if_neg quote, if_neg number, if_neg bracket, if_pos brace]
              exact reads more t enough
          · cases read

theorem local_spaced (ih : Local fuel) {s left : Text} {json : Json}
    (read : parseValue fuel depth (skipSpace s) = some (json, left)) (next : skipSpace left = c :: after)
    (other : isNumberByte c = false) :
    ∃ part, s = part ++ c :: after ∧ ∀ (more : Nat) (t : Text), fuel ≤ more →
      ∃ rest, parseValue more depth (skipSpace (part ++ c :: t)) = some (json, rest) ∧ skipSpace rest = c :: t := by
  obtain ⟨value, split, some_value, -, reads⟩ := ih.value read (ends_of_space next other)
  obtain ⟨spaces, rfl, skips⟩ := skipSpace_split next
  cases value with
  | nil => exact absurd rfl some_value
  | cons d value =>
    obtain ⟨front, rfl, fronts⟩ := skipSpace_split split
    refine ⟨front ++ d :: value ++ spaces, by simp, fun more t enough => ⟨spaces ++ c :: t, ?_, skips t⟩⟩
    have shape : front ++ d :: value ++ spaces ++ c :: t = front ++ d :: (value ++ (spaces ++ c :: t)) := by simp
    rw [shape, fronts, ← List.cons_append]
    exact reads more _ enough (ends_of_space (skips t) other)

theorem local_items (ih : Local fuel) {s rest : Text} {items : List Json}
    (read : parseItems (fuel + 1) depth s = some (items, rest)) :
    ∃ part, s = part ++ rest ∧
      ∀ (more : Nat) (t : Text), fuel ≤ more → parseItems (more + 1) depth (part ++ t) = some (items, t) := by
  rw [parseItems] at read
  cases first : parseValue fuel depth (skipSpace s) with
  | none => rw [first] at read; cases read
  | some pair =>
    rcases pair with ⟨item, left⟩
    rw [first] at read
    simp only at read
    cases next : skipSpace left with
    | nil => rw [next] at read; cases read
    | cons c after =>
      rw [next] at read
      simp only at read
      split at read
      · next comma =>
        obtain ⟨⟨later, rest'⟩, others, same⟩ := Option.map_eq_some_iff.mp read
        cases same
        obtain ⟨value, rfl, reads⟩ := local_spaced ih first next (by rw [comma]; decide)
        obtain ⟨part, rfl, tail⟩ := ih.items others
        refine ⟨value ++ c :: part, by simp, fun more t enough => ?_⟩
        obtain ⟨rest, found, follows⟩ := reads more (part ++ t) enough
        rw [List.append_assoc, List.cons_append, parseItems, found]
        simp only
        rw [follows]
        simp only [if_pos comma]
        rw [tail more t enough]
        rfl
      · next comma =>
        split at read
        · next close =>
          cases read
          obtain ⟨value, rfl, reads⟩ := local_spaced ih first next (by rw [close]; decide)
          refine ⟨value ++ [c], by simp, fun more t enough => ?_⟩
          obtain ⟨rest, found, follows⟩ := reads more t enough
          rw [List.append_assoc, List.singleton_append, parseItems, found]
          simp only
          rw [follows]
          simp only [if_neg comma, if_pos close]
        · cases read

theorem local_name {s left key : Text} {d : UInt8} (keyed : parseString (skipSpace s) = some (key, left))
    (colon : skipSpace left = d :: after) (named : ¬d ≠ 58) :
    ∃ lead, s = lead ++ after ∧ ∀ (fuel depth : Nat) (u : Text),
      parseMembers (fuel + 1) depth (lead ++ u) =
        match parseValue fuel depth (skipSpace u) with
        | none => none
        | some (value, rest) =>
          match skipSpace rest with
          | [] => none
          | c :: rest =>
            if c = 44 then (parseMembers fuel depth rest).map fun (members, after) => ((key, value) :: members, after)
            else if c = 125 then some ([(key, value)], rest)
            else none := by
  obtain ⟨name, split, names⟩ := parseString_local keyed
  obtain ⟨front, rfl, fronts⟩ := skipSpace_split split
  obtain ⟨spaces, rfl, skips⟩ := skipSpace_split colon
  refine ⟨front ++ (34 :: name ++ (spaces ++ [d])), by simp, fun fuel depth u => ?_⟩
  have shape : front ++ (34 :: name ++ (spaces ++ [d])) ++ u = front ++ (34 :: name ++ (spaces ++ d :: u)) := by simp
  rw [shape, parseMembers, List.cons_append, fronts, ← List.cons_append, names]
  simp only
  rw [skips]
  exact if_neg named

theorem local_members (ih : Local fuel) {s rest : Text}
    (read : parseMembers (fuel + 1) depth s = some (members, rest)) :
    ∃ part, s = part ++ rest ∧ part.getLast? = some 125 ∧
      ∀ (more : Nat) (t : Text), fuel ≤ more → parseMembers (more + 1) depth (part ++ t) = some (members, t) := by
  rw [parseMembers] at read
  cases keyed : parseString (skipSpace s) with
  | none => rw [keyed] at read; cases read
  | some pair =>
    rcases pair with ⟨key, left⟩
    rw [keyed] at read
    simp only at read
    cases colon : skipSpace left with
    | nil => rw [colon] at read; cases read
    | cons d after =>
      rw [colon] at read
      simp only at read
      split at read
      · cases read
      · next named =>
        obtain ⟨lead, rfl, opens⟩ := local_name keyed colon named
        cases valued : parseValue fuel depth (skipSpace after) with
        | none => rw [valued] at read; cases read
        | some pair =>
          rcases pair with ⟨value, left⟩
          rw [valued] at read
          simp only at read
          cases next : skipSpace left with
          | nil => rw [next] at read; cases read
          | cons c later =>
            rw [next] at read
            simp only at read
            split at read
            · next comma =>
              obtain ⟨⟨later', rest'⟩, others, same⟩ := Option.map_eq_some_iff.mp read
              cases same
              obtain ⟨text, rfl, reads⟩ := local_spaced ih valued next (by rw [comma]; decide)
              obtain ⟨part, rfl, brace, tail⟩ := ih.members others
              refine ⟨lead ++ (text ++ c :: part), by simp, ?_, fun more t enough => ?_⟩
              · simp [List.getLast?_append, List.getLast?_cons, brace]
              · obtain ⟨rest, found, follows⟩ := reads more (part ++ t) enough
                have shape : lead ++ (text ++ c :: part) ++ t = lead ++ (text ++ c :: (part ++ t)) := by simp
                rw [shape, opens, found]
                simp only
                rw [follows]
                simp only [if_pos comma]
                rw [tail more t enough]
                rfl
            · next comma =>
              split at read
              · next close =>
                cases read
                obtain ⟨text, rfl, reads⟩ := local_spaced ih valued next (by rw [close]; decide)
                refine ⟨lead ++ (text ++ [c]), by simp, ?_, fun more t enough => ?_⟩
                · simp [List.getLast?_append, close]
                · obtain ⟨rest, found, follows⟩ := reads more t enough
                  have shape : lead ++ (text ++ [c]) ++ t = lead ++ (text ++ c :: t) := by simp
                  rw [shape, opens, found]
                  simp only
                  rw [follows]
                  simp only [if_neg comma, if_pos close]
              · cases read

theorem local_read (fuel : Nat) : Local fuel := by
  induction fuel with
  | zero =>
    constructor
    · intro _ _ _ _ read
      cases read
    · intro _ _ _ _ read
      cases read
    · intro _ _ _ _ read
      cases read
  | succ fuel ih =>
    constructor
    · intro depth s rest json read ends
      obtain ⟨part, split, some_part, last, reads⟩ := local_value ih read ends
      refine ⟨part, split, some_part, last, fun more t enough ending => ?_⟩
      obtain ⟨more, rfl⟩ := Nat.exists_eq_add_of_lt enough
      exact reads _ t (by omega) ending
    · intro depth s rest items read
      obtain ⟨part, split, reads⟩ := local_items ih read
      refine ⟨part, split, fun more t enough => ?_⟩
      obtain ⟨more, rfl⟩ := Nat.exists_eq_add_of_lt enough
      exact reads _ t (by omega)
    · intro depth s rest members read
      obtain ⟨part, split, brace, reads⟩ := local_members ih read
      refine ⟨part, split, brace, fun more t enough => ?_⟩
      obtain ⟨more, rfl⟩ := Nat.exists_eq_add_of_lt enough
      exact reads _ t (by omega)

/-! ### Objects at the start of a text -/

theorem parseValue_bom (fuel depth : Nat) (s : Text) : parseValue fuel depth (0xEF :: s) = none := by
  cases fuel with
  | zero => rfl
  | succ fuel =>
    rw [parseValue_cons (by decide) (by decide) (by decide)]
    rfl

theorem skipBom_append {s : Text} (read : parseValue fuel depth (skipSpace (skipBom s)) ≠ none) (t : Text) :
    skipBom (s ++ t) = skipBom s ++ t := by
  unfold skipBom at read ⊢
  by_cases mark : 4 ≤ s.length ∧ s.take 3 = [0xEF, 0xBB, 0xBF]
  · have taken : (s ++ t).take 3 = s.take 3 := List.take_append_of_le_length (by omega)
    rw [if_pos mark, if_pos ⟨by rw [List.length_append]; omega, taken.trans mark.2⟩]
    exact List.drop_append_of_le_length (by omega)
  · rw [if_neg mark] at read ⊢
    apply if_neg
    rintro ⟨-, marked⟩
    cases s with
    | nil => exact read (parseValue_nil fuel depth)
    | cons c s =>
      rw [List.cons_append, List.take_succ_cons] at marked
      obtain ⟨rfl, -⟩ := List.cons.inj marked
      rw [skipSpace_cons (by decide)] at read
      exact read (parseValue_bom fuel depth s)

theorem parse_append {s t : Text} (read : parse s = some (.object members)) (text : 0 ∉ s) (more : 0 ∉ t) :
    parse (s ++ t) = some (.object members) := by
  obtain ⟨⟨json, rest⟩, value, rfl⟩ := Option.map_eq_some_iff.mp read
  unfold parseWithEnd at value
  rw [cstr_eq_self text] at value
  have visible : skipSpace (skipBom s) ≠ [] := by
    intro nothing
    rw [nothing, parseValue_nil] at value
    cases value
  obtain ⟨part, split, -, -, reads⟩ := (local_read _).value value trivial
  unfold parse parseWithEnd
  rw [cstr_eq_self (by rw [List.mem_append, not_or]; exact ⟨text, more⟩),
    skipBom_append (by rw [value]; exact Option.some_ne_none _), skipSpace_append visible, split, List.append_assoc,
    reads _ (rest ++ t) (by rw [List.length_append]; omega) trivial]
  rfl

/-! ### Values at the start of a text -/

theorem parseNumber_before {s rest : Text} {json : Json} (read : parseNumber s = some (json, rest))
    (other : isNumberByte c = false) (t : Text) : parseNumber (s ++ c :: t) = some (json, rest ++ c :: t) := by
  have stops : ¬ isNumberByte c = true := by rw [other]; exact Bool.false_ne_true
  have taken : (s ++ c :: t).takeWhile isNumberByte = s.takeWhile isNumberByte := by
    rw [List.takeWhile_append, List.takeWhile_cons_of_neg stops, List.append_nil]
    split
    · next all => exact ((List.takeWhile_prefix _).eq_of_length all).symm
    · rfl
  have dropped : (s ++ c :: t).dropWhile isNumberByte = s.dropWhile isNumberByte ++ c :: t := by
    rw [List.dropWhile_append, List.dropWhile_cons_of_neg stops]
    split
    · next all => rw [List.isEmpty_iff.mp all, List.nil_append]
    · rfl
  obtain ⟨⟨value, left⟩, scanned, same⟩ := Option.map_eq_some_iff.mp read
  cases same
  rw [parseNumber, taken, dropped, scanned, Option.map_some, List.append_assoc]

theorem parseValue_number_eq {s rest : Text} {value : Rat}
    (read : parseValue (fuel + 1) depth s = some (.number value, rest)) :
    parseNumber s = some (.number value, rest) ∧
      ∀ more t, parseValue (more + 1) depth (s ++ t) = parseNumber (s ++ t) := by
  cases s with
  | nil => rw [parseValue_nil] at read; cases read
  | cons c s =>
    by_cases n : c = 110
    · subst n
      rw [parseValue_null] at read
      split at read <;> cases read
    by_cases f : c = 102
    · subst f
      rw [parseValue_false] at read
      split at read <;> cases read
    by_cases tr : c = 116
    · subst tr
      rw [parseValue_true] at read
      split at read <;> cases read
    rw [parseValue_cons n f tr] at read
    split at read
    · obtain ⟨_, -, same⟩ := Option.map_eq_some_iff.mp read
      cases same
    · next quote =>
      split at read
      · next number =>
        refine ⟨read, fun more t => ?_⟩
        rw [List.cons_append, parseValue_cons n f tr, if_neg quote, if_pos number]
      · split at read
        · split at read
          · cases read
          · split at read
            · cases read
            · obtain ⟨_, -, same⟩ := Option.map_eq_some_iff.mp read
              cases same
        · split at read
          · split at read
            · cases read
            · split at read
              · cases read
              · obtain ⟨_, -, same⟩ := Option.map_eq_some_iff.mp read
                cases same
          · cases read

theorem Ends.append {json : Json} {rest : Text} (ends : Ends json rest) (t : Text) : Ends json (rest ++ t) := by
  cases json with
  | number value =>
    obtain ⟨c, after, rfl, other⟩ := ends
    exact ⟨c, after ++ t, rfl, other⟩
  | _ => trivial

section

variable {s t rest : Text} {json : Json}

theorem start_append (read : parseWithEnd s = some (json, rest)) (text : 0 ∉ s) (more : 0 ∉ t) :
    parseValue (2 * s.length + 1 + 1) 0 (skipSpace (skipBom s)) = some (json, rest) ∧
      parseWithEnd (s ++ t) = parseValue (2 * (s ++ t).length + 1 + 1) 0 (skipSpace (skipBom s) ++ t) := by
  unfold parseWithEnd at read ⊢
  rw [cstr_eq_self text] at read
  have visible : skipSpace (skipBom s) ≠ [] := by
    intro nothing
    rw [nothing, parseValue_nil] at read
    cases read
  refine ⟨read, ?_⟩
  rw [cstr_eq_self (by rw [List.mem_append, not_or]; exact ⟨text, more⟩),
    skipBom_append (by rw [read]; exact Option.some_ne_none _), skipSpace_append visible]

theorem parseWithEnd_local (read : parseWithEnd s = some (json, rest)) (ends : Ends json rest) (text : 0 ∉ s)
    (more : 0 ∉ t) : parseWithEnd (s ++ t) = some (json, rest ++ t) ∧ rest <:+ s := by
  obtain ⟨value, whole⟩ := start_append read text more
  obtain ⟨part, split, -, -, reads⟩ := (local_read _).value value ends
  constructor
  · rw [whole, split, List.append_assoc, reads _ _ (by rw [List.length_append]; omega) (ends.append t)]
  · have inner : rest <:+ skipSpace (skipBom s) := by
      rw [split]
      exact List.suffix_append _ _
    have mark : skipBom s <:+ s := by
      unfold skipBom
      split
      · exact List.drop_suffix _ _
      · exact List.suffix_refl _
    exact (inner.trans (List.dropWhile_suffix _)).trans mark

theorem parseWithEnd_before {c : UInt8} (read : parseWithEnd s = some (json, rest)) (other : isNumberByte c = false)
    (text : 0 ∉ s) (more : 0 ∉ c :: t) : parseWithEnd (s ++ c :: t) = some (json, rest ++ c :: t) := by
  cases json with
  | number value =>
    obtain ⟨value, whole⟩ := start_append read text more
    obtain ⟨number, again⟩ := parseValue_number_eq value
    rw [whole, again, parseNumber_before number other]
  | _ => exact (parseWithEnd_local read trivial text more).1

end

/-! ### Texts that are one object -/

structure ObjectText (s : Text) (members : List (Text × Json)) : Prop where
  text : 0 ∉ s
  brace : s.head? = some 123
  whole : parseWithEnd s = some (.object members, [])

theorem parseWithEnd_brace {s : Text} (text : 0 ∉ (123 :: s : Text)) :
    parseWithEnd (123 :: s) = parseValue (2 * (123 :: s : Text).length + 2) 0 (123 :: s) := by
  have mark : ¬ (4 ≤ (123 :: s : Text).length ∧ (123 :: s : Text).take 3 = [0xEF, 0xBB, 0xBF]) := by
    rintro ⟨-, marked⟩
    rw [List.take_succ_cons] at marked
    exact absurd (List.cons.inj marked).1 (by decide)
  rw [parseWithEnd, cstr_eq_self text, skipBom, if_neg mark, skipSpace_cons (by decide)]

theorem parse_marks {q : Text} (marks : ∀ b ∈ q, b = 63) : parse q = none := by
  cases q with
  | nil => rfl
  | cons b q =>
    obtain rfl : b = 63 := marks b (by simp)
    have text : 0 ∉ (63 :: q : Text) := fun zero => absurd (marks 0 zero) (by decide)
    have mark : ¬ (4 ≤ (63 :: q : Text).length ∧ (63 :: q : Text).take 3 = [0xEF, 0xBB, 0xBF]) := by
      rintro ⟨-, marked⟩
      rw [List.take_succ_cons] at marked
      exact absurd (List.cons.inj marked).1 (by decide)
    rw [parse, parseWithEnd, cstr_eq_self text, skipBom, if_neg mark, skipSpace_cons (by decide),
      parseValue_cons (by decide) (by decide) (by decide)]
    rfl

theorem object_of_brace {s rest : Text} {json : Json} (read : parseValue fuel depth (123 :: s) = some (json, rest)) :
    ∃ members, json = .object members := by
  cases fuel with
  | zero => cases read
  | succ fuel =>
    rw [parseValue_cons (by decide) (by decide) (by decide)] at read
    obtain ⟨-, -, -, object, -⟩ := local_object (local_read fuel) (show _ = some (json, rest) from read)
    exact object

theorem parse_cut {u v q : Text} (object : ObjectText (u ++ v) members) (short : v ≠ []) (marks : ∀ b ∈ q, b = 63) :
    parse (u ++ q) = none := by
  cases u with
  | nil => exact parse_marks marks
  | cons c u =>
    obtain rfl : c = 123 := by simpa using object.brace
    have text : 0 ∉ (123 :: (u ++ q) : Text) := by
      intro zero
      rw [← List.cons_append] at zero
      rcases List.mem_append.mp zero with front | back
      · exact object.text (List.mem_append_left _ front)
      · exact absurd (marks 0 back) (by decide)
    rw [List.cons_append, parse, parseWithEnd_brace text]
    cases read : parseValue (2 * (123 :: (u ++ q) : Text).length + 2) 0 (123 :: (u ++ q)) with
    | none => rfl
    | some pair =>
      exfalso
      rcases pair with ⟨json, rest⟩
      obtain ⟨found, rfl⟩ := object_of_brace read
      obtain ⟨part, split, -, last, reads⟩ := (local_read _).value read trivial
      -- the object that is read ends in its brace, in front of the marks
      obtain ⟨left, within⟩ : ∃ left, 123 :: u = part ++ left := by
        have cut : part <+: (123 :: u : Text) ++ q := ⟨rest, split.symm⟩
        rcases prefix_append_cases cut with ⟨left, same⟩ | ⟨more, rfl, tail⟩
        · exact ⟨left, same.symm⟩
        · cases more using List.reverseRecOn with
          | nil => exact ⟨[], by simp⟩
          | append_singleton more b =>
            have brace := last found rfl
            rw [← List.append_assoc, List.getLast?_concat] at brace
            have mark := marks b (tail.subset (by simp))
            rw [mark] at brace
            cases brace
      have whole : parseWithEnd (123 :: (u ++ v)) = some (.object members, []) := object.whole
      rw [parseWithEnd_brace (s := u ++ v) object.text] at whole
      obtain ⟨all, same, -, -, rereads⟩ := (local_read _).value whole trivial
      rw [List.append_nil] at same
      have shape : all ++ [] = part ++ (left ++ v) := by
        rw [List.append_nil, ← same, ← List.append_assoc, ← within, List.cons_append]
      have first := rereads _ [] (Nat.le_add_right _ (2 * (123 :: (u ++ q) : Text).length + 2)) trivial
      rw [shape, reads _ (left ++ v) (Nat.le_add_left _ _) trivial] at first
      obtain ⟨-, nothing⟩ := Prod.mk.inj (Option.some.inj first)
      exact short (List.append_eq_nil_iff.mp nothing).2

end CognitiveOs.Infra.Cjson
