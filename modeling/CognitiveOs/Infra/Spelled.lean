import CognitiveOs.Infra.Composed
import CognitiveOs.Infra.Formatted
import CognitiveOs.Infra.Grammar

/-!
# White space in JSON

A value as it can be written: its numbers, names and strings with white space before and behind
them. `cJSON_Parse` reads the value, whatever the white space.
-/

namespace CognitiveOs.Infra.Cjson

open Json Grammar

def IsScalar : Json → Prop
  | .array _ => False
  | .object _ => False
  | _ => True

structure Names (name key : Text) : Prop where
  clean : 0 ∉ name
  reads : ∀ rest, parseString (name ++ rest) = some (key, rest)

mutual

/-- A text of a value at most `height` brackets deep. -/
inductive Spelled : Nat → Text → Json → Prop where
  | scalar {height : Nat} {text : Text} {value : Json} : IsScalar value → Shows 0 text value → Spelled height text value
  | noItems {height : Nat} {white : Text} : White white → Spelled (height + 1) (91 :: (white ++ [93])) (.array [])
  | array {height : Nat} {inner : Text} {items : List Json} : SpelledItems height inner items →
      Spelled (height + 1) (91 :: (inner ++ [93])) (.array items)
  | noMembers {height : Nat} {white : Text} : White white → Spelled (height + 1) (123 :: (white ++ [125])) (.object [])
  | object {height : Nat} {inner : Text} {members : List (Text × Json)} : SpelledMembers height inner members →
      Spelled (height + 1) (123 :: (inner ++ [125])) (.object members)

inductive SpelledItems : Nat → Text → List Json → Prop where
  | one {height : Nat} {before text after : Text} {item : Json} : White before → Spelled height text item →
      White after → SpelledItems height (before ++ (text ++ after)) [item]
  | more {height : Nat} {before text after rest : Text} {item : Json} {items : List Json} : White before →
      Spelled height text item → White after → SpelledItems height rest items →
      SpelledItems height (before ++ (text ++ (after ++ 44 :: rest))) (item :: items)

inductive SpelledMembers : Nat → Text → List (Text × Json) → Prop where
  | one {height : Nat} {before name gap lead text after key : Text} {value : Json} : White before → Names name key →
      White gap → White lead → Spelled height text value → White after →
      SpelledMembers height (before ++ (name ++ (gap ++ 58 :: (lead ++ (text ++ after))))) [(key, value)]
  | more {height : Nat} {before name gap lead text after rest key : Text} {value : Json}
      {members : List (Text × Json)} : White before → Names name key → White gap → White lead →
      Spelled height text value → White after → SpelledMembers height rest members →
      SpelledMembers height (before ++ (name ++ (gap ++ 58 :: (lead ++ (text ++ (after ++ 44 :: rest))))))
        ((key, value) :: members)

end

/-! ### White space -/

variable {c : UInt8} {white t : Text}

theorem white_le (white : isWhite c = true) : c ≤ 32 ∧ c ≠ 0 ∧ isNumberByte c = false := by
  simp only [isWhite, Bool.or_eq_true, decide_eq_true_eq] at white
  rcases white with ((rfl | rfl) | rfl) | rfl <;> decide

theorem skipSpace_white (blank : White white) (t : Text) : skipSpace (white ++ t) = skipSpace t := by
  induction white with
  | nil => rfl
  | cons c white ih =>
    obtain ⟨first, rest⟩ := List.forall_mem_cons.mp blank
    rw [List.cons_append, skipSpace_space (white_le first).1, ih rest]

theorem white_clean (blank : White white) : 0 ∉ white :=
  fun zero => (white_le (blank 0 zero)).2.1 rfl

theorem stops_white (blank : White white) (stops : Stops t) : Stops (white ++ t) := by
  cases white with
  | nil => exact stops
  | cons c white => exact stops_cons (white_le (blank c List.mem_cons_self)).2.2 _

theorem stops_of_white (blank : White white) : Stops white := by
  have stops := stops_white blank stops_nil
  rwa [List.append_nil] at stops

/-! ### What is read -/

variable {height : Nat} {text name key : Text} {value : Json}

theorem Shows.start {height : Nat} {text : Text} {value : Json} (shows : Shows height text value) (t : Text) :
    skipSpace (text ++ t) = text ++ t := by
  obtain ⟨c, s, rfl, visible⟩ := shows.visible
  exact skipSpace_cons visible

theorem parseValue_bracket (fuel depth : Nat) (s : Text) : parseValue fuel depth (93 :: s) = none := by
  cases fuel with
  | zero => rfl
  | succ fuel => exact parseValue_cons (by decide) (by decide) (by decide) fuel depth s

theorem Shows.open (shows : Shows height text value) (shallow : height ≤ nestingLimit) (t : Text) :
    (text ++ t).head? ≠ some 93 := by
  obtain ⟨c, s, rfl, -⟩ := shows.visible
  intro bracket
  obtain rfl := Option.some.inj bracket
  have read := shows.reads _ 0 [] (Nat.le_refl _) (by omega) stops_nil
  rw [List.append_nil, parseValue_bracket] at read
  cases read

theorem Names.quote (names : Names name key) : ∃ s, name = 34 :: s := by
  have read := names.reads []
  rw [List.append_nil] at read
  unfold parseString at read
  split at read
  · next s => exact ⟨s, rfl⟩
  · cases read

theorem Names.start {name key : Text} (names : Names name key) (t : Text) : skipSpace (name ++ t) = name ++ t := by
  obtain ⟨s, rfl⟩ := names.quote
  exact skipSpace_cons (by decide)

theorem Names.open (names : Names name key) (t : Text) : (skipSpace (name ++ t)).head? ≠ some 125 := by
  obtain ⟨s, rfl⟩ := names.quote
  rw [names.start]
  simp

theorem parseItems_white {fuel depth : Nat} {before after : Text} {item : Json} (blank : White before)
    (shows : Shows height text item) (gapped : White after) (visible : 32 < c) (other : isNumberByte c = false)
    (enough : 2 * text.length ≤ fuel) (shallow : depth + height ≤ nestingLimit) :
    parseItems (fuel + 1) depth (before ++ (text ++ (after ++ c :: t))) =
      if c = 44 then (parseItems fuel depth t).map fun (items, after) => (item :: items, after)
      else if c = 93 then some ([item], t)
      else none := by
  have read := shows.reads fuel depth (after ++ c :: t) enough shallow (stops_white gapped (stops_cons other t))
  have next : skipSpace (after ++ c :: t) = c :: t := by rw [skipSpace_white gapped, skipSpace_cons visible]
  simp only [parseItems, skipSpace_white blank, shows.start, read, next]

theorem parseMembers_white {fuel depth : Nat} {before gap lead after : Text} (blank : White before)
    (names : Names name key) (gapped : White gap) (led : White lead) (shows : Shows height text value)
    (trail : White after) (visible : 32 < c) (other : isNumberByte c = false) (enough : 2 * text.length ≤ fuel)
    (shallow : depth + height ≤ nestingLimit) :
    parseMembers (fuel + 1) depth (before ++ (name ++ (gap ++ 58 :: (lead ++ (text ++ (after ++ c :: t)))))) =
      if c = 44 then (parseMembers fuel depth t).map fun (members, after) => ((key, value) :: members, after)
      else if c = 125 then some ([(key, value)], t)
      else none := by
  have read := shows.reads fuel depth (after ++ c :: t) enough shallow (stops_white trail (stops_cons other t))
  have next : skipSpace (after ++ c :: t) = c :: t := by rw [skipSpace_white trail, skipSpace_cons visible]
  have colon (s : Text) : skipSpace (gap ++ 58 :: s) = 58 :: s := by
    rw [skipSpace_white gapped, skipSpace_cons (by decide)]
  simp only [parseMembers, skipSpace_white blank, names.start, names.reads, colon, skipSpace_white led, shows.start,
    read, next]
  simp

theorem shows_opened {height : Nat} {open' : UInt8} {inner : Text} {value : Json} (visible : 32 < open')
    (clean : 0 ∉ inner)
    (reads : ∀ fuel depth rest, 2 * inner.length < fuel → depth + height < nestingLimit →
      parseValue (fuel + 1) depth (open' :: (inner ++ rest)) = some (value, rest)) :
    Shows (height + 1) (open' :: inner) value where
  visible := ⟨open', _, rfl, visible⟩
  clean := by
    rintro (_ | ⟨_, member⟩)
    · exact absurd visible (by decide)
    · exact clean member
  reads := by
    intro fuel depth rest enough shallow _
    rw [List.length_cons] at enough
    obtain ⟨fuel, rfl⟩ : ∃ k, fuel = k + 1 := ⟨fuel - 1, by omega⟩
    exact reads fuel depth rest (by omega) (by omega)

mutual

theorem Spelled.shows {height : Nat} {text : Text} {value : Json} (small : height ≤ nestingLimit) :
    Spelled height text value → Shows height text value
  | .scalar _ shows => shows.mono (Nat.zero_le _)
  | @Spelled.noItems height white blank => by
    refine shows_opened (by decide) (by simpa using white_clean blank) fun fuel depth rest _ shallow => ?_
    have close : skipSpace (white ++ 93 :: rest) = 93 :: rest := by
      rw [skipSpace_white blank, skipSpace_cons (by decide)]
    rw [List.append_assoc, List.singleton_append]
    show (if nestingLimit ≤ depth then _ else if _ then _ else _) = _
    rw [if_neg (by omega), close]
    rfl
  | @Spelled.array height inner items spelled => by
    obtain ⟨clean, first, read⟩ := spelled.reads (by omega)
    refine shows_opened (by decide) (by simpa using clean) fun fuel depth rest enough shallow => ?_
    rw [List.length_append, List.length_singleton] at enough
    rw [List.append_assoc, List.singleton_append]
    show (if nestingLimit ≤ depth then _ else if _ then _ else _) = _
    rw [if_neg (by omega), if_neg (first _), read fuel (depth + 1) rest (by omega) (by omega)]
    rfl
  | @Spelled.noMembers height white blank => by
    refine shows_opened (by decide) (by simpa using white_clean blank) fun fuel depth rest _ shallow => ?_
    have close : skipSpace (white ++ 125 :: rest) = 125 :: rest := by
      rw [skipSpace_white blank, skipSpace_cons (by decide)]
    rw [List.append_assoc, List.singleton_append]
    show (if nestingLimit ≤ depth then _ else if _ then _ else _) = _
    rw [if_neg (by omega), close]
    rfl
  | @Spelled.object height inner members spelled => by
    obtain ⟨clean, first, read⟩ := spelled.reads (by omega)
    refine shows_opened (by decide) (by simpa using clean) fun fuel depth rest enough shallow => ?_
    rw [List.length_append, List.length_singleton] at enough
    rw [List.append_assoc, List.singleton_append]
    show (if nestingLimit ≤ depth then _ else if _ then _ else _) = _
    rw [if_neg (by omega), if_neg (first _), read fuel (depth + 1) rest (by omega) (by omega)]
    rfl

theorem SpelledItems.reads {height : Nat} {inner : Text} {items : List Json} (small : height ≤ nestingLimit) :
    SpelledItems height inner items → 0 ∉ inner ∧ (∀ t, (skipSpace (inner ++ t)).head? ≠ some 93) ∧
      ∀ fuel depth rest, 2 * inner.length + 1 ≤ fuel → depth + height ≤ nestingLimit →
        parseItems fuel depth (inner ++ 93 :: rest) = some (items, rest)
  | @SpelledItems.one _ before text after item blank spelled trail => by
    have shows := spelled.shows small
    refine ⟨by simp [white_clean blank, shows.clean, white_clean trail], ?_, ?_⟩
    · intro t
      rw [List.append_assoc, List.append_assoc, skipSpace_white blank, shows.start]
      exact shows.open small _
    · intro fuel depth rest enough shallow
      obtain ⟨fuel, rfl⟩ : ∃ k, fuel = k + 1 := ⟨fuel - 1, by omega⟩
      simp only [List.length_append] at enough
      rw [List.append_assoc, List.append_assoc,
        parseItems_white blank shows trail (by decide) (by decide) (by omega) shallow]
      rfl
  | @SpelledItems.more _ before text after next item items blank spelled trail later => by
    have shows := spelled.shows small
    obtain ⟨clean, -, read⟩ := later.reads small
    refine ⟨by simp [white_clean blank, shows.clean, white_clean trail, clean], ?_, ?_⟩
    · intro t
      rw [List.append_assoc, List.append_assoc, skipSpace_white blank, shows.start]
      exact shows.open small _
    · intro fuel depth rest enough shallow
      obtain ⟨fuel, rfl⟩ : ∃ k, fuel = k + 1 := ⟨fuel - 1, by omega⟩
      simp only [List.length_append, List.length_cons] at enough
      rw [List.append_assoc, List.append_assoc, List.append_assoc, List.cons_append,
        parseItems_white blank shows trail (by decide) (by decide) (by omega) shallow, if_pos rfl,
        read fuel depth rest (by omega) shallow]
      rfl

theorem SpelledMembers.reads {height : Nat} {inner : Text} {members : List (Text × Json)}
    (small : height ≤ nestingLimit) :
    SpelledMembers height inner members → 0 ∉ inner ∧ (∀ t, (skipSpace (inner ++ t)).head? ≠ some 125) ∧
      ∀ fuel depth rest, 2 * inner.length + 1 ≤ fuel → depth + height ≤ nestingLimit →
        parseMembers fuel depth (inner ++ 125 :: rest) = some (members, rest)
  | @SpelledMembers.one _ before name gap lead text after key value blank names gapped led spelled trail => by
    have shows := spelled.shows small
    refine ⟨?_, ?_, ?_⟩
    · simp [white_clean blank, names.clean, white_clean gapped, white_clean led, shows.clean, white_clean trail]
    · intro t
      rw [List.append_assoc, List.append_assoc, skipSpace_white blank]
      exact names.open _
    · intro fuel depth rest enough shallow
      obtain ⟨fuel, rfl⟩ : ∃ k, fuel = k + 1 := ⟨fuel - 1, by omega⟩
      simp only [List.length_append, List.length_cons] at enough
      simp only [List.append_assoc, List.cons_append]
      rw [parseMembers_white blank names gapped led shows trail (by decide) (by decide) (by omega) shallow]
      rfl
  | @SpelledMembers.more _ before name gap lead text after next key value members blank names gapped led spelled trail
      later => by
    have shows := spelled.shows small
    obtain ⟨clean, -, read⟩ := later.reads small
    refine ⟨?_, ?_, ?_⟩
    · simp [white_clean blank, names.clean, white_clean gapped, white_clean led, shows.clean, white_clean trail, clean]
    · intro t
      rw [List.append_assoc, List.append_assoc, skipSpace_white blank]
      exact names.open _
    · intro fuel depth rest enough shallow
      obtain ⟨fuel, rfl⟩ : ∃ k, fuel = k + 1 := ⟨fuel - 1, by omega⟩
      simp only [List.length_append, List.length_cons] at enough
      simp only [List.append_assoc, List.cons_append]
      rw [parseMembers_white blank names gapped led shows trail (by decide) (by decide) (by omega) shallow,
        if_pos rfl, read fuel depth rest (by omega) shallow]
      rfl

end

def Writes (s : Text) (value : Json) : Prop :=
  ∃ height before text after, height ≤ nestingLimit ∧ White before ∧ Spelled height text value ∧ White after ∧
    s = before ++ (text ++ after)

theorem Writes.parse_eq {s : Text} (writes : Writes s value) : parse s = some value := by
  obtain ⟨height, before, text, after, small, blank, spelled, trail, rfl⟩ := writes
  have shows := spelled.shows small
  have clean : 0 ∉ before ++ (text ++ after) := by simp [white_clean blank, shows.clean, white_clean trail]
  have bom : skipBom (before ++ (text ++ after)) = before ++ (text ++ after) := by
    unfold skipBom
    apply if_neg
    rintro ⟨-, mark⟩
    cases before with
    | cons c before =>
      rw [List.cons_append, List.take_succ_cons] at mark
      have white := (white_le (blank c List.mem_cons_self)).1
      rw [(List.cons.inj mark).1] at white
      exact absurd white (by decide)
    | nil =>
      obtain ⟨c, s, rfl, -⟩ := shows.visible
      rw [List.nil_append, List.cons_append, List.take_succ_cons] at mark
      have read := shows.reads _ 0 [] (Nat.le_refl _) (by omega) stops_nil
      rw [List.append_nil, (List.cons.inj mark).1, parseValue_bom] at read
      cases read
  have read := shows.reads (2 * (before ++ (text ++ after)).length + 2) 0 after (by simp; omega) (by omega)
    (stops_of_white trail)
  rw [parse, parseWithEnd, cstr_eq_self clean, bom, skipSpace_white blank, shows.start, read]
  rfl

end CognitiveOs.Infra.Cjson
