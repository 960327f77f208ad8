import CognitiveOs.Infra.Insertion
import CognitiveOs.Infra.Numerals
import Mathlib.Data.List.Nodup

/-!
# JSON composed by formatting

An array of objects whose members are written by a format: some values are printed, others put
between quotes as they are. It is read back just when the latter are bare.
-/

namespace CognitiveOs.Infra.Cjson

open Json

/-! ### Cells -/

/-- How a value is written: a text as it is between quotes, or a text that stands for a value. -/
inductive Written where
  | bare (s : Text)
  | shown (text : Text) (value : Json)

namespace Written

def text : Written → Text
  | bare s => inserted s
  | shown text _ => text

def value : Written → Json
  | bare s => .string s
  | shown _ value => value

end Written

/-- A key and how its value is written. -/
abbrev Cell :=
  Text × Written

structure Composed where
  cells : List Cell
  last : Cell

def cellText (cell : Cell) : Text :=
  inserted cell.1 ++ 58 :: cell.2.text

def membersText (last : Cell) : List Cell → Text
  | [] => cellText last ++ [125]
  | cell :: cells => cellText cell ++ 44 :: membersText last cells

namespace Composed

def text (o : Composed) : Text :=
  123 :: membersText o.last o.cells

def members (o : Composed) : List (Text × Json) :=
  (o.cells ++ [o.last]).map fun cell => (cell.1, cell.2.value)

def value (o : Composed) : Json :=
  .object o.members

end Composed

def itemsText : List Composed → Text
  | [] => [93]
  | o :: objects => 44 :: (o.text ++ itemsText objects)

def arrayText : List Composed → Text
  | [] => [91, 93]
  | o :: objects => 91 :: (o.text ++ itemsText objects)

/-! ### What is read -/

/-- A text that stands for a value at most `height` brackets deep. -/
structure Shows (height : Nat) (text : Text) (value : Json) : Prop where
  visible : ∃ c s, text = c :: s ∧ 32 < c
  clean : 0 ∉ text
  reads : ∀ (fuel depth : Nat) (rest : Text), 2 * text.length ≤ fuel → depth + height ≤ nestingLimit → Stops rest →
    parseValue fuel depth (text ++ rest) = some (value, rest)

/-- A key is read back, and its value is a C string or a text that shows a value. -/
structure Proper (height : Nat) (cell : Cell) : Prop where
  key : 0 ∉ cell.1 ∧ Bare cell.1
  value : match cell.2 with
    | .bare s => 0 ∉ s
    | .shown text value => Shows height text value

def Cell.IsBare (cell : Cell) : Prop :=
  match cell.2 with
  | .bare s => Bare s
  | .shown _ _ => True

section Strings

theorem parseValue_quote (fuel depth : Nat) (s : Text) :
    parseValue (fuel + 1) depth (34 :: s) = (parseString (34 :: s)).map fun (value, after) => (.string value, after) :=
  rfl

theorem shows_inserted {s : Text} (text : 0 ∉ s) (bare : Bare s) : Shows 0 (inserted s) (.string s) where
  visible := ⟨34, _, rfl, by decide⟩
  clean := by simpa [inserted] using text
  reads fuel depth rest enough _ _ := by
    obtain ⟨fuel, rfl⟩ : ∃ k, fuel = k + 1 := ⟨fuel - 1, by simp [inserted] at enough; omega⟩
    have read := parseString_bare text bare rest
    unfold inserted at read ⊢
    rw [List.cons_append] at read ⊢
    rw [parseValue_quote, read]
    rfl

theorem shows_printString {s : Text} (text : 0 ∉ s) : Shows 0 (printString s) (.string s) where
  visible := ⟨34, _, rfl, by decide⟩
  clean := (printString_clean s).1
  reads fuel depth rest enough _ _ := by
    obtain ⟨fuel, rfl⟩ : ∃ k, fuel = k + 1 := ⟨fuel - 1, by simp [printString] at enough; omega⟩
    exact parseValue_printString text rest

end Strings

variable {text : Text} {value : Json}

theorem Shows.mono {height more : Nat} (shows : Shows height text value) (le : height ≤ more) :
    Shows more text value where
  visible := shows.visible
  clean := shows.clean
  reads fuel depth rest enough shallow stops := shows.reads fuel depth rest enough (by omega) stops

variable {cell : Cell}

theorem Proper.mono {height more : Nat} (proper : Proper height cell) (le : height ≤ more) : Proper more cell := by
  refine ⟨proper.key, ?_⟩
  obtain ⟨key, written⟩ := cell
  have shown := proper.value
  cases written with
  | bare s => exact shown
  | shown text value => exact shown.mono le

theorem Proper.shows {height : Nat} (proper : Proper height cell) (bare : cell.IsBare) :
    Shows height cell.2.text cell.2.value := by
  obtain ⟨key, written⟩ := cell
  have shown := proper.value
  cases written with
  | bare s => exact (shows_inserted shown bare).mono (Nat.zero_le _)
  | shown text value => exact shown

/-! ### Members -/

theorem cell_name (key : 0 ∉ cell.1 ∧ Bare cell.1) (s : Text) :
    parseString (skipSpace (cellText cell ++ s)) = some (cell.1, 58 :: (cell.2.text ++ s)) := by
  have shape : cellText cell ++ s = inserted cell.1 ++ 58 :: (cell.2.text ++ s) := by simp [cellText]
  have start : skipSpace (inserted cell.1 ++ 58 :: (cell.2.text ++ s)) = _ := skipSpace_cons (by decide)
  rw [shape, start]
  exact parseString_bare key.1 key.2 _

theorem written_start {height : Nat} (proper : Proper height cell) (s : Text) :
    skipSpace (cell.2.text ++ s) = cell.2.text ++ s := by
  obtain ⟨key, written⟩ := cell
  have shown := proper.value
  cases written with
  | bare value => exact skipSpace_cons (by decide)
  | shown text value =>
    obtain ⟨c, s', start, visible⟩ := shown.visible
    show skipSpace (text ++ s) = text ++ s
    rw [start]
    exact skipSpace_cons visible

theorem stops_cell {c : UInt8} (next : c = 44 ∨ c = 125) (t : Text) : Stops (c :: t) := by
  rcases next with rfl | rfl <;> exact stops_cons (by decide) t

theorem length_membersText_cons (last cell : Cell) (cells : List Cell) :
    (membersText last (cell :: cells)).length = (cellText cell).length + (membersText last cells).length + 1 := by
  simp [membersText]
  omega

theorem length_cellText (cell : Cell) : (cellText cell).length = cell.1.length + cell.2.text.length + 3 := by
  simp [cellText, inserted]
  omega

theorem parseMembers_cell {height fuel depth : Nat} (proper : Proper height cell) (bare : cell.IsBare)
    (enough : 2 * (cellText cell).length ≤ fuel + 1) (shallow : depth + height ≤ nestingLimit) {c : UInt8}
    (next : c = 44 ∨ c = 125) (t : Text) :
    parseMembers (fuel + 1) depth (cellText cell ++ c :: t) =
      if c = 44 then
        (parseMembers fuel depth t).map fun (members, after) => ((cell.1, cell.2.value) :: members, after)
      else some ([(cell.1, cell.2.value)], t) := by
  rw [length_cellText] at enough
  have read := (proper.shows bare).reads fuel depth (c :: t) (by omega) shallow (stops_cell next t)
  have visible : skipSpace (c :: t) = c :: t := skipSpace_cons (by rcases next with rfl | rfl <;> decide)
  rw [parseMembers_member (cell_name proper.key _) (written_start proper _) read, visible]
  rcases next with rfl | rfl <;> rfl

section Members

variable {height depth : Nat} {last : Cell}

variable {fuel : Nat}

theorem parseMembers_text (shallow : depth + height ≤ nestingLimit) {cells : List Cell}
    (proper : ∀ cell ∈ cells ++ [last], Proper height cell) (bare : ∀ cell ∈ cells ++ [last], cell.IsBare)
    (enough : 2 * (membersText last cells).length ≤ fuel) (rest : Text) :
    parseMembers fuel depth (membersText last cells ++ rest) =
      some ((cells ++ [last]).map fun cell => (cell.1, cell.2.value), rest) := by
  induction cells generalizing fuel with
  | nil =>
    simp only [membersText, List.length_append, length_cellText] at enough
    obtain ⟨fuel, rfl⟩ : ∃ k, fuel = k + 1 := ⟨fuel - 1, by omega⟩
    have shape : membersText last [] ++ rest = cellText last ++ 125 :: rest := by simp [membersText]
    rw [shape, parseMembers_cell (proper last (by simp)) (bare last (by simp)) (by rw [length_cellText]; omega) shallow
      (.inr rfl)]
    rfl
  | cons cell cells ih =>
    rw [length_membersText_cons] at enough
    obtain ⟨fuel, rfl⟩ : ∃ k, fuel = k + 1 := ⟨fuel - 1, by omega⟩
    have shape :
        membersText last (cell :: cells) ++ rest = cellText cell ++ 44 :: (membersText last cells ++ rest) := by
      simp [membersText]
    rw [shape, parseMembers_cell (proper cell (by simp)) (bare cell (by simp)) (by omega) shallow (.inl rfl),
      if_pos rfl, ih (fun cell member => proper cell (List.mem_cons_of_mem _ member))
        (fun cell member => bare cell (List.mem_cons_of_mem _ member)) (by omega)]
    rfl

variable {after : Text} {members : List (Text × Json)}

theorem first_member {cell : Cell} (proper : Proper height cell) {t : Text}
    (read : parseMembers (fuel + 1) depth (cellText cell ++ t) = some (members, after)) :
    ∃ value rest others, parseValue fuel depth (cell.2.text ++ t) = some (value, rest) ∧
      members = (cell.1, value) :: others := by
  cases found : parseValue fuel depth (cell.2.text ++ t) with
  | none =>
    have colon (s : Text) : skipSpace (58 :: s) = 58 :: s := skipSpace_cons (by decide)
    simp [parseMembers, cell_name proper.key, colon, written_start proper, found] at read
  | some result =>
    obtain ⟨value, rest⟩ := result
    rw [parseMembers_member (cell_name proper.key t) (written_start proper t) found] at read
    split at read
    · cases read
    · split at read
      · obtain ⟨⟨others, _⟩, _, same⟩ := Option.map_eq_some_iff.mp read
        cases same
        exact ⟨value, rest, others, rfl, rfl⟩
      · split at read
        · cases read
          exact ⟨value, rest, [], rfl, rfl⟩
        · cases read

theorem bare_of_first {cell : Cell} (proper : Proper height cell) {t : Text}
    (read : parseMembers (fuel + 1) depth (cellText cell ++ 44 :: 34 :: t) = some (members, after))
    (kept : ∀ s, cell.2 = .bare s → (Json.object members).get? cell.1 = some (.string s)) : cell.IsBare := by
  obtain ⟨value, rest, others, found, rfl⟩ := first_member proper read
  obtain ⟨key, written⟩ := cell
  cases written with
  | shown text value => exact trivial
  | bare s =>
    have same := kept s rfl
    simp only [get?, List.find?_cons_of_pos, decide_true, Option.map_some, Option.some.injEq] at same
    subst same
    cases fuel with
    | zero => cases found
    | succ fuel =>
      obtain ⟨⟨s', rest'⟩, string, pair⟩ := Option.map_eq_some_iff.mp found
      cases pair
      exact bare_of_parseString proper.value string

theorem membersText_start (last : Cell) (cells : List Cell) : ∃ t, membersText last cells = 34 :: t := by
  cases cells with
  | nil => exact ⟨_, rfl⟩
  | cons cell cells => exact ⟨_, rfl⟩

theorem bare_of_members (shallow : depth + height ≤ nestingLimit) {cells : List Cell}
    (proper : ∀ cell ∈ cells, Proper height cell) (distinct : (cells.map Prod.fst).Nodup)
    (enough : 2 * (membersText last cells).length ≤ fuel) {rest : Text}
    (read : parseMembers fuel depth (membersText last cells ++ rest) = some (members, after))
    (kept : ∀ cell ∈ cells, ∀ s, cell.2 = .bare s → (Json.object members).get? cell.1 = some (.string s)) :
    ∀ cell ∈ cells, cell.IsBare := by
  induction cells generalizing fuel members with
  | nil => exact fun cell member => absurd member List.not_mem_nil
  | cons cell cells ih =>
    rw [length_membersText_cons] at enough
    obtain ⟨fuel, rfl⟩ : ∃ k, fuel = k + 1 := ⟨fuel - 1, by omega⟩
    obtain ⟨fresh, distinct⟩ := List.nodup_cons.mp distinct
    have here := proper cell List.mem_cons_self
    have shape :
        membersText last (cell :: cells) ++ rest = cellText cell ++ 44 :: (membersText last cells ++ rest) := by
      simp [membersText]
    obtain ⟨t, start⟩ := membersText_start last cells
    rw [shape] at read
    have first : cell.IsBare := by
      have read' := read
      rw [start] at read'
      exact bare_of_first here read' (kept cell List.mem_cons_self)
    rw [parseMembers_cell here first (by omega) shallow (.inl rfl), if_pos rfl] at read
    obtain ⟨⟨others, after'⟩, later, same⟩ := Option.map_eq_some_iff.mp read
    cases same
    have rest := ih (fun cell member => proper cell (List.mem_cons_of_mem _ member)) distinct (by omega) later ?_
    · intro cell' member
      rcases List.mem_cons.mp member with rfl | member
      · exact first
      · exact rest cell' member
    · intro cell' member s bare
      have same := kept cell' (List.mem_cons_of_mem _ member) s bare
      have apart : cell.1 ≠ cell'.1 := fun same => fresh (same ▸ List.mem_map_of_mem member)
      simpa [get?, apart] using same

end Members

/-! ### Objects -/

variable {key : Text}

/-- The keys differ, and the last value is not put between quotes. -/
structure Composed.Sound (height : Nat) (o : Composed) : Prop where
  proper : ∀ cell ∈ o.cells ++ [o.last], Proper height cell
  distinct : ((o.cells ++ [o.last]).map Prod.fst).Nodup
  last : o.last.IsBare

def Composed.Kept (o : Composed) (json : Json) : Prop :=
  ∀ cell ∈ o.cells, ∀ s, cell.2 = .bare s → json.get? cell.1 = some (.string s)

theorem cellText_clean {height : Nat} (proper : Proper height cell) : 0 ∉ cellText cell := by
  have key := proper.key.1
  have text : 0 ∉ cell.2.text := by
    obtain ⟨key, written⟩ := cell
    have shown := proper.value
    cases written with
    | bare s =>
      have clean : 0 ∉ s := shown
      simpa [Written.text, inserted] using clean
    | shown text value => exact shown.clean
  simp [cellText, inserted, key, text]

theorem membersText_clean {height : Nat} {last : Cell} {cells : List Cell}
    (proper : ∀ cell ∈ cells ++ [last], Proper height cell) : 0 ∉ membersText last cells := by
  induction cells with
  | nil => simp [membersText, cellText_clean (proper last (by simp))]
  | cons cell cells ih =>
    have rest := ih fun cell member => proper cell (List.mem_cons_of_mem _ member)
    simp [membersText, cellText_clean (proper cell (by simp)), rest]

theorem get?_of_mem {members : List (Text × Json)} (distinct : (members.map Prod.fst).Nodup)
    (member : (key, value) ∈ members) : (Json.object members).get? key = some value := by
  induction members with
  | nil => cases member
  | cons first members ih =>
    obtain ⟨fresh, distinct⟩ := List.nodup_cons.mp distinct
    rcases List.mem_cons.mp member with rfl | member
    · simp [get?]
    · have apart : first.1 ≠ key := fun same => fresh (same ▸ List.mem_map_of_mem member)
      have later := ih distinct member
      simpa [get?, apart] using later

namespace Composed.Sound

variable {height : Nat} {o : Composed}

theorem bare_all (sound : o.Sound height) (bare : ∀ cell ∈ o.cells, cell.IsBare) :
    ∀ cell ∈ o.cells ++ [o.last], cell.IsBare := by
  intro cell member
  rcases List.mem_append.mp member with member | member
  · exact bare cell member
  · rw [List.mem_singleton.mp member]
    exact sound.last

theorem get?_value (sound : o.Sound height) {cell : Cell} (member : cell ∈ o.cells ++ [o.last]) :
    o.value.get? cell.1 = some cell.2.value := by
  apply get?_of_mem
  · rw [members, List.map_map]
    exact sound.distinct
  · exact List.mem_map_of_mem (f := fun cell : Cell => (cell.1, cell.2.value)) member

theorem parseValue_text {fuel depth : Nat} (shallow : depth < nestingLimit) (rest : Text) :
    parseValue (fuel + 1) depth (o.text ++ rest) =
      (parseMembers fuel (depth + 1) (membersText o.last o.cells ++ rest)).map fun (members, after) =>
        (.object members, after) := by
  obtain ⟨t, start⟩ := membersText_start o.last o.cells
  rw [text, start]
  exact parseValue_object (by decide) (by decide) shallow

theorem shows (sound : o.Sound height) (bare : ∀ cell ∈ o.cells, cell.IsBare) : Shows (height + 1) o.text o.value where
  visible := ⟨123, _, rfl, by decide⟩
  clean := by simpa [text] using membersText_clean sound.proper
  reads fuel depth rest enough shallow _ := by
    rw [text, List.length_cons] at enough
    obtain ⟨fuel, rfl⟩ : ∃ k, fuel = k + 1 := ⟨fuel - 1, by omega⟩
    rw [parseValue_text (by omega), parseMembers_text (by omega) sound.proper (sound.bare_all bare) (by omega)]
    rfl

theorem bare_of_read (sound : o.Sound height) {fuel depth : Nat} (enough : 2 * o.text.length ≤ fuel)
    (shallow : depth + height < nestingLimit) {rest after : Text} {json : Json}
    (read : parseValue fuel depth (o.text ++ rest) = some (json, after)) (kept : o.Kept json) :
    ∀ cell ∈ o.cells, cell.IsBare := by
  rw [text, List.length_cons] at enough
  obtain ⟨fuel, rfl⟩ : ∃ k, fuel = k + 1 := ⟨fuel - 1, by omega⟩
  rw [parseValue_text (by omega)] at read
  obtain ⟨⟨members, after'⟩, read, same⟩ := Option.map_eq_some_iff.mp read
  cases same
  refine bare_of_members (by omega) (fun cell member => sound.proper cell (List.mem_append_left _ member)) ?_ (by omega)
    read kept
  have distinct := sound.distinct
  rw [List.map_append] at distinct
  exact (List.nodup_append.mp distinct).1

end Composed.Sound

/-! ### Arrays -/

section Arrays

variable {height : Nat}

theorem stops_itemsText (objects : List Composed) : Stops (itemsText objects) := by
  cases objects <;> exact stops_cons (by decide) _

theorem skipSpace_object (o : Composed) (rest : Text) : skipSpace (o.text ++ rest) = o.text ++ rest :=
  skipSpace_cons (by decide)

variable {fuel : Nat} {objects : List Composed}

theorem parseItems_object {depth : Nat} {o : Composed} {json : Json}
    (read : parseValue fuel depth (o.text ++ itemsText objects) = some (json, itemsText objects)) :
    parseItems (fuel + 1) depth (o.text ++ itemsText objects) =
      match objects with
      | [] => some ([json], [])
      | next :: objects =>
        (parseItems fuel depth (next.text ++ itemsText objects)).map fun (items, after) => (json :: items, after) := by
  rw [parseItems_item (skipSpace_object o _) read]
  cases objects with
  | nil => rfl
  | cons next objects => rfl

theorem parseItems_text {fuel depth : Nat} (shallow : depth + height < nestingLimit) {objects : List Composed}
    {o : Composed} (sound : ∀ o' ∈ o :: objects, o'.Sound height)
    (bare : ∀ o' ∈ o :: objects, ∀ cell ∈ o'.cells, cell.IsBare)
    (enough : 2 * (o.text ++ itemsText objects).length ≤ fuel) :
    parseItems fuel depth (o.text ++ itemsText objects) = some ((o :: objects).map Composed.value, []) := by
  induction objects generalizing o fuel with
  | nil =>
    simp only [itemsText, List.length_append, List.length_singleton] at enough
    obtain ⟨fuel, rfl⟩ : ∃ k, fuel = k + 1 := ⟨fuel - 1, by omega⟩
    have shows := (sound o (by simp)).shows (bare o (by simp))
    rw [parseItems_object (shows.reads fuel depth _ (by omega) (by omega) (stops_itemsText _))]
    rfl
  | cons next objects ih =>
    simp only [itemsText, List.length_append, List.length_cons] at enough
    obtain ⟨fuel, rfl⟩ : ∃ k, fuel = k + 1 := ⟨fuel - 1, by omega⟩
    have shows := (sound o (by simp)).shows (bare o (by simp))
    rw [parseItems_object (shows.reads fuel depth _ (by omega) (by omega) (stops_itemsText _))]
    dsimp only
    rw [ih (fun o' member => sound o' (List.mem_cons_of_mem _ member))
      (fun o' member => bare o' (List.mem_cons_of_mem _ member)) (by rw [List.length_append]; omega)]
    rfl

variable {items : List Json}

theorem first_item {depth : Nat} {o : Composed} {t after : Text}
    (read : parseItems (fuel + 1) depth (o.text ++ t) = some (items, after)) :
    ∃ json rest others, parseValue fuel depth (o.text ++ t) = some (json, rest) ∧ items = json :: others := by
  cases found : parseValue fuel depth (o.text ++ t) with
  | none => simp [parseItems, skipSpace_object, found] at read
  | some result =>
    obtain ⟨json, rest⟩ := result
    rw [parseItems_item (skipSpace_object o t) found] at read
    split at read
    · cases read
    · split at read
      · obtain ⟨⟨others, _⟩, _, same⟩ := Option.map_eq_some_iff.mp read
        cases same
        exact ⟨json, rest, others, rfl, rfl⟩
      · split at read
        · cases read
          exact ⟨json, rest, [], rfl, rfl⟩
        · cases read

theorem bare_of_items {depth : Nat} (shallow : depth + height < nestingLimit) {o : Composed}
    (sound : ∀ o' ∈ o :: objects, o'.Sound height) (enough : 2 * (o.text ++ itemsText objects).length ≤ fuel)
    {after : Text} (read : parseItems fuel depth (o.text ++ itemsText objects) = some (items, after))
    (kept : List.Forall₂ Composed.Kept (o :: objects) items) : ∀ o' ∈ o :: objects, ∀ cell ∈ o'.cells, cell.IsBare := by
  induction objects generalizing o fuel items with
  | nil =>
    simp only [itemsText, List.length_append, List.length_singleton] at enough
    obtain ⟨fuel, rfl⟩ : ∃ k, fuel = k + 1 := ⟨fuel - 1, by omega⟩
    obtain ⟨json, rest, others, found, rfl⟩ := first_item read
    obtain ⟨first, -⟩ := List.forall₂_cons.mp kept
    intro o' member
    rw [List.mem_singleton.mp member]
    exact (sound o (by simp)).bare_of_read (by omega) shallow found first
  | cons next objects ih =>
    simp only [itemsText, List.length_append, List.length_cons] at enough
    obtain ⟨fuel, rfl⟩ : ∃ k, fuel = k + 1 := ⟨fuel - 1, by omega⟩
    obtain ⟨json, rest, others, found, rfl⟩ := first_item read
    obtain ⟨first, later⟩ := List.forall₂_cons.mp kept
    have here := (sound o (by simp)).bare_of_read (by omega) shallow found first
    have shows := (sound o (by simp)).shows here
    rw [parseItems_object (shows.reads fuel depth _ (by omega) (by omega) (stops_itemsText _))] at read
    dsimp only at read
    obtain ⟨⟨others', after'⟩, rest', same⟩ := Option.map_eq_some_iff.mp read
    cases same
    have behind := ih (fun o' member => sound o' (List.mem_cons_of_mem _ member)) (by rw [List.length_append]; omega)
      rest' later
    intro o' member
    rcases List.mem_cons.mp member with rfl | member
    · exact here
    · exact behind o' member

theorem itemsText_clean (sound : ∀ o ∈ objects, o.Sound height) : 0 ∉ itemsText objects := by
  induction objects with
  | nil => decide
  | cons o objects ih =>
    have first := membersText_clean (sound o List.mem_cons_self).proper
    have later := ih fun o' member => sound o' (List.mem_cons_of_mem _ member)
    simp [itemsText, Composed.text, first, later]

theorem parse_arrayText {o : Composed} (sound : ∀ o' ∈ o :: objects, o'.Sound height) :
    parse (arrayText (o :: objects)) =
      (parseItems (2 * (arrayText (o :: objects)).length + 1) 1 (o.text ++ itemsText objects)).map fun (items, _) =>
        .array items := by
  have first := membersText_clean (sound o List.mem_cons_self).proper
  have later := itemsText_clean fun o' member => sound o' (List.mem_cons_of_mem _ member)
  have clean : 0 ∉ arrayText (o :: objects) := by simp [arrayText, Composed.text, first, later]
  have mark : ¬ (4 ≤ (arrayText (o :: objects)).length ∧ (arrayText (o :: objects)).take 3 = [0xEF, 0xBB, 0xBF]) := by
    rintro ⟨-, marked⟩
    rw [arrayText, List.take_succ_cons] at marked
    exact absurd (List.cons.inj marked).1 (by decide)
  have start : skipSpace (arrayText (o :: objects)) = arrayText (o :: objects) := skipSpace_cons (by decide)
  have read : parseValue (2 * (arrayText (o :: objects)).length + 1 + 1) 0
      (91 :: 123 :: (membersText o.last o.cells ++ itemsText objects)) = _ :=
    parseValue_array (by decide) (by decide) (by decide)
  rw [parse, parseWithEnd, cstr_eq_self clean, skipBom, if_neg mark, start]
  show (parseValue _ 0 (91 :: 123 :: (membersText o.last o.cells ++ itemsText objects))).map Prod.fst = _
  rw [read, Option.map_map]
  rfl

theorem parse_of_bare (sound : ∀ o ∈ objects, o.Sound height) (shallow : height + 1 < nestingLimit)
    (bare : ∀ o ∈ objects, ∀ cell ∈ o.cells, cell.IsBare) :
    parse (arrayText objects) = some (.array (objects.map Composed.value)) := by
  cases objects with
  | nil => rfl
  | cons o objects =>
    rw [parse_arrayText sound, @parseItems_text height _ _ (by omega) _ _ sound bare
      (by simp only [arrayText, List.length_cons]; omega)]
    rfl

theorem bare_of_parse (sound : ∀ o ∈ objects, o.Sound height) (shallow : height + 1 < nestingLimit)
    (read : parse (arrayText objects) = some (.array items)) (kept : List.Forall₂ Composed.Kept objects items) :
    ∀ o ∈ objects, ∀ cell ∈ o.cells, cell.IsBare := by
  cases objects with
  | nil => exact fun o member => absurd member List.not_mem_nil
  | cons o objects =>
    rw [parse_arrayText sound] at read
    obtain ⟨⟨others, after⟩, read, same⟩ := Option.map_eq_some_iff.mp read
    cases same
    exact bare_of_items (by omega) sound (by simp only [arrayText, List.length_cons]; omega) read kept

theorem decoded_iff {α : Type} {xs : List α} {object : α → Composed} {P : α → Json → Prop}
    (sound : ∀ x, (object x).Sound height) (shallow : height + 1 < nestingLimit)
    (kept : ∀ x ∈ xs, ∀ json, P x json → (object x).Kept json) (decoded : ∀ x ∈ xs, P x (object x).value) :
    (∃ items, parse (arrayText (xs.map object)) = some (.array items) ∧ List.Forall₂ P xs items) ↔
      ∀ x ∈ xs, ∀ cell ∈ (object x).cells, cell.IsBare := by
  have sound : ∀ o ∈ xs.map object, o.Sound height := by
    intro o member
    obtain ⟨x, _, rfl⟩ := List.mem_map.mp member
    exact sound x
  constructor
  · rintro ⟨items, read, decoded⟩ x member
    have kept : List.Forall₂ Composed.Kept (xs.map object) items := by
      rw [List.forall₂_map_left_iff]
      exact ((List.forall₂_and_left _ _).mpr ⟨fun _ inside => inside, decoded⟩).imp fun x json ⟨inside, one⟩ =>
        kept x inside json one
    exact bare_of_parse sound shallow read kept _ (List.mem_map_of_mem member)
  · intro bare
    have bare : ∀ o ∈ xs.map object, ∀ cell ∈ o.cells, cell.IsBare := by
      intro o member
      obtain ⟨x, inside, rfl⟩ := List.mem_map.mp member
      exact bare x inside
    refine ⟨_, parse_of_bare sound shallow bare, ?_⟩
    rw [List.map_map, List.forall₂_map_right_iff, List.forall₂_same]
    exact decoded

end Arrays

/-! ### Numbers and names -/

structure Numeral (text : Text) : Prop where
  bytes : ∀ b ∈ text, isNumberByte b = true
  start : ∃ c rest, text = c :: rest ∧ (c = 45 ∨ isDigit c = true)
  read : ∃ value, strtod text = some (value, [])

def numberCell (key : Text) (text : Text) : Cell :=
  (key, .shown text (.number (((strtod text).map Prod.fst).getD 0)))

theorem Numeral.shows (numeral : Numeral text) : Shows 0 text (.number (((strtod text).map Prod.fst).getD 0)) := by
  obtain ⟨value, read⟩ := numeral.read
  obtain ⟨c, rest, start, first⟩ := numeral.start
  have shown : Json.NumberReads (fun _ => text) 0 (.number value) := .number numeral.bytes numeral.start read rfl
  rw [read]
  refine ⟨⟨c, rest, start, ?_⟩, ?_, ?_⟩
  · rcases first with rfl | digit
    · decide
    · have lower : 48 ≤ c.toNat := by
        simp only [isDigit, Bool.and_eq_true, decide_eq_true_eq] at digit
        exact digit.1
      exact Nat.lt_of_lt_of_le (by decide) lower
  · intro terminator
    exact absurd (numeral.bytes 0 terminator) (by decide)
  · intro fuel depth rest enough _ stops
    have length : 0 < text.length := by
      rw [start]
      exact Nat.succ_pos _
    obtain ⟨fuel, rfl⟩ : ∃ k, fuel = k + 1 := ⟨fuel - 1, by omega⟩
    exact parseValue_number _ shown stops

theorem numeral_decimal (n : Nat) : Numeral (decimal n) where
  bytes := decimal_numberBytes n
  start := decimal_start n
  read := ⟨_, strtod_decimal n⟩

theorem strtod_point (negative : Bool) (n : Nat) {fraction : Text} (digits : ∀ b ∈ fraction, isDigit b = true) :
    ∃ value, strtod ((if negative then [45] else []) ++ decimal n ++ 46 :: fraction) = some (value, []) := by
  have whole : ∀ b ∈ decimal n, isDigit b = true := fun b => isDigit_decimal
  have take : (decimal n ++ 46 :: fraction).takeWhile isDigit = decimal n := by
    rw [List.takeWhile_append_of_pos whole]
    simp [isDigit]
  have drop : (decimal n ++ 46 :: fraction).dropWhile isDigit = 46 :: fraction := by
    rw [List.dropWhile_append_of_pos whole]
    rfl
  have take' : fraction.takeWhile isDigit = fraction := List.takeWhile_eq_self_iff.mpr digits
  have drop' : fraction.dropWhile isDigit = [] := List.dropWhile_eq_nil_iff.mpr digits
  cases negative with
  | true =>
    unfold strtod
    simp [take, drop, take', drop', decimal_ne_nil, scanExponent]
  | false =>
    obtain ⟨first, rest, start⟩ := List.exists_cons_of_ne_nil (decimal_ne_nil n)
    have digit : isDigit first = true := whole first (start ▸ List.mem_cons_self)
    have sign : first ≠ 45 ∧ first ≠ 43 := by
      constructor <;> rintro rfl <;> exact absurd digit (by decide)
    have shape : decimal n ++ 46 :: fraction = first :: (rest ++ 46 :: fraction) := by
      rw [start]
      rfl
    unfold strtod
    simp only [Bool.false_eq_true, if_false, List.nil_append]
    split
    · next signed => exact absurd (List.cons.inj (shape.symm.trans signed)).1 sign.1
    · next signed => exact absurd (List.cons.inj (shape.symm.trans signed)).1 sign.2
    · simp [take, drop, take', drop', decimal_ne_nil, scanExponent]

theorem numeral_point (negative : Bool) (n : Nat) {fraction : Text} (digits : ∀ b ∈ fraction, isDigit b = true) :
    Numeral ((if negative then [45] else []) ++ decimal n ++ 46 :: fraction) where
  bytes := by
    intro b member
    rcases List.mem_append.mp member with member | member
    · rcases List.mem_append.mp member with member | member
      · cases negative with
        | true =>
          rw [List.mem_singleton.mp member]
          decide
        | false => cases member
      · exact decimal_numberBytes n b member
    · rcases List.mem_cons.mp member with rfl | member
      · decide
      · simp [isNumberByte, digits b member]
  start := by
    obtain ⟨c, rest, start, first⟩ := decimal_start n
    cases negative with
    | true => exact ⟨45, _, rfl, .inl rfl⟩
    | false => exact ⟨c, rest ++ 46 :: fraction, by rw [start]; rfl, first⟩
  read := strtod_point negative n digits

theorem isDigit_place (n : Nat) : isDigit (48 + (n % 10).toUInt8) = true := by
  have small : n % 10 < 10 := Nat.mod_lt _ (by decide)
  have all : ∀ k < 10, isDigit (48 + k.toUInt8) = true := by decide
  exact all _ small

theorem bare_of_plain {name : Text} (plain : (name.all fun b => b ≠ 34 && b ≠ 92 && b ≠ 0) = true) :
    0 ∉ name ∧ Bare name := by
  have each := List.all_eq_true.mp plain
  refine ⟨fun member => ?_, fun member => ?_, fun member => ?_⟩ <;> exact absurd (each _ member) (by decide)

theorem proper_bare {s : Text} (plain : (key.all fun b => b ≠ 34 && b ≠ 92 && b ≠ 0) = true) (text : 0 ∉ s) :
    Proper 0 (key, .bare s) :=
  ⟨bare_of_plain plain, text⟩

theorem proper_number (plain : (key.all fun b => b ≠ 34 && b ≠ 92 && b ≠ 0) = true) (numeral : Numeral text) :
    Proper 0 (numberCell key text) :=
  ⟨bare_of_plain plain, numeral.shows⟩

theorem proper_shown {height : Nat} (plain : (key.all fun b => b ≠ 34 && b ≠ 92 && b ≠ 0) = true)
    (shows : Shows height text value) : Proper height (key, .shown text value) :=
  ⟨bare_of_plain plain, shows⟩

end CognitiveOs.Infra.Cjson
