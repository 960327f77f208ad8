import CognitiveOs.Cognition.Planner.Replies
import CognitiveOs.Infra.Follow

/-!
# DSML tags in longer texts

What `dsml_tag_read` reads of a text it reads the same whatever follows, and a closing tag has no
`<` but its first byte.
-/

namespace CognitiveOs.Cognition.Planner

open Infra Cjson

/-! ### Runs of bytes -/

variable {s after : Text} {c : UInt8}

theorem dsmlSpace_append (visible : dsmlSpace s ≠ []) (t : Text) : dsmlSpace (s ++ t) = dsmlSpace s ++ t := by
  unfold dsmlSpace at visible ⊢
  rw [List.dropWhile_append, if_neg]
  simpa using visible

theorem dsmlSpace_spaces {spaces : Text} (blank : ∀ c ∈ spaces, isSpace c = true) (s : Text) :
    dsmlSpace (spaces ++ s) = dsmlSpace s :=
  List.dropWhile_append_of_pos blank

theorem dsmlSpace_cons (visible : isSpace c = false) (s : Text) : dsmlSpace (c :: s) = c :: s :=
  List.dropWhile_cons_of_neg (by rw [visible]; exact Bool.false_ne_true)

theorem dsmlSpace_split (s : Text) : ∃ spaces, s = spaces ++ dsmlSpace s ∧ ∀ c ∈ spaces, isSpace c = true :=
  ⟨s.takeWhile isSpace, List.takeWhile_append_dropWhile.symm, fun _ member => List.mem_takeWhile_imp member⟩

theorem dsmlSpace_suffix (visible : dsmlSpace s = c :: after) : after <:+ s := by
  refine (List.suffix_cons c after).trans ?_
  rw [← visible]
  exact List.dropWhile_suffix _

theorem takeWhile_stops {p : UInt8 → Bool} (stops : s.drop (s.takeWhile p).length ≠ []) (t : Text) :
    (s ++ t).takeWhile p = s.takeWhile p ∧
      (s ++ t).drop (s.takeWhile p).length = s.drop (s.takeWhile p).length ++ t := by
  have short : (s.takeWhile p).length < s.length := by
    rw [ne_eq, List.drop_eq_nil_iff] at stops
    omega
  constructor
  · rw [List.takeWhile_append, if_neg (by omega)]
  · exact List.drop_append_of_le_length (by omega)

theorem takeWhile_run {p : UInt8 → Bool} {run : Text} (inside : ∀ b ∈ run, p b = true) (stop : p c = false) (s : Text) :
    (run ++ c :: s).takeWhile p = run := by
  rw [List.takeWhile_append_of_pos inside, List.takeWhile_cons_of_neg (by rw [stop]; exact Bool.false_ne_true),
    List.append_nil]

/-! ### Attributes -/

variable {tag found : DsmlTag} {fuel : Nat} {rest : Text}

theorem readAttributes_nil (fuel : Nat) (tag : DsmlTag) : readAttributes fuel tag [] = none := by
  cases fuel <;> rfl

theorem readAttributes_end (close : dsmlSpace s = 62 :: after) (fuel : Nat) (tag : DsmlTag) :
    readAttributes (fuel + 1) tag s = some (tag, after) := by
  rw [readAttributes, close]
  rfl

theorem set_closing {next : DsmlTag} {key value : Text} (set : tag.set key value = some next) :
    next.closing = tag.closing := by
  unfold DsmlTag.set at set
  split at set
  · split at set
    · cases set
    · cases set
      rfl
  · split at set
    · split at set
      · cases set
      · split at set
        · cases set
          rfl
        · split at set
          · cases set
            rfl
          · cases set
    · cases set

theorem readAttributes_cases (read : readAttributes (fuel + 1) tag s = some (found, rest)) :
    (found = tag ∧ dsmlSpace s = 62 :: rest) ∨
      tag.closing = false ∧ ∃ next left, next.closing = tag.closing ∧ left <:+ s ∧
        readAttributes fuel next left = some (found, rest) ∧
        ∀ more t, readAttributes (more + 1) tag (s ++ t) = readAttributes more next (left ++ t) := by
  rw [readAttributes] at read
  cases visible : dsmlSpace s with
  | nil =>
    rw [visible] at read
    cases read
  | cons c after =>
    rw [visible] at read
    simp only at read
    split at read
    · next close =>
      cases read
      exact .inl ⟨rfl, by rw [close]⟩
    · next close =>
      split at read
      · cases read
      · next opening =>
        split at read
        · next value equals =>
          split at read
          · next quote value' quoted =>
            split at read
            · cases read
            · next isQuote =>
              split at read
              · cases read
              · next last left behind =>
                obtain ⟨next, set, reads⟩ := Option.bind_eq_some_iff.mp read
                have inner : c :: after <:+ s := by
                  rw [← visible]
                  exact List.dropWhile_suffix _
                have tail : left <:+ value' := by
                  have := List.drop_suffix (value'.takeWhile (· ≠ quote)).length value'
                  rw [behind] at this
                  exact (List.suffix_cons _ _).trans this
                have within := (((tail.trans (dsmlSpace_suffix quoted)).trans (dsmlSpace_suffix equals)).trans
                  (List.drop_suffix _ _)).trans inner
                refine .inr ⟨by simpa using opening, next, left, set_closing set, within, reads, fun more t => ?_⟩
                have stops : (c :: after).drop ((c :: after).takeWhile isAttributeChar).length ≠ [] := by
                  intro nothing
                  rw [nothing] at equals
                  cases equals
                obtain ⟨key, keyed⟩ := takeWhile_stops stops t
                obtain ⟨text, closed⟩ := takeWhile_stops (by rw [behind]; exact List.cons_ne_nil _ _) t
                rw [readAttributes, dsmlSpace_append (by rw [visible]; exact List.cons_ne_nil _ _), visible,
                  List.cons_append]
                simp only
                rw [if_neg close, if_neg opening, ← List.cons_append, key, keyed,
                  dsmlSpace_append (by rw [equals]; exact List.cons_ne_nil _ _), equals, List.cons_append]
                simp only
                rw [dsmlSpace_append (by rw [quoted]; exact List.cons_ne_nil _ _), quoted, List.cons_append]
                simp only
                rw [if_neg isQuote, text, closed, behind, List.cons_append, set]
                rfl
          · cases read
        · cases read

theorem readAttributes_keeps (read : readAttributes fuel tag s = some (found, rest)) :
    found.closing = tag.closing ∧ rest <:+ s := by
  induction fuel generalizing tag s with
  | zero => cases read
  | succ fuel ih =>
    obtain ⟨rfl, close⟩ | ⟨-, next, left, keeps, within, reads, -⟩ := readAttributes_cases read
    · exact ⟨rfl, dsmlSpace_suffix close⟩
    · obtain ⟨same, suffix⟩ := ih reads
      exact ⟨same.trans keeps, suffix.trans within⟩

theorem readAttributes_closing (closing : tag.closing = true) (read : readAttributes fuel tag s = some (found, rest)) :
    found = tag ∧ dsmlSpace s = 62 :: rest := by
  cases fuel with
  | zero => cases read
  | succ fuel =>
    obtain close | ⟨opening, -⟩ := readAttributes_cases read
    · exact close
    · rw [closing] at opening
      cases opening

theorem readAttributes_local (read : readAttributes fuel tag s = some (found, rest)) {more : Nat}
    (enough : fuel ≤ more) (t : Text) : readAttributes more tag (s ++ t) = some (found, rest ++ t) := by
  induction fuel generalizing tag s more with
  | zero => cases read
  | succ fuel ih =>
    obtain ⟨more, rfl⟩ : ∃ m, more = m + 1 := ⟨more - 1, by omega⟩
    obtain ⟨rfl, close⟩ | ⟨-, next, left, -, -, reads, same⟩ := readAttributes_cases read
    · refine readAttributes_end ?_ more found
      rw [dsmlSpace_append (by rw [close]; exact List.cons_ne_nil _ _), close, List.cons_append]
    · rw [same]
      exact ih reads (by omega)

theorem letter_visible (letter : isAttributeChar c = true) : isSpace c = false ∧ c ≠ 62 := by
  have codes : (65 ≤ c.toNat ∧ c.toNat ≤ 90) ∨ (97 ≤ c.toNat ∧ c.toNat ≤ 122) ∨ c.toNat = 95 := by
    simpa [isAttributeChar, isAlpha, UInt8.le_iff_toNat_le, ← UInt8.toNat_inj, or_assoc] using letter
  constructor
  · simp only [isSpace, UInt8.le_iff_toNat_le, ← UInt8.toNat_inj]
    simp
    omega
  · rintro rfl
    revert codes
    decide

def attributeText (quote : UInt8) (key value : Text) : Text :=
  32 :: (key ++ 61 :: quote :: (value ++ [quote]))

theorem readAttributes_attribute {quote : UInt8} {key value : Text} (opening : tag.closing = false)
    (isQuote : quote = 34 ∨ quote = 39) (named : key ≠ []) (letters : ∀ c ∈ key, isAttributeChar c = true)
    (unquoted : quote ∉ value) (s : Text) :
    readAttributes (fuel + 1) tag (attributeText quote key value ++ s) =
      (tag.set key value).bind fun tag => readAttributes fuel tag s := by
  obtain ⟨c, key, rfl⟩ := List.exists_cons_of_ne_nil named
  obtain ⟨visible, other⟩ := letter_visible (letters c (by simp))
  have quoteVisible : isSpace quote = false := by
    rcases isQuote with rfl | rfl <;> decide
  have shape : attributeText quote (c :: key) value ++ s =
      [32] ++ (c :: (key ++ 61 :: quote :: (value ++ quote :: s))) := by
    simp [attributeText]
  have run : (c :: key ++ 61 :: quote :: (value ++ quote :: s)).takeWhile isAttributeChar = c :: key :=
    takeWhile_run letters (by decide) _
  have text : (value ++ quote :: s).takeWhile (· ≠ quote) = value :=
    takeWhile_run (fun b member => by simpa using fun (same : b = quote) => unquoted (same ▸ member)) (by simp) s
  rw [readAttributes, shape, dsmlSpace_spaces (by simp [isSpace]), dsmlSpace_cons visible]
  simp only
  rw [if_neg other, if_neg (by rw [opening]; exact Bool.false_ne_true), ← List.cons_append, run, List.drop_left,
    dsmlSpace_cons (by decide)]
  simp only
  rw [dsmlSpace_cons quoteVisible]
  simp only
  rw [if_neg (by rcases isQuote with rfl | rfl <;> decide), text, List.drop_left]

/-! ### Tags -/

/-- What stands in front of the `<` of a tag. -/
def Lead (lead : Text) : Prop :=
  (∀ c ∈ lead, isSpace c = true) ∨ ∃ spaces, lead = spaces ++ [92] ∧ ∀ c ∈ spaces, isSpace c = true

def slash (closing : Bool) : Text :=
  if closing then [47] else []

def readKind (closing : Bool) (body : Text) : Option (DsmlTag × Text) :=
  let s := dsmlSpace body
  let kind := s.takeWhile isKindChar
  if kind = [] ∨ 32 ≤ kind.length then none
  else readAttributes (s.length + 1) { kind, closing } (s.drop kind.length)

theorem dsml_unique : ∀ d ∈ dsmlPrefixes, ∀ d' ∈ dsmlPrefixes, d <+: d' → d = d' := by
  decide

theorem find_dsml {d : Text} :
    (dsmlPrefixes.find? fun dsml => dsml.isPrefixOf s) = some d ↔ d ∈ dsmlPrefixes ∧ d <+: s := by
  constructor
  · intro found
    have start := List.find?_some found
    exact ⟨List.mem_of_find?_eq_some found, List.isPrefixOf_iff_prefix.mp start⟩
  · rintro ⟨member, start⟩
    cases found : dsmlPrefixes.find? fun dsml => dsml.isPrefixOf s with
    | none =>
      have other := List.find?_eq_none.mp found d member
      rw [List.isPrefixOf_iff_prefix] at other
      exact absurd start other
    | some d' =>
      have start' := List.find?_some found
      have member' := List.mem_of_find?_eq_some found
      rcases List.prefix_or_prefix_of_prefix start (List.isPrefixOf_iff_prefix.mp start') with front | front
      · rw [dsml_unique d member d' member' front]
      · rw [dsml_unique d' member' d member front]

theorem dsml_head {d : Text} (member : d ∈ dsmlPrefixes) : d.head? ≠ some 47 ∧ d ≠ [] ∧ 60 ∉ d ∧ 0 ∉ d := by
  revert d
  decide

/-- A tag behind its `<`. -/
def readMark (s : Text) : Option (DsmlTag × Text) :=
  let closing : Bool := s.head? = some 47
  let s := if closing then s.drop 1 else s
  match dsmlPrefixes.find? fun dsml => dsml.isPrefixOf s with
  | none => none
  | some dsml => readKind closing (s.drop dsml.length)

theorem dsmlTagRead_eq (s : Text) : dsmlTagRead s =
    match if (dsmlSpace s).take 2 = [92, 60] then (dsmlSpace s).drop 1 else dsmlSpace s with
    | 60 :: s => readMark s
    | _ => none :=
  rfl

theorem readMark_iff : readMark s = some (tag, rest) ↔
    ∃ closing dsml body, s = slash closing ++ (dsml ++ body) ∧ dsml ∈ dsmlPrefixes ∧
      readKind closing body = some (tag, rest) := by
  unfold readMark
  simp only
  constructor
  · intro read
    split at read
    · cases read
    · next dsml found =>
      obtain ⟨member, body, split⟩ := find_dsml.mp found
      rw [← split, List.drop_left] at read
      refine ⟨_, dsml, body, ?_, member, read⟩
      by_cases closing : s.head? = some 47
      · obtain ⟨c, s, rfl⟩ := List.exists_cons_of_ne_nil (show s ≠ [] by rintro rfl; cases closing)
        obtain rfl : c = 47 := by simpa using closing
        simp only [decide_eq_true closing, if_true, List.drop_succ_cons, List.drop_zero] at split
        rw [split, decide_eq_true closing]
        rfl
      · simp only [decide_eq_false closing, Bool.false_eq_true, if_false] at split
        rw [split, decide_eq_false closing]
        rfl
  · rintro ⟨closing, dsml, body, rfl, member, read⟩
    have found : (dsmlPrefixes.find? fun d => d.isPrefixOf (dsml ++ body)) = some dsml :=
      find_dsml.mpr ⟨member, List.prefix_append _ _⟩
    cases closing with
    | true =>
      simp only [slash, if_true, List.singleton_append, List.head?_cons, decide_true, List.drop_succ_cons,
        List.drop_zero, found, List.drop_left, read]
    | false =>
      obtain ⟨head, some_byte, -⟩ := dsml_head member
      have other : ¬ (dsml ++ body).head? = some 47 := by
        rw [List.head?_append_of_ne_nil _ some_byte]
        exact head
      simp only [slash, Bool.false_eq_true, if_false, List.nil_append, decide_eq_false other, found, List.drop_left,
        read]

theorem dsmlTagRead_iff : dsmlTagRead s = some (tag, rest) ↔
    ∃ lead closing dsml body, s = lead ++ 60 :: (slash closing ++ (dsml ++ body)) ∧ Lead lead ∧
      dsml ∈ dsmlPrefixes ∧ readKind closing body = some (tag, rest) := by
  rw [dsmlTagRead_eq]
  constructor
  · intro read
    obtain ⟨spaces, split, blank⟩ := dsmlSpace_split s
    split at read
    · next u start =>
      obtain ⟨closing, dsml, body, rfl, member, reads⟩ := readMark_iff.mp read
      by_cases escaped : (dsmlSpace s).take 2 = [92, 60]
      · rw [if_pos escaped] at start
        have whole : dsmlSpace s = 92 :: 60 :: (slash closing ++ (dsml ++ body)) := by
          have visible : dsmlSpace s ≠ [] := by
            intro nothing
            simp [nothing] at escaped
          obtain ⟨c, r, same⟩ := List.exists_cons_of_ne_nil visible
          rw [same] at start escaped ⊢
          rw [List.take_succ_cons] at escaped
          rw [(List.cons.inj escaped).1, ← start]
          rfl
        refine ⟨spaces ++ [92], closing, dsml, body, ?_, .inr ⟨spaces, rfl, blank⟩, member, reads⟩
        rw [split, whole]
        simp
      · rw [if_neg escaped] at start
        exact ⟨spaces, closing, dsml, body, by rw [split, start], .inl blank, member, reads⟩
    · cases read
  · rintro ⟨lead, closing, dsml, body, rfl, isLead, member, reads⟩
    have read := readMark_iff.mpr ⟨closing, dsml, body, rfl, member, reads⟩
    rcases isLead with blank | ⟨spaces, rfl, blank⟩
    · rw [dsmlSpace_spaces blank, dsmlSpace_cons (by decide), if_neg (by simp)]
      exact read
    · rw [List.append_assoc, dsmlSpace_spaces blank, List.singleton_append, dsmlSpace_cons (by decide), if_pos (by rfl)]
      exact read

/-! ### What follows a tag -/

variable {closing : Bool} {body r : Text}

theorem readKind_local (read : readKind closing body = some (tag, rest)) (t : Text) :
    readKind closing (body ++ t) = some (tag, rest ++ t) := by
  unfold readKind at read ⊢
  simp only at read ⊢
  split at read
  · cases read
  · next fits =>
    have stops : (dsmlSpace body).drop ((dsmlSpace body).takeWhile isKindChar).length ≠ [] := by
      intro nothing
      rw [nothing, readAttributes_nil] at read
      cases read
    have visible : dsmlSpace body ≠ [] := by
      intro nothing
      rw [nothing] at stops
      exact stops rfl
    obtain ⟨kind, left⟩ := takeWhile_stops stops t
    rw [dsmlSpace_append visible, kind, left, if_neg fits]
    exact readAttributes_local read (by rw [List.length_append]; omega) t

theorem dsmlTagRead_local (read : dsmlTagRead s = some (tag, rest)) (t : Text) :
    dsmlTagRead (s ++ t) = some (tag, rest ++ t) := by
  obtain ⟨lead, closing, dsml, body, rfl, isLead, member, reads⟩ := dsmlTagRead_iff.mp read
  exact dsmlTagRead_iff.mpr
    ⟨lead, closing, dsml, body ++ t, by simp, isLead, member, readKind_local reads t⟩

theorem kindChar_visible (letter : isKindChar c = true) : isSpace c = false ∧ c ≠ 60 ∧ c ≠ 0 := by
  have codes : (65 ≤ c.toNat ∧ c.toNat ≤ 90) ∨ (97 ≤ c.toNat ∧ c.toNat ≤ 122) ∨ (48 ≤ c.toNat ∧ c.toNat ≤ 57) ∨
      c.toNat = 95 := by
    simpa [isKindChar, isAlpha, isDigit, UInt8.le_iff_toNat_le, ← UInt8.toNat_inj, or_assoc] using letter
  refine ⟨?_, ?_, ?_⟩
  · simp only [isSpace, UInt8.le_iff_toNat_le, ← UInt8.toNat_inj]
    simp
    omega
  · rintro rfl
    revert codes
    decide
  · rintro rfl
    revert codes
    decide

theorem readKind_run {spaces kind : Text} (blank : ∀ b ∈ spaces, isSpace b = true) (named : kind ≠ [])
    (short : kind.length < 32) (letters : ∀ b ∈ kind, isKindChar b = true) (stop : isKindChar c = false) :
    readKind closing (spaces ++ (kind ++ c :: s)) =
      readAttributes ((kind ++ c :: s).length + 1) { kind, closing } (c :: s) := by
  obtain ⟨b, kind, rfl⟩ := List.exists_cons_of_ne_nil named
  have visible := (kindChar_visible (letters b (by simp))).1
  unfold readKind
  simp only
  rw [dsmlSpace_spaces blank, List.cons_append, dsmlSpace_cons visible, ← List.cons_append, takeWhile_run letters stop,
    List.drop_left, if_neg (by rw [not_or]; exact ⟨named, by omega⟩)]

theorem readKind_closing (read : readKind true body = some (tag, rest)) :
    ∃ part, body = part ++ rest ∧ 60 ∉ part ∧ ∀ t, readKind true (part ++ t) = some (tag, t) := by
  unfold readKind at read
  simp only at read
  split at read
  · cases read
  · next fits =>
    rw [not_or, not_le] at fits
    obtain ⟨rfl, close⟩ := readAttributes_closing rfl read
    obtain ⟨spaces, split, blank⟩ := dsmlSpace_split body
    generalize shown : dsmlSpace body = s at split close fits
    obtain ⟨spaces', split', blank'⟩ := dsmlSpace_split (s.drop (s.takeWhile isKindChar).length)
    have whole : s = s.takeWhile isKindChar ++ (spaces' ++ 62 :: rest) := by
      rw [← close, ← split']
      exact (List.prefix_iff_eq_append.mp (List.takeWhile_prefix _)).symm
    have letters (c : UInt8) (member : c ∈ s.takeWhile isKindChar) : isKindChar c = true :=
      List.mem_takeWhile_imp member
    generalize s.takeWhile isKindChar = kind at whole letters fits
    refine ⟨spaces ++ (kind ++ (spaces' ++ [62])), ?_, ?_, fun t => ?_⟩
    · rw [split, whole]
      simp
    · have noSpace : isSpace 60 = false := by decide
      simp only [List.mem_append, List.mem_singleton, not_or]
      refine ⟨fun member => ?_, fun member => (kindChar_visible (letters 60 member)).2.1 rfl, fun member => ?_,
        by decide⟩
      · rw [blank 60 member] at noSpace
        cases noSpace
      · rw [blank' 60 member] at noSpace
        cases noSpace
    · have shape : spaces ++ (kind ++ (spaces' ++ [62])) ++ t = spaces ++ (kind ++ (spaces' ++ 62 :: t)) := by simp
      have ends : dsmlSpace (spaces' ++ 62 :: t) = 62 :: t := by
        rw [dsmlSpace_spaces blank', dsmlSpace_cons (by decide)]
      obtain ⟨c, after, first, stop⟩ : ∃ c after, spaces' ++ 62 :: t = c :: after ∧ isKindChar c = false := by
        cases spaces' with
        | nil => exact ⟨62, t, rfl, by decide⟩
        | cons c spaces' =>
          refine ⟨c, spaces' ++ 62 :: t, rfl, ?_⟩
          by_contra letter
          rw [Bool.not_eq_false] at letter
          have := (kindChar_visible letter).1
          rw [blank' c (by simp)] at this
          cases this
      rw [shape, first, readKind_run blank fits.1 fits.2 letters stop, ← first, readAttributes_end ends]

theorem readKind_keeps (read : readKind closing body = some (tag, rest)) : tag.closing = closing ∧ rest <:+ body := by
  unfold readKind at read
  simp only at read
  split at read
  · cases read
  · obtain ⟨keeps, within⟩ := readAttributes_keeps read
    exact ⟨keeps, within.trans ((List.drop_suffix _ _).trans (List.dropWhile_suffix _))⟩

theorem dsmlTagRead_suffix (read : dsmlTagRead s = some (tag, rest)) : rest <:+ s := by
  obtain ⟨lead, closing, dsml, body, rfl, -, -, reads⟩ := dsmlTagRead_iff.mp read
  have inner := (readKind_keeps reads).2
  exact ((((inner.trans (List.suffix_append _ _)).trans (List.suffix_append _ _)).trans (List.suffix_cons _ _)).trans
    (List.suffix_append _ _))

theorem lead_no_mark {lead : Text} (isLead : Lead lead) : 60 ∉ lead := by
  have noSpace : isSpace 60 = false := by decide
  rcases isLead with blank | ⟨spaces, rfl, blank⟩
  · intro member
    rw [blank 60 member] at noSpace
    cases noSpace
  · intro member
    rcases List.mem_append.mp member with member | member
    · rw [blank 60 member] at noSpace
      cases noSpace
    · revert member
      decide

theorem dsmlTagRead_before (closing : tag.closing = true)
    (read : dsmlTagRead (60 :: (s ++ 60 :: r)) = some (tag, rest)) :
    ∃ rest', dsmlTagRead (60 :: s) = some (tag, rest') := by
  obtain ⟨lead, closes, dsml, body, split, isLead, member, reads⟩ := dsmlTagRead_iff.mp read
  obtain rfl : closes = true := (readKind_keeps reads).1.symm.trans closing
  obtain ⟨part, rfl, whole, again⟩ := readKind_closing reads
  cases lead with
  | cons c lead =>
    obtain ⟨rfl, -⟩ := List.cons.inj split
    exact absurd List.mem_cons_self (lead_no_mark isLead)
  | nil =>
    have inner : s ++ 60 :: r = (47 :: (dsml ++ part)) ++ rest := by
      simpa [slash] using (List.cons.inj split).2
    have noMark : 60 ∉ (47 :: (dsml ++ part) : Text) := by
      simp only [List.mem_cons, List.mem_append, not_or]
      exact ⟨by decide, (dsml_head member).2.2.1, whole⟩
    obtain ⟨left, rfl⟩ : ∃ left, s = (47 :: (dsml ++ part)) ++ left := by
      rcases List.append_eq_append_iff.mp inner with ⟨left, same, others⟩ | ⟨left, same, -⟩
      · cases left with
        | nil => exact ⟨[], by rw [List.append_nil] at same ⊢; exact same.symm⟩
        | cons c left =>
          obtain ⟨rfl, -⟩ := List.cons.inj others
          rw [same] at noMark
          exact absurd (List.mem_append_right _ List.mem_cons_self) noMark
      · exact ⟨left, same⟩
    refine ⟨left, dsmlTagRead_iff.mpr ⟨[], true, dsml, part ++ left, ?_, .inl (by simp), member, again left⟩⟩
    simp [slash]

/-! ### Texts of parameters -/

variable {text : Text}

def closesParameter (s : Text) : Bool :=
  (dsmlTagRead s).any fun (tag, _) => closesWith tag (ascii "parameter")

theorem parameterText_cons (c : UInt8) (s : Text) : parameterText (c :: s) =
    if c = 60 ∧ closesParameter (c :: s) = true then some ([], c :: s)
    else (parameterText s).map fun (text, after) => (c :: text, after) := by
  rw [parameterText]
  simp only [closesParameter, Bool.and_eq_true, decide_eq_true_eq]
  exact if_congr Iff.rfl rfl rfl

theorem closesParameter_iff : closesParameter s = true ↔
    ∃ tag rest, dsmlTagRead s = some (tag, rest) ∧ closesWith tag (ascii "parameter") = true := by
  rw [closesParameter, Option.any_eq_true]
  exact ⟨fun ⟨pair, read, closes⟩ => ⟨pair.1, pair.2, read, closes⟩, fun ⟨tag, rest, read, closes⟩ =>
    ⟨(tag, rest), read, closes⟩⟩

theorem closesParameter_append (closes : closesParameter s = true) (t : Text) : closesParameter (s ++ t) = true := by
  obtain ⟨tag, rest, read, parameter⟩ := closesParameter_iff.mp closes
  exact closesParameter_iff.mpr ⟨tag, rest ++ t, dsmlTagRead_local read t, parameter⟩

theorem closesParameter_before (closes : closesParameter (60 :: (s ++ 60 :: r)) = true) :
    closesParameter (60 :: s) = true := by
  obtain ⟨tag, rest, read, parameter⟩ := closesParameter_iff.mp closes
  have closing : tag.closing = true := (Bool.and_eq_true_iff.mp parameter).1
  obtain ⟨rest', within⟩ := dsmlTagRead_before closing read
  exact closesParameter_iff.mpr ⟨tag, rest', within, parameter⟩

def ClosingFree (s : Text) : Prop :=
  ∀ front back, s = front ++ 60 :: back → closesParameter (60 :: back) = false

theorem ClosingFree.tail (free : ClosingFree (c :: s)) : ClosingFree s :=
  fun front back split => free (c :: front) back (by rw [split]; rfl)

theorem parameterText_append (free : ClosingFree text) (close : closesParameter (60 :: r) = true) :
    parameterText (text ++ 60 :: r) = some (text, 60 :: r) := by
  induction text with
  | nil => rw [List.nil_append, parameterText_cons, if_pos ⟨rfl, close⟩]
  | cons c text ih =>
    rw [List.cons_append, parameterText_cons, if_neg, ih free.tail]
    · rfl
    · rintro ⟨rfl, closes⟩
      have := free [] text rfl
      rw [closesParameter_before closes] at this
      cases this

theorem closingFree_of_none (none : parameterText s = none) : ClosingFree s := by
  induction s with
  | nil =>
    intro front back split
    cases front <;> cases split
  | cons c s ih =>
    rw [parameterText_cons] at none
    split at none
    · cases none
    · next open_ =>
      intro front back split
      cases front with
      | cons d front => exact ih (Option.map_eq_none_iff.mp none) front back (List.cons.inj split).2
      | nil =>
        obtain ⟨rfl, rfl⟩ := List.cons.inj split
        by_contra closes
        rw [Bool.not_eq_false] at closes
        exact open_ ⟨rfl, closes⟩

theorem parameterText_split (read : parameterText s = some (text, after)) :
    s = text ++ after ∧ ClosingFree text ∧ ∃ r, after = 60 :: r ∧ closesParameter (60 :: r) = true := by
  induction s generalizing text with
  | nil => cases read
  | cons c s ih =>
    rw [parameterText_cons] at read
    split at read
    · next close =>
      cases read
      obtain ⟨rfl, closes⟩ := close
      refine ⟨rfl, fun front back split => ?_, s, rfl, closes⟩
      cases front <;> cases split
    · next open_ =>
      obtain ⟨⟨later, after'⟩, found, same⟩ := Option.map_eq_some_iff.mp read
      cases same
      obtain ⟨split, free, rest⟩ := ih found
      refine ⟨by rw [split]; rfl, fun front back within => ?_, rest⟩
      cases front with
      | cons d front => exact free front back (List.cons.inj within).2
      | nil =>
        obtain ⟨rfl, rfl⟩ := List.cons.inj within
        by_contra closes
        rw [Bool.not_eq_false] at closes
        refine open_ ⟨rfl, ?_⟩
        rw [split, ← List.cons_append]
        exact closesParameter_append closes _

theorem parameterText_local (read : parameterText s = some (text, after)) (t : Text) :
    parameterText (s ++ t) = some (text, after ++ t) := by
  obtain ⟨rfl, free, r, rfl, closes⟩ := parameterText_split read
  rw [List.append_assoc]
  exact parameterText_append free (closesParameter_append closes t)

end CognitiveOs.Cognition.Planner

/-!
## DSML calls in longer texts

The calls that are read of a text up to a closing tag are read the same of every longer text.
-/

namespace CognitiveOs.Cognition.Planner

open Infra Cjson

/-! ### Values -/

variable {s rest t : Text}

theorem ends_of_tag {tag : DsmlTag} (read : dsmlTagRead s = some (tag, rest)) (json : Json) : Ends json s := by
  obtain ⟨lead, closing, dsml, body, rfl, isLead, -, -⟩ := dsmlTagRead_iff.mp read
  have blanks (c : UInt8) (space : isSpace c = true) : isNumberByte c = false := by
    refine space_not_number ?_
    have codes : c.toNat = 32 ∨ (9 ≤ c.toNat ∧ c.toNat ≤ 13) := by
      simpa [isSpace, UInt8.le_iff_toNat_le, ← UInt8.toNat_inj] using space
    rw [UInt8.le_iff_toNat_le]
    show c.toNat ≤ 32
    omega
  cases json with
  | number value =>
    cases lead with
    | nil => exact ⟨60, _, rfl, by decide⟩
    | cons c lead =>
      refine ⟨c, _, rfl, ?_⟩
      rcases isLead with blank | ⟨spaces, split, blank⟩
      · exact blanks c (blank c (by simp))
      · cases spaces with
        | nil =>
          obtain ⟨rfl, -⟩ := List.cons.inj split
          decide
        | cons d spaces =>
          obtain ⟨rfl, -⟩ := List.cons.inj split
          exact blanks c (blank c (by simp))
  | _ => trivial

theorem parameterValue_local {tag close : DsmlTag} {after : Text} {value : Json}
    (read : parameterValue tag s = some (value, after)) (next : dsmlTagRead after = some (close, rest)) (text : 0 ∉ s)
    (more : 0 ∉ t) : parameterValue tag (s ++ t) = some (value, after ++ t) ∧ after <:+ s := by
  unfold parameterValue at read ⊢
  split at read
  · next isText =>
    rw [if_pos isText]
    obtain ⟨⟨string, after'⟩, found, same⟩ := Option.map_eq_some_iff.mp read
    cases same
    obtain ⟨split, -⟩ := parameterText_split found
    refine ⟨?_, ⟨string, split.symm⟩⟩
    rw [parameterText_local found t]
    rfl
  · next isText =>
    rw [if_neg isText]
    exact parseWithEnd_local read (ends_of_tag next value) text more

/-! ### Parameters and calls -/

theorem not_mem_of_suffix (within : rest <:+ s) (text : 0 ∉ s) : 0 ∉ rest :=
  fun member => text (within.subset member)

theorem dsmlParameters_local {fuel : Nat} {args : List (Text × Json)} {envelope : Bool} {found : Json}
    (read : dsmlParameters fuel args envelope s = some (found, rest)) {more : Nat} (enough : fuel ≤ more)
    (text : 0 ∉ s) (clean : 0 ∉ t) :
    dsmlParameters more args envelope (s ++ t) = some (found, rest ++ t) ∧ rest <:+ s := by
  induction fuel generalizing args envelope s more with
  | zero => cases read
  | succ fuel ih =>
    obtain ⟨more, rfl⟩ : ∃ m, more = m + 1 := ⟨more - 1, by omega⟩
    rw [dsmlParameters] at read ⊢
    split at read
    · cases read
    · next tag behind tagged =>
      have inner := dsmlTagRead_suffix tagged
      rw [dsmlTagRead_local tagged t]
      simp only
      split at read
      · next closes =>
        cases read
        rw [if_pos closes]
        exact ⟨rfl, inner⟩
      · next closes =>
        rw [if_neg closes]
        split at read
        · cases read
        · next parameter =>
          rw [if_neg parameter]
          split at read
          · cases read
          · next fresh =>
            rw [if_neg fresh]
            split at read
            · cases read
            · next value after valued =>
              split at read
              · cases read
              · next close left closed =>
                obtain ⟨again, within⟩ := parameterValue_local valued closed (not_mem_of_suffix inner text) clean
                have past := ((dsmlTagRead_suffix closed).trans within).trans inner
                rw [again]
                simp only
                rw [dsmlTagRead_local closed t]
                simp only
                split at read
                · cases read
                · next ends =>
                  rw [if_neg ends]
                  have later {args' : List (Text × Json)} {envelope' : Bool}
                      (reads : dsmlParameters fuel args' envelope' left = some (found, rest)) :
                      dsmlParameters more args' envelope' (left ++ t) = some (found, rest ++ t) ∧ rest <:+ s := by
                    obtain ⟨reads', within'⟩ := ih reads (by omega : fuel ≤ more) (not_mem_of_suffix past text)
                    exact ⟨reads', within'.trans past⟩
                  split at read
                  · split at read
                    · next isArgs =>
                      rw [if_pos isArgs]
                      split at read
                      · cases read
                      · next first =>
                        rw [if_neg first]
                        exact later read
                    · next isArgs =>
                      rw [if_neg isArgs]
                      exact later read
                  · next other =>
                    exact later read

theorem dsmlInvokes_local {outer : Text} {fuel : Nat} {actions : List PlannedAction}
    (read : dsmlInvokes outer fuel s = some (actions, rest)) {more : Nat} (enough : fuel ≤ more) (text : 0 ∉ s)
    (clean : 0 ∉ t) : dsmlInvokes outer more (s ++ t) = some (actions, rest ++ t) := by
  induction fuel generalizing s actions more with
  | zero => cases read
  | succ fuel ih =>
    obtain ⟨more, rfl⟩ : ∃ m, more = m + 1 := ⟨more - 1, by omega⟩
    rw [dsmlInvokes] at read ⊢
    split at read
    · cases read
    · next tag behind tagged =>
      have inner := dsmlTagRead_suffix tagged
      rw [dsmlTagRead_local tagged t]
      simp only
      split at read
      · next closes =>
        cases read
        rw [if_pos closes]
      · next closes =>
        rw [if_neg closes]
        split at read
        · cases read
        · next invoke =>
          rw [if_neg invoke]
          split at read
          · cases read
          · next args left given =>
            obtain ⟨again, within⟩ := dsmlParameters_local given
              (by rw [List.length_append]; omega : behind.length + 1 ≤ (behind ++ t).length + 1)
              (not_mem_of_suffix inner text) clean
            rw [again]
            obtain ⟨⟨others, rest'⟩, reads, same⟩ := Option.map_eq_some_iff.mp read
            cases same
            simp only
            rw [ih reads (by omega) (not_mem_of_suffix (within.trans inner) text)]
            rfl

end CognitiveOs.Cognition.Planner
