import CognitiveOs.Cognition.FullReads

/-!
# Reading a file page by page

The pages that `file_read` of `action/tool_file.c` prints when each call starts where the header of
the last page says.
-/

namespace CognitiveOs.Cognition

open Infra Os

/-! ### The end of a page -/

theorem utf8SeqLen_le_sequenceWidth (b : UInt8) :
    utf8SeqLen b ≤ sequenceWidth b ∨ (utf8SeqLen b = 2 ∧ (b &&& 0x1F).toNat ≤ 1) ∨
      utf8SeqLen b = 4 ∧ 5 ≤ (b &&& 0x07).toNat := by
  have all : ∀ n < 256, utf8SeqLen (UInt8.ofNat n) ≤ sequenceWidth (UInt8.ofNat n) ∨
      (utf8SeqLen (UInt8.ofNat n) = 2 ∧ (UInt8.ofNat n &&& 0x1F).toNat ≤ 1) ∨
      utf8SeqLen (UInt8.ofNat n) = 4 ∧ 5 ≤ (UInt8.ofNat n &&& 0x07).toNat := by
    decide +kernel
  have this := all b.toNat b.toNat_lt
  rwa [UInt8.ofNat_toNat] at this

theorem le_sequenceWidth {s : Text} {l : Nat} (found : utf8Sequence s = some l) : l ≤ sequenceWidth (s.getD 0 0) := by
  obtain ⟨within, b, rest, taken, size, -, good⟩ := utf8Sequence_eq_some.mp found
  have first : s.getD 0 0 = b := by
    cases s with
    | nil =>
      rw [List.take_nil] at taken
      cases taken
    | cons c s =>
      cases l with
      | zero => cases taken
      | succ l =>
        rw [List.take_succ_cons] at taken
        exact (List.cons.inj taken).1
  have length : rest.length + 1 = l := by
    rw [← List.length_cons, ← taken, List.length_take, Nat.min_eq_left within]
  rw [first]
  rcases utf8SeqLen_le_sequenceWidth b with enough | ⟨two, small⟩ | ⟨four, large⟩
  · exact size ▸ enough
  · obtain rfl : l = 2 := size.symm.trans two
    obtain ⟨c, rfl⟩ := List.length_eq_one_iff.mp (Nat.succ.inj length)
    have low : (c &&& 0x3F).toNat ≤ 63 := by
      rw [UInt8.toNat_and]
      exact Nat.and_le_right
    have code : codePoint [b, c] = (b &&& 0x1F).toNat * 64 + (c &&& 0x3F).toNat := rfl
    rw [taken] at good
    generalize codePoint [b, c] = cp at code good
    simp [badCodePoint] at good
    omega
  · obtain rfl : l = 4 := size.symm.trans four
    obtain ⟨c, d, e, rfl⟩ := List.length_eq_three.mp (Nat.succ.inj length)
    have code : codePoint [b, c, d, e] =
        (((b &&& 0x07).toNat * 64 + (c &&& 0x3F).toNat) * 64 + (d &&& 0x3F).toNat) * 64 + (e &&& 0x3F).toNat := rfl
    rw [taken] at good
    generalize codePoint [b, c, d, e] = cp at code good
    simp [badCodePoint] at good
    omega

theorem trimPage_spec {rest : Text} (valid : strUtf8Valid rest = true) {n : Nat} (enough : 4 ≤ n) :
    ∃ q, trimPage (rest.take n) (decide (n < rest.length)) = rest.take q ∧ q ≤ rest.length ∧
      strUtf8Valid (rest.take q) = true ∧ strUtf8Valid (rest.drop q) = true ∧
      (n < rest.length → 0 < q ∧ q < rest.length) ∧ (rest.length ≤ n → q = rest.length) := by
  rcases Nat.lt_or_ge n rest.length with more | last
  · have size : (rest.take n).length = n := by
      rw [List.length_take, Nat.min_eq_left more.le]
    by_cases whole : strUtf8Valid (rest.take n) = true
    · refine ⟨n, ?_, more.le, whole, ?_, fun _ => ⟨by omega, more⟩, fun _ => by omega⟩
      · unfold trimPage
        rw [if_neg]
        simp [whole]
      · refine strUtf8Valid_rest whole ?_
        rw [List.take_append_drop]
        exact valid
    · have back := boundaryBefore_le rest (n - 1)
      have boundary := boundary_boundaryBefore valid (n - 1)
      have front := strUtf8Valid_take valid boundary
      have behind := strUtf8Valid_drop valid boundary
      obtain ⟨l, found, small, reach, next⟩ := @sequence_at_boundary rest valid (n - 1) (by omega)
      -- the sequence that the page ends in goes on behind the page
      have cut : n < boundaryBefore rest (n - 1) + l := by
        by_contra short
        have ends : boundaryBefore rest (n - 1) + l = n := by omega
        exact whole (ends ▸ strUtf8Valid_take valid next)
      have width := le_sequenceWidth found
      have byte : (rest.drop (boundaryBefore rest (n - 1))).getD 0 0 =
          (rest.take n).getD (boundaryBefore rest (n - 1)) 0 := by
        rw [List.getD_eq_getElem?_getD, List.getD_eq_getElem?_getD, List.getElem?_drop, Nat.add_zero,
          List.getElem?_take_of_lt (by omega)]
      rw [byte] at width
      have shorter : (rest.take n).take (boundaryBefore rest (n - 1)) = rest.take (boundaryBefore rest (n - 1)) := by
        rw [List.take_take, Nat.min_eq_left (by omega)]
      refine ⟨boundaryBefore rest (n - 1), ?_, by omega, front, behind, fun _ => ⟨by omega, by omega⟩,
        fun _ => by omega⟩
      have filled : rest.take n ≠ [] := by
        rw [← List.length_pos_iff]
        omega
      have broken : strUtf8Valid (rest.take n) = false := by simpa using whole
      unfold trimPage
      rw [if_pos ⟨decide_eq_true more, filled, broken⟩]
      simp only [size]
      rw [boundaryBefore_take (by omega), shorter, if_pos ⟨by omega, front⟩]
  · refine ⟨rest.length, ?_, Nat.le_refl _, ?_, ?_, fun more => by omega, fun _ => rfl⟩
    · unfold trimPage
      rw [if_neg (by simp; omega), List.take_of_length_le last, List.take_length]
    · rw [List.take_length]
      exact valid
    · rw [List.drop_length]
      rfl

/-! ### Page after page -/

section

variable (workspace session : Text) (w : World) (path : Text) (sizes : Nat → Nat)

def pageArgs (size offset : Nat) : Option Json :=
  some (.object [(ascii "path", .string path), (ascii "max_bytes", .number size),
    (ascii "offset_bytes", .number offset)])

/-- The pages up to the one that has no more; each call starts at `next_offset_bytes` of the last page. -/
def followPages : Nat → Nat → Nat → List PageEntry → Option (List Page)
  | 0, _, _, _ => none
  | fuel + 1, k, offset, pages =>
    match fileRead workspace session w pages (pageArgs path (sizes k) offset) with
    | .page p kept => if p.hasMore then (followPages fuel (k + 1) p.next kept).map (p :: ·) else some [p]
    | _ => none

end

def rawPage (bytes : Text) (size offset : Nat) : Text :=
  (bytes.drop offset).take (min 4000 size)

def rawMore (bytes : Text) (size offset : Nat) : Bool :=
  decide (min 4000 size < (bytes.drop offset).length)

def pageStart (bytes : Text) (sizes : Nat → Nat) : Nat → Nat
  | 0 => 0
  | k + 1 =>
    let start := pageStart bytes sizes k
    start + (trimPage (rawPage bytes (sizes k) start) (rawMore bytes (sizes k) start)).length

def ReadsWhole (workspace session : Text) (w : World) (path : Text) (sizes : Nat → Nat) (pages : List PageEntry)
    (bytes : Text) : Prop :=
  ∃ fuel ps, followPages workspace session w path sizes fuel 0 0 pages = some ps ∧
    (∀ p ∈ ps, strUtf8Valid p.data = true ∧ p.data <:+ p.output) ∧ (ps.map Page.data).flatten = bytes

/-- The name and the bytes of every page are not those of an image, and its numbers are not too large. -/
def PlainPages (file bytes : Text) (sizes : Nat → Nat) : Prop :=
  imageExtension file = false ∧
    ∀ k, k = 0 ∨ pageStart bytes sizes k < bytes.length →
      pageStart bytes sizes k ≤ 9007199254740991 ∧ sizes k ≤ 9007199254740991 ∧
        imageMime (rawPage bytes (sizes k) (pageStart bytes sizes k)) = none

structure NamesFile (workspace : Text) (w : World) (path bytes : Text) : Prop where
  named : pathResolve 2048 workspace path ≠ []
  opened : w.bytes (toolPath workspace w path) = some bytes
  regular : w.fsIsDir (toolPath workspace w path) = false

def PagesRight (w : World) (file : Text) (pages : List PageEntry) : Prop :=
  ∀ e ∈ pages, e.path = file → e.version = w.fsFileVersion file → e.version ≠ 0 → e.pageBytes ≠ 0 → e.Right w

/-! ### One call -/

theorem wholeNumber_natCast {least n : Nat} (low : least ≤ n) :
    wholeNumber least (.number n) = if n ≤ 9007199254740991 then some n else none := by
  have small : ¬((n : Rat) < least) := by
    rw [not_lt]
    exact_mod_cast low
  have large : (9007199254740991 < (n : Rat)) ↔ 9007199254740991 < n := by
    exact_mod_cast Iff.rfl
  change (if (n : Rat) < least ∨ 9007199254740991 < (n : Rat) ∨ (n : Rat).den ≠ 1 then none
    else some (n : Rat).num.toNat) = _
  by_cases fits : n ≤ 9007199254740991
  · rw [if_neg (by simp only [small, large, false_or]; simpa using fits), if_pos fits]
    simp
  · rw [if_pos (.inr (.inl (large.mpr (Nat.not_le.mp fits)))), if_neg fits]

variable {workspace session : Text} {w : World} {path : Text} {sizes : Nat → Nat} {pages : List PageEntry}
  {bytes : Text}

theorem or_slice {file : Text} (right : PagesRight w file pages) (offset : Nat) {pageBytes : Nat}
    (positive : pageBytes ≠ 0) :
    (cachedPage session w pages file offset pageBytes).or (w.fsReadFileSlice file offset pageBytes) =
      w.fsReadFileSlice file offset pageBytes := by
  cases cached : cachedPage session w pages file offset pageBytes with
  | none => rfl
  | some slice =>
    exact (slice_of_cachedPage (fun e member own version nonzero size =>
      right e member own version nonzero (size ▸ positive)) cached).symm

theorem fileRead_pageArgs (file : NamesFile workspace w path bytes) (text : 0 ∉ bytes)
    (right : PagesRight w (toolPath workspace w path) pages) {size offset : Nat} (enough : 4 ≤ size) :
    if imageExtension (toolPath workspace w path) = false ∧ offset ≤ 9007199254740991 ∧ size ≤ 9007199254740991 ∧
        imageMime (rawPage bytes size offset) = none then
      ∃ p kept, fileRead workspace session w pages (pageArgs path size offset) = .page p kept ∧
        PagesRight w (toolPath workspace w path) kept ∧ p.offset = offset ∧ p.hasMore = rawMore bytes size offset ∧
        p.data = trimPage (rawPage bytes size offset) (rawMore bytes size offset)
    else ∀ p kept, fileRead workspace session w pages (pageArgs path size offset) ≠ .page p kept := by
  have keys : ascii "path" ≠ ascii "max_bytes" ∧ ascii "path" ≠ ascii "offset_bytes" ∧
      ascii "max_bytes" ≠ ascii "offset_bytes" := by
    decide
  have string : argString (pageArgs path size offset) "path" = some path := by
    simp [argString, pageArgs, Json.get?, Json.string?]
  have most : ((pageArgs path size offset).bind fun a => a.get? (ascii "max_bytes")) = some (.number size) := by
    simp [pageArgs, Json.get?, keys]
  have start : ((pageArgs path size offset).bind fun a => a.get? (ascii "offset_bytes")) = some (.number offset) := by
    simp [pageArgs, Json.get?, keys]
  unfold fileRead
  simp only [string, most, start, Option.getD_some, wholeNumber_natCast enough,
    wholeNumber_natCast (Nat.zero_le offset)]
  by_cases small : size ≤ 9007199254740991
  · by_cases near : offset ≤ 9007199254740991
    · rw [if_pos small, if_pos near]
      simp only [file.named, file.regular, Bool.false_and, Bool.false_eq_true, if_false]
      by_cases image : imageExtension (toolPath workspace w path) = false
      · have range : ¬2 ^ 63 ≤ offset := by omega
        have slice : w.fsReadFileSlice (toolPath workspace w path) offset (min 4000 size) =
            some (rawPage bytes size offset, rawMore bytes size offset) := by
          rw [World.fsReadFileSlice, if_neg range, file.opened]
          rfl
        have plain : 0 ∉ rawPage bytes size offset := fun member =>
          text (List.mem_of_mem_drop (List.mem_of_mem_take member))
        simp only [image, Bool.false_eq_true, if_false, true_and, near, small]
        unfold readPage
        simp only
        rw [or_slice right offset (by omega), slice]
        simp only
        cases mime : imageMime (rawPage bytes size offset) with
        | some kind =>
          rw [if_neg (Option.some_ne_none kind)]
          simp
        | none =>
          rw [if_pos rfl, if_neg (by simp), if_neg plain]
          refine ⟨_, _, rfl, ?_, rfl, rfl, rfl⟩
          intro e member own
          split at member
          · unfold filePagePut at member
            split at member
            · exact right e member own
            · rcases List.mem_cons.mp member with rfl | member
              · exact fun _ _ _ => ⟨rfl, slice⟩
              · exact right e member own
          · exact right e member own
      · rw [if_neg fun all => image all.1, if_pos (by simpa using image)]
        exact nofun
    · rw [if_neg fun all => near all.2.1, if_pos small, if_neg near]
      exact nofun
  · rw [if_neg fun all => small all.2.2.1, if_neg small]
    exact nofun

/-! ### The pages of a file -/

theorem page_spec (valid : strUtf8Valid bytes = true) (enough : ∀ k, 4 ≤ sizes k) (k : Nat) :
    strUtf8Valid (bytes.drop (pageStart bytes sizes k)) = true ∧ pageStart bytes sizes k ≤ bytes.length ∧
      ∃ q, trimPage (rawPage bytes (sizes k) (pageStart bytes sizes k))
          (rawMore bytes (sizes k) (pageStart bytes sizes k)) = (bytes.drop (pageStart bytes sizes k)).take q ∧
        pageStart bytes sizes (k + 1) = pageStart bytes sizes k + q ∧
        strUtf8Valid ((bytes.drop (pageStart bytes sizes k)).take q) = true ∧
        (rawMore bytes (sizes k) (pageStart bytes sizes k) = true →
          0 < q ∧ pageStart bytes sizes (k + 1) < bytes.length) ∧
        (rawMore bytes (sizes k) (pageStart bytes sizes k) = false →
          pageStart bytes sizes (k + 1) = bytes.length) := by
  have next {k : Nat} (rest : strUtf8Valid (bytes.drop (pageStart bytes sizes k)) = true)
      (within : pageStart bytes sizes k ≤ bytes.length) :
      ∃ q, trimPage (rawPage bytes (sizes k) (pageStart bytes sizes k))
          (rawMore bytes (sizes k) (pageStart bytes sizes k)) = (bytes.drop (pageStart bytes sizes k)).take q ∧
        pageStart bytes sizes (k + 1) = pageStart bytes sizes k + q ∧ pageStart bytes sizes k + q ≤ bytes.length ∧
        strUtf8Valid ((bytes.drop (pageStart bytes sizes k)).take q) = true ∧
        strUtf8Valid (bytes.drop (pageStart bytes sizes k + q)) = true ∧
        (rawMore bytes (sizes k) (pageStart bytes sizes k) = true →
          0 < q ∧ pageStart bytes sizes k + q < bytes.length) ∧
        (rawMore bytes (sizes k) (pageStart bytes sizes k) = false →
          pageStart bytes sizes k + q = bytes.length) := by
    obtain ⟨q, cut, inside, front, behind, more, last⟩ :=
      @trimPage_spec _ rest (min 4000 (sizes k)) (by have := enough k; omega)
    rw [List.length_drop] at inside
    rw [List.drop_drop] at behind
    refine ⟨q, cut, ?_, by omega, front, behind, fun has => ?_, fun ends => ?_⟩
    · have size : (trimPage (rawPage bytes (sizes k) (pageStart bytes sizes k))
          (rawMore bytes (sizes k) (pageStart bytes sizes k))).length = q := by
        rw [rawPage, rawMore, cut, List.length_take, List.length_drop, Nat.min_eq_left inside]
      rw [pageStart, size]
    · obtain ⟨positive, less⟩ := more (of_decide_eq_true has)
      rw [List.length_drop] at less
      exact ⟨positive, by omega⟩
    · have whole := last (Nat.not_lt.mp (of_decide_eq_false ends))
      rw [List.length_drop] at whole
      omega
  have inside : strUtf8Valid (bytes.drop (pageStart bytes sizes k)) = true ∧
      pageStart bytes sizes k ≤ bytes.length := by
    induction k with
    | zero => exact ⟨valid, Nat.zero_le _⟩
    | succ k ih =>
      obtain ⟨q, -, start, within, -, behind, -⟩ := next ih.1 ih.2
      rw [start]
      exact ⟨behind, within⟩
  obtain ⟨q, cut, start, within, front, behind, more, last⟩ := next inside.1 inside.2
  exact ⟨inside.1, inside.2, q, cut, start, front, start ▸ more, start ▸ last⟩

theorem pageStart_mono : Monotone (pageStart bytes sizes) :=
  monotone_nat_of_le_succ fun _ => Nat.le_add_right _ _

theorem plain_of_followPages (file : NamesFile workspace w path bytes) (text : 0 ∉ bytes)
    (valid : strUtf8Valid bytes = true) (enough : ∀ k, 4 ≤ sizes k) {fuel k : Nat} {ps : List Page}
    (right : PagesRight w (toolPath workspace w path) pages)
    (read : followPages workspace session w path sizes fuel k (pageStart bytes sizes k) pages = some ps) :
    imageExtension (toolPath workspace w path) = false ∧
      ∀ j, k ≤ j → j = k ∨ pageStart bytes sizes j < bytes.length →
        pageStart bytes sizes j ≤ 9007199254740991 ∧ sizes j ≤ 9007199254740991 ∧
          imageMime (rawPage bytes (sizes j) (pageStart bytes sizes j)) = none := by
  induction fuel generalizing k ps pages with
  | zero => cases read
  | succ fuel ih =>
    have call := @fileRead_pageArgs _ session _ _ _ _ file text right (sizes k) (pageStart bytes sizes k) (enough k)
    obtain ⟨-, -, q, cut, start, -, -, last⟩ := @page_spec sizes bytes valid enough k
    unfold followPages at read
    split_ifs at call with plain
    · obtain ⟨p, kept, page, right', offset, more, data⟩ := call
      rw [page] at read
      simp only at read
      refine ⟨plain.1, fun j from' visited => ?_⟩
      rcases Nat.lt_or_eq_of_le from' with behind | rfl
      · have reached : pageStart bytes sizes j < bytes.length := visited.resolve_left (by omega)
        cases has : p.hasMore with
        | true =>
          rw [if_pos has] at read
          obtain ⟨rest, follows, -⟩ := Option.map_eq_some_iff.mp read
          have next : p.next = pageStart bytes sizes (k + 1) := by
            rw [Page.next, offset, data]
            rfl
          rw [next] at follows
          exact (ih right' follows).2 j behind (.inr reached)
        | false =>
          have ends := last (more ▸ has)
          have grown := @pageStart_mono sizes bytes (k + 1) j behind
          omega
      · exact plain.2
    · cases result : fileRead workspace session w pages (pageArgs path (sizes k) (pageStart bytes sizes k)) with
      | page p kept => exact absurd result (call p kept)
      | failed => simp [result] at read
      | listing => simp [result] at read
      | image => simp [result] at read

theorem data_suffix {p : Page} (valid : strUtf8Valid p.data = true) : p.data <:+ p.output := by
  unfold Page.output Page.body
  rw [if_pos valid]
  exact (List.suffix_append _ _).trans (List.suffix_append _ _)

theorem followPages_of_plain (file : NamesFile workspace w path bytes) (text : 0 ∉ bytes)
    (valid : strUtf8Valid bytes = true) (enough : ∀ k, 4 ≤ sizes k)
    (plain : PlainPages (toolPath workspace w path) bytes sizes) {fuel k : Nat}
    (right : PagesRight w (toolPath workspace w path) pages) (visited : k = 0 ∨ pageStart bytes sizes k < bytes.length)
    (fuelled : bytes.length - pageStart bytes sizes k < fuel) :
    ∃ ps, followPages workspace session w path sizes fuel k (pageStart bytes sizes k) pages = some ps ∧
      (∀ p ∈ ps, strUtf8Valid p.data = true ∧ p.data <:+ p.output) ∧
      (ps.map Page.data).flatten = bytes.drop (pageStart bytes sizes k) := by
  induction fuel generalizing k pages with
  | zero => omega
  | succ fuel ih =>
    have call := @fileRead_pageArgs _ session _ _ _ _ file text right (sizes k) (pageStart bytes sizes k) (enough k)
    rw [if_pos ⟨plain.1, plain.2 k visited⟩] at call
    obtain ⟨p, kept, page, right', offset, more, data⟩ := call
    obtain ⟨-, within, q, cut, start, front, onward, last⟩ := @page_spec sizes bytes valid enough k
    rw [cut] at data
    have own : strUtf8Valid p.data = true := data ▸ front
    unfold followPages
    rw [page]
    simp only
    cases has : p.hasMore with
    | true =>
      obtain ⟨positive, less⟩ := onward (more ▸ has)
      have next : p.next = pageStart bytes sizes (k + 1) := by
        have size : p.data.length = q := by
          rw [data, List.length_take, List.length_drop]
          omega
        rw [Page.next, offset, size, start]
      obtain ⟨ps, follows, each, whole⟩ := ih right' (.inr less) (by omega)
      refine ⟨p :: ps, ?_, List.forall_mem_cons.mpr ⟨⟨own, data_suffix own⟩, each⟩, ?_⟩
      · rw [if_pos rfl, next, follows]
        rfl
      · rw [List.map_cons, List.flatten_cons, whole, data, start, ← List.drop_drop, List.take_append_drop]
    | false =>
      have ends := last (more ▸ has)
      refine ⟨[p], by rw [if_neg Bool.false_ne_true], by simpa using ⟨own, data_suffix own⟩, ?_⟩
      rw [List.map_singleton, List.flatten_singleton, data, List.take_of_length_le]
      rw [List.length_drop]
      omega

/-- Following the pages reads the whole file exactly when none of them is taken for an image. -/
theorem reads_whole_iff (file : NamesFile workspace w path bytes) (text : 0 ∉ bytes)
    (valid : strUtf8Valid bytes = true) (enough : ∀ k, 4 ≤ sizes k)
    (right : PagesRight w (toolPath workspace w path) pages) :
    ReadsWhole workspace session w path sizes pages bytes ↔ PlainPages (toolPath workspace w path) bytes sizes := by
  constructor
  · rintro ⟨fuel, ps, read, -⟩
    obtain ⟨name, each⟩ := @plain_of_followPages _ session _ _ _ _ _ file text valid enough fuel 0 ps right read
    exact ⟨name, fun k visited => each k (Nat.zero_le k) visited⟩
  · intro plain
    obtain ⟨ps, read, each, whole⟩ := @followPages_of_plain _ session _ _ _ _ _ file text valid enough plain
      (bytes.length + 1) 0 right (.inl rfl) (by omega)
    exact ⟨_, ps, read, each, whole⟩

theorem toolPath_textFile (bytes : Text) : toolPath (ascii "/w") (textFile bytes) (ascii "a") = ascii "/w/a" := by
  have full : pathResolve 2048 (ascii "/w") (ascii "a") = ascii "/w/a" := by decide
  rw [toolPath, full]
  rfl

theorem namesFile_textFile (bytes : Text) : NamesFile (ascii "/w") (textFile bytes) (ascii "a") bytes where
  named := by decide
  opened := by
    rw [toolPath_textFile]
    rfl
  regular := by
    rw [toolPath_textFile]
    rfl

theorem pagesRight_nil (w : World) (file : Text) : PagesRight w file [] :=
  fun _ member => absurd member List.not_mem_nil

/-- A file of three characters, two of them of two bytes, in pages of four bytes. -/
theorem reads_whole_short :
    ReadsWhole (ascii "/w") [] (textFile [0xC3, 0xA9, 97, 0xC3, 0xA9]) (ascii "a") (fun _ => 4) []
      [0xC3, 0xA9, 97, 0xC3, 0xA9] := by
  refine (reads_whole_iff (namesFile_textFile _) (by decide) (by decide) (fun _ => Nat.le_refl 4)
    (pagesRight_nil _ _)).mpr ?_
  refine ⟨by rw [toolPath_textFile]; decide, fun k visited => ?_⟩
  have starts : pageStart [0xC3, 0xA9, 97, 0xC3, 0xA9] (fun _ => 4) 2 = 5 := by
    decide +kernel
  rcases Nat.lt_or_ge k 2 with small | behind
  · have pages : ∀ k < 2, pageStart [0xC3, 0xA9, 97, 0xC3, 0xA9] (fun _ => 4) k ≤ 9007199254740991 ∧
        imageMime (rawPage [0xC3, 0xA9, 97, 0xC3, 0xA9] 4
          (pageStart [0xC3, 0xA9, 97, 0xC3, 0xA9] (fun _ => 4) k)) = none := by
      decide +kernel
    exact ⟨(pages k small).1, Nat.le_of_ble_eq_true rfl, (pages k small).2⟩
  · have grown := @pageStart_mono (fun _ => 4) [0xC3, 0xA9, 97, 0xC3, 0xA9] 2 k behind
    rw [starts] at grown
    rcases visited with rfl | less
    · cases behind
    · exact absurd less (Nat.not_lt.mpr grown)

/-- A page in the middle of a text is taken for an image. -/
theorem page_taken_for_image :
    ¬ReadsWhole (ascii "/w") [] (textFile (ascii "see RIFF1234WEBP")) (ascii "a") (fun k => if k = 0 then 4 else 4000)
      [] (ascii "see RIFF1234WEBP") := by
  rw [reads_whole_iff (namesFile_textFile _) (by decide) (by decide +kernel) (fun k => by split <;> decide)
    (pagesRight_nil _ _)]
  intro plain
  have mime := (plain.2 1 (.inr (by decide +kernel))).2.2
  revert mime
  decide +kernel

end CognitiveOs.Cognition
