import CognitiveOs.Cognition.PageTable
import Mathlib.Data.Rat.Cast.Order

/-!
# File pages

`file_read` of `action/tool_file.c`: which page of a file is printed, and the header that
`record_read_page` takes from the output again.
-/

namespace CognitiveOs.Cognition

open Infra Os

/-! ### The page cache -/

structure PageEntry where
  session : Text
  path : Text
  version : UInt64
  offset : Nat
  pageBytes : Nat
  data : Text
  hasMore : Bool
  deriving DecidableEq

/-- `file_page_same`. -/
def PageEntry.same (e : PageEntry) (session path : Text) (version : UInt64) (offset pageBytes : Nat) : Bool :=
  e.version = version && e.offset = offset && e.pageBytes = pageBytes && e.session = session &&
    e.path = path

/-- `file_page_get`, without the entries it drops. -/
def filePageGet (pages : List PageEntry) (session path : Text) (version : UInt64)
    (offset pageBytes : Nat) : Option (Text × Bool) :=
  (pages.find? fun e => e.same session path version offset pageBytes).map fun e => (e.data, e.hasMore)

/-- `file_page_put`, without the entries it drops. -/
def filePagePut (pages : List PageEntry) (e : PageEntry) : List PageEntry :=
  if e.session = [] ∨ 8 * 1024 * 1024 < e.data.length then pages else e :: pages

/-! ### One page -/

def wholeNumber (least : Nat) : Json → Option Nat
  | .number value =>
    if value < least ∨ 9007199254740991 < value ∨ value.den ≠ 1 then none else some value.num.toNat
  | _ => none

def imageExtension (path : Text) : Bool :=
  match lastIndex path 46 with
  | none => false
  | some i =>
    let extension := (path.drop i).map fun c => if 65 ≤ c ∧ c ≤ 90 then c + 32 else c
    extension = ascii ".png" || extension = ascii ".jpg" || extension = ascii ".jpeg" ||
      extension = ascii ".webp"

def sequenceWidth (c : UInt8) : Nat :=
  if 0xf0 ≤ c ∧ c ≤ 0xf4 then 4 else if 0xe0 ≤ c ∧ c ≤ 0xef then 3 else if 0xc2 ≤ c ∧ c ≤ 0xdf then 2 else 1

def trimPage (data : Text) (hasMore : Bool) : Text :=
  if hasMore ∧ data ≠ [] ∧ strUtf8Valid data = false then
    let lead := boundaryBefore data (data.length - 1)
    if data.length < lead + sequenceWidth (data.getD lead 0) ∧ strUtf8Valid (data.take lead) then
      data.take lead
    else data
  else data

structure Page where
  offset : Nat
  data : Text
  hasMore : Bool
  clamped : Bool
  hit : Bool
  version : UInt64
  deriving DecidableEq

namespace Page

variable (p : Page)

def headed : Bool :=
  p.offset ≠ 0 || p.hasMore || p.clamped

def next : Nat :=
  p.offset + p.data.length

def header : Text :=
  ascii "[bytes " ++ (decimal p.offset ++ 45 :: (decimal (p.offset + (p.data.length - 1)) ++
    (ascii (if p.hasMore then ", more available" else ", end of file") ++
    (ascii "; next_offset_bytes=" ++ (decimal p.next ++
    (ascii (if p.hit then "; file_page_cache=HIT" else "; file_page_cache=MISS") ++
    (ascii "; file_version=" ++ (decimal p.version.toNat ++ ascii "]\n"))))))))

def body : Text :=
  (if p.clamped then
    ascii "[max_bytes capped to 4000; continue at next_offset_bytes, not the requested page size]\n"
  else []) ++ if strUtf8Valid p.data then p.data else strUtf8Sanitize p.data

def output : Text :=
  (if p.headed then p.header else []) ++ p.body

end Page

inductive ReadResult where
  | failed
  /-- The listing of a directory. -/
  | listing
  /-- What `read_image` makes of an image. -/
  | image
  | page (p : Page) (pages : List PageEntry)
  deriving DecidableEq

def toolPath (workspace : Text) (w : World) (path : Text) : Text :=
  let full := pathResolve 2048 workspace path
  (w.fsAbsolutePath full).getD full

def cachedPage (session : Text) (w : World) (pages : List PageEntry) (file : Text)
    (offset pageBytes : Nat) : Option (Text × Bool) :=
  if w.fsFileVersion file ≠ 0 ∧ session ≠ [] then
    filePageGet pages session file (w.fsFileVersion file) offset pageBytes
  else none

def readPage (session : Text) (w : World) (pages : List PageEntry) (file : Text) (offset pageBytes : Nat)
    (clamped : Bool) : ReadResult :=
  let version := w.fsFileVersion file
  let cached := cachedPage session w pages file offset pageBytes
  match cached.or (w.fsReadFileSlice file offset pageBytes) with
  | none => .failed
  | some (content, hasMore) =>
    if (imageMime content).isSome then .image
    else if 0 ∈ content then .failed
    else
      .page { offset, data := trimPage content hasMore, hasMore, clamped, hit := cached.isSome, version }
        (if cached.isNone ∧ version ≠ 0 ∧ session ≠ [] then
          filePagePut pages { session, path := file, version, offset, pageBytes, data := content, hasMore }
        else pages)

/-- `file_read_exec`. -/
def fileRead (workspace session : Text) (w : World) (pages : List PageEntry) (args : Option Json) :
    ReadResult :=
  let size := args.bind fun a => a.get? (ascii "max_bytes")
  let start := args.bind fun a => a.get? (ascii "offset_bytes")
  match (size.getD (.number 4000) |> wholeNumber 4), argString args "path",
      (start.getD (.number 0) |> wholeNumber 0) with
  | some wanted, some path, some offset =>
    let file := toolPath workspace w path
    if pathResolve 2048 workspace path = [] then .failed
    else if w.fsIsDir file && (w.entries file).isSome then .listing
    else if imageExtension file then .image
    else readPage session w pages file offset (min 4000 wanted) (decide (4000 < wanted))
  | _, _, _ => .failed

/-! ### What a page holds -/

variable {session file : Text} {w : World} {pages : List PageEntry} {offset pageBytes : Nat}

theorem length_trimPage (data : Text) (hasMore : Bool) : (trimPage data hasMore).length ≤ data.length := by
  unfold trimPage
  split
  · simp only
    split
    · exact List.length_take_le' _ _
    · exact Nat.le_refl _
  · exact Nat.le_refl _

def PageEntry.Right (w : World) (e : PageEntry) : Prop :=
  e.version = w.fsFileVersion e.path ∧
    w.fsReadFileSlice e.path e.offset e.pageBytes = some (e.data, e.hasMore)

theorem wholeNumber_spec {least n : Nat} {json : Json} (whole : wholeNumber least json = some n) :
    json = .number n ∧ n ≤ 9007199254740991 := by
  unfold wholeNumber at whole
  split at whole
  · rename_i value
    split at whole
    · cases whole
    · rename_i bounds
      rw [not_or, not_or, not_lt, not_lt, not_not] at bounds
      obtain rfl := Option.some.inj whole
      have natural : ((value.num.toNat : Nat) : Rat) = value := by
        have positive : 0 ≤ value.num := by
          rw [Rat.num_nonneg]
          exact le_trans (Nat.cast_nonneg least) bounds.1
        have cast : ((value.num.toNat : Nat) : Rat) = (value.num : Rat) := by
          exact_mod_cast Int.toNat_of_nonneg positive
        rw [cast]
        exact Rat.den_eq_one_iff value |>.mp bounds.2.2
      refine ⟨by rw [natural], ?_⟩
      have high := bounds.2.1
      rw [← natural] at high
      exact_mod_cast high
  · cases whole

theorem slice_of_cachedPage {slice : Text × Bool}
    (right : ∀ e ∈ pages, e.path = file → e.version = w.fsFileVersion file → e.version ≠ 0 →
      e.pageBytes = pageBytes → e.Right w) (cached : cachedPage session w pages file offset pageBytes = some slice) :
    w.fsReadFileSlice file offset pageBytes = some slice := by
  unfold cachedPage at cached
  split at cached
  · rename_i named
    obtain ⟨e, hit, same⟩ := Option.map_eq_some_iff.mp cached
    have keys := List.find?_some hit
    simp only [PageEntry.same, Bool.and_eq_true, decide_eq_true_eq] at keys
    obtain ⟨⟨⟨⟨version, start⟩, bytes⟩, -⟩, path⟩ := keys
    have entry := (right e (List.mem_of_find?_eq_some hit) path version (version ▸ named.1) bytes).2
    rw [path, start, bytes, same] at entry
    exact entry
  · cases cached

theorem readPage_spec {pages' : List PageEntry} {clamped : Bool} {p : Page}
    (read : readPage session w pages file offset pageBytes clamped = .page p pages') :
    p.offset = offset ∧ (∀ e ∈ pages', e ∈ pages ∨ e.Right w) ∧
      ((∀ e ∈ pages, e.path = file → e.version = w.fsFileVersion e.path → e.version ≠ 0 → e.Right w) →
        ∃ content, p.data = trimPage content p.hasMore ∧
          w.fsReadFileSlice file offset pageBytes = some (content, p.hasMore)) := by
  unfold readPage at read
  simp only at read
  cases found : (cachedPage session w pages file offset pageBytes).or (w.fsReadFileSlice file offset pageBytes) with
  | none =>
    rw [found] at read
    cases read
  | some slice =>
    obtain ⟨content, hasMore⟩ := slice
    rw [found] at read
    simp only at read
    split at read
    · cases read
    · split at read
      · cases read
      · injection read with made kept
        subst made kept
        cases cached : cachedPage session w pages file offset pageBytes with
        | none =>
          rw [cached, Option.none_or] at found
          refine ⟨rfl, ?_, fun _ => ⟨content, rfl, found⟩⟩
          intro e member
          split at member
          · unfold filePagePut at member
            split at member
            · exact .inl member
            · rcases List.mem_cons.mp member with rfl | member
              · exact .inr ⟨rfl, found⟩
              · exact .inl member
          · exact .inl member
        | some slice =>
          rw [cached, Option.some_or] at found
          obtain rfl := Option.some.inj found
          refine ⟨rfl, fun e member => .inl (by simpa using member), fun sound => ⟨content, rfl, ?_⟩⟩
          exact slice_of_cachedPage (fun e member own version nonzero _ =>
            sound e member own (own ▸ version) nonzero) cached

theorem offset_spec {args : Option Json}
    (start : wholeNumber 0 ((args.bind fun a => a.get? (ascii "offset_bytes")).getD (.number 0)) = some offset) :
    (argNumber args "offset_bytes").all (fun value => value = 0) = decide (offset = 0) := by
  have whole := (wholeNumber_spec start).1
  unfold argNumber
  cases given : args.bind fun a => a.get? (ascii "offset_bytes") with
  | none =>
    rw [given, Option.getD_none] at whole
    injection whole with same
    have zero : offset = 0 := by exact_mod_cast same.symm
    simp [zero]
  | some json =>
    rw [given, Option.getD_some] at whole
    subst whole
    simp

theorem fileRead_page {workspace : Text} {pages' : List PageEntry} {args : Option Json} {p : Page}
    (read : fileRead workspace session w pages args = .page p pages') :
    ∃ path, argString args "path" = some path ∧
      (argNumber args "offset_bytes").all (fun value => value = 0) = decide (p.offset = 0) ∧
      p.offset ≤ 9007199254740991 ∧ (∀ e ∈ pages', e ∈ pages ∨ e.Right w) ∧
      ((∀ e ∈ pages, e.path = toolPath workspace w path → e.version = w.fsFileVersion e.path →
          e.version ≠ 0 → e.Right w) →
        ∃ content pageBytes, pageBytes ≤ 4000 ∧ p.data = trimPage content p.hasMore ∧
          w.fsReadFileSlice (toolPath workspace w path) p.offset pageBytes = some (content, p.hasMore)) := by
  unfold fileRead at read
  simp only at read
  split at read
  · rename_i wanted path offset size named start
    split at read
    · cases read
    · split at read
      · cases read
      · split at read
        · cases read
        · obtain ⟨rfl, kept, slice⟩ := readPage_spec read
          refine ⟨path, named, offset_spec start, (wholeNumber_spec start).2, kept, fun sound => ?_⟩
          obtain ⟨content, data, slice⟩ := slice sound
          exact ⟨content, _, Nat.min_le_left _ _, data, slice⟩
  · cases read

theorem Page.range {p : Page} {content : Text} (data : p.data = trimPage content p.hasMore)
    (slice : w.fsReadFileSlice file p.offset pageBytes = some (content, p.hasMore)) :
    ∃ bytes, w.bytes file = some bytes ∧ p.data.length ≤ pageBytes ∧
      (bytes.length ≤ p.next ↔ p.hasMore = false) := by
  unfold World.fsReadFileSlice at slice
  split at slice
  · cases slice
  · obtain ⟨bytes, opened, same⟩ := Option.map_eq_some_iff.mp slice
    obtain ⟨rfl, more⟩ := Prod.mk.inj same
    have short := length_trimPage ((bytes.drop p.offset).take pageBytes) p.hasMore
    rw [← data, List.length_take, List.length_drop] at short
    rw [List.length_drop] at more
    refine ⟨bytes, opened, by omega, ?_⟩
    unfold Page.next
    constructor
    · intro ends
      rw [← more, decide_eq_false_iff_not]
      intro less
      omega
    · intro last
      rw [last] at more data
      have whole := of_decide_eq_false more
      rw [data]
      unfold trimPage
      rw [if_neg (by simp), List.length_take, List.length_drop]
      omega

/-! ### The header is read back -/

theorem strstr_line (s : Text) : strstr (ascii "[bytes ") (ascii "[file_read] " ++ (ascii "[bytes " ++ s)) =
    some (ascii "[bytes " ++ s) := by
  have needle : ascii "[bytes " = 91 :: ascii "bytes " := by simp [ascii]
  have tool : ascii "[file_read] " = 91 :: 102 :: ascii "ile_read] " := by simp [ascii]
  have other : ((91 :: ascii "bytes " : Text).isPrefixOf
      (91 :: 102 :: (ascii "ile_read] " ++ (91 :: ascii "bytes " ++ s)))) = false := by
    have first : ascii "bytes " = 98 :: ascii "ytes " := by simp [ascii]
    rw [first]
    simp [List.isPrefixOf]
  rw [needle, tool, List.cons_append, List.cons_append, strstr, other, if_neg Bool.false_ne_true]
  have skip := @strstr_skip 91 (ascii "bytes ") (102 :: ascii "ile_read] ") (91 :: ascii "bytes " ++ s)
    (by simp [ascii])
  rw [List.cons_append] at skip
  rw [skip]
  exact strstr_self (91 :: ascii "bytes ") s

theorem strstr_position (hasMore : Bool) (s : Text) :
    strstr (ascii "next_offset_bytes=") (ascii (if hasMore then ", more available" else ", end of file") ++
      (ascii "; next_offset_bytes=" ++ s)) = some (ascii "next_offset_bytes=" ++ s) := by
  have needle : ascii "next_offset_bytes=" = 110 :: ascii "ext_offset_bytes=" := by simp [ascii]
  have start : ascii "; next_offset_bytes=" = ascii "; " ++ ascii "next_offset_bytes=" := by simp [ascii]
  have skip {u : Text} (absent : 110 ∉ u) (v : Text) :
      strstr (ascii "next_offset_bytes=") (u ++ v) = strstr (ascii "next_offset_bytes=") v := by
    rw [needle]
    exact strstr_skip absent
  have found : strstr (ascii "next_offset_bytes=") (ascii "; next_offset_bytes=" ++ s) =
      some (ascii "next_offset_bytes=" ++ s) := by
    rw [start, List.append_assoc, skip (by simp [ascii]), strstr_self]
  cases hasMore with
  | true => exact (skip (by simp [ascii]) _).trans found
  | false =>
    have file : ascii ", end of file" = ascii ", e" ++ 110 :: 100 :: ascii " of file" := by simp [ascii]
    have other (s : Text) : strstr (ascii "next_offset_bytes=") (110 :: s) =
        if (ascii "ext_offset_bytes=").isPrefixOf s then some (110 :: s)
        else strstr (ascii "next_offset_bytes=") s := by
      rw [needle, strstr, List.isPrefixOf, beq_self_eq_true, Bool.true_and]
    have first : ascii "ext_offset_bytes=" = 101 :: ascii "xt_offset_bytes=" := by simp [ascii]
    rw [if_neg Bool.false_ne_true, file, List.append_assoc, skip (by simp [ascii]), List.cons_append, other,
      first, List.cons_append, List.isPrefixOf, if_neg (by simp)]
    exact (skip (u := 100 :: ascii " of file") (by simp [ascii]) _).trans found

namespace Page

variable {p : Page} {tail : Text}

theorem scanRange_header (small : p.next < 2 ^ 64) : scanRange (p.header ++ tail) = some p.offset := by
  have offset : p.offset < 2 ^ 64 := lt_of_le_of_lt (Nat.le_add_right ..) small
  have last : p.offset + (p.data.length - 1) < 2 ^ 64 := by
    unfold next at small
    omega
  have position : ascii (if p.hasMore then ", more available" else ", end of file") =
      44 :: ascii (if p.hasMore then " more available" else " end of file") := by
    cases p.hasMore <;> simp [ascii]
  unfold scanRange header
  rw [List.append_assoc, List.drop_left' (by simp [ascii]), List.append_assoc,
    scanUnsigned_decimal offset (by simp; decide), position]
  simp only [List.cons_append, List.append_assoc]
  rw [scanUnsigned_decimal last (by simp; decide)]
  rfl

theorem scanNext_header (small : p.next < 2 ^ 64) : scanNext (p.header ++ tail) = p.next := by
  have needle : ascii "next_offset_bytes=" = 110 :: ascii "ext_offset_bytes=" := by simp [ascii]
  have cache : ascii (if p.hit then "; file_page_cache=HIT" else "; file_page_cache=MISS") =
      59 :: ascii (if p.hit then " file_page_cache=HIT" else " file_page_cache=MISS") := by
    cases p.hit <;> simp [ascii]
  unfold scanNext header
  simp only [List.append_assoc, List.cons_append]
  rw [needle, strstr_skip (by simp [ascii]), strstr_skip (not_mem_decimal (by decide)),
    strstr_cons (by decide), strstr_skip (not_mem_decimal (by decide)), ← needle, strstr_position]
  simp only
  rw [List.drop_left' (by simp [ascii]), cache, List.cons_append,
    scanUnsigned_decimal small (by simp; decide)]
  rfl

theorem more_header :
    (strstr (ascii "more available") (p.header ++ tail)).isSome =
      (p.hasMore || (strstr (ascii "more available") tail).isSome) := by
  have needle : ascii "more available" = 109 :: ascii "ore available" := by simp [ascii]
  unfold header
  simp only [List.append_assoc, List.cons_append]
  rw [needle, strstr_skip (by simp [ascii]), strstr_skip (not_mem_decimal (by decide)),
    strstr_cons (by decide), strstr_skip (not_mem_decimal (by decide))]
  cases p.hasMore with
  | true =>
    have position : ascii ", more available" = ascii ", " ++ (109 :: ascii "ore available") := by simp [ascii]
    rw [if_pos rfl, position, List.append_assoc, strstr_skip (by simp [ascii]), strstr_self]
    rfl
  | false =>
    have cache : (109 : UInt8) ∉
        ascii (if p.hit then "; file_page_cache=HIT" else "; file_page_cache=MISS") := by
      cases p.hit <;> simp [ascii]
    rw [if_neg Bool.false_ne_true, strstr_skip (by simp [ascii]), strstr_skip (by decide +kernel),
      strstr_skip (not_mem_decimal (by decide)), strstr_skip cache, strstr_skip (by simp [ascii]),
      strstr_skip (not_mem_decimal (by decide)), strstr_skip (by simp [ascii]), Bool.false_or]

theorem pageHeader_header {front : Text} (line : front = [] ∨ front = ascii "[file_read] ")
    (small : p.next < 2 ^ 64) (tail : Text) :
    pageHeader (front ++ (p.header ++ tail)) =
      some { first := p.offset, next := p.next,
             more := p.hasMore || (strstr (ascii "more available") tail).isSome } := by
  have found : strstr (ascii "[bytes ") (front ++ (p.header ++ tail)) = some (p.header ++ tail) := by
    unfold header
    rw [List.append_assoc]
    rcases line with rfl | rfl
    · exact strstr_self _ _
    · exact strstr_line _
  unfold pageHeader
  rw [found, Option.bind_some, scanRange_header small, Option.map_some, scanNext_header small, more_header]

theorem header_ascii : ∀ b ∈ p.header, b < 128 := by
  have digit {n : Nat} {b : UInt8} (member : b ∈ decimal n) : b < 128 := by
    have digit := isDigit_decimal member
    unfold isDigit at digit
    rw [Bool.and_eq_true, decide_eq_true_eq, decide_eq_true_eq] at digit
    exact UInt8.lt_of_le_of_lt digit.2 (by decide)
  have position : ∀ b ∈ ascii (if p.hasMore then ", more available" else ", end of file"), b < 128 := by
    cases p.hasMore <;> simp [ascii]
  have cache : ∀ b ∈ ascii (if p.hit then "; file_page_cache=HIT" else "; file_page_cache=MISS"), b < 128 := by
    cases p.hit <;> simp [ascii]
  have texts : (∀ b ∈ ascii "[bytes ", b < 128) ∧ (∀ b ∈ ascii "; next_offset_bytes=", b < 128) ∧
      (∀ b ∈ ascii "; file_version=", b < 128) ∧ (∀ b ∈ ascii "]\n", b < 128) := by
    simp [ascii]
  intro b member
  unfold header at member
  simp only [List.mem_append, List.mem_cons] at member
  rcases member with here | here | rfl | here | here | here | here | here | here | here | here
  · exact texts.1 b here
  · exact digit here
  · decide
  · exact digit here
  · exact position b here
  · exact texts.2.1 b here
  · exact digit here
  · exact cache b here
  · exact texts.2.2.1 b here
  · exact digit here
  · exact texts.2.2.2 b here

theorem length_header (small : p.next < 10 ^ 16) : p.header.length ≤ 161 := by
  have offset : (decimal p.offset).length ≤ 16 := by
    apply length_decimal (by decide)
    exact lt_of_le_of_lt (Nat.le_add_right ..) small
  have last : (decimal (p.offset + (p.data.length - 1))).length ≤ 16 := by
    apply length_decimal (by decide)
    unfold next at small
    omega
  have behind : (decimal p.next).length ≤ 16 := length_decimal (by decide) small
  have version : (decimal p.version.toNat).length ≤ 20 := by
    apply length_decimal (by decide)
    exact lt_of_lt_of_le p.version.toNat_lt (by decide)
  have position : (ascii (if p.hasMore then ", more available" else ", end of file")).length ≤ 16 := by
    cases p.hasMore <;> simp [ascii]
  have cache : (ascii (if p.hit then "; file_page_cache=HIT" else "; file_page_cache=MISS")).length ≤ 22 := by
    cases p.hit <;> simp [ascii]
  have texts : (ascii "[bytes ").length = 7 ∧ (ascii "; next_offset_bytes=").length = 20 ∧
      (ascii "; file_version=").length = 15 ∧ (ascii "]\n").length = 2 := by
    simp [ascii]
  unfold header
  simp only [List.length_append, List.length_cons]
  omega

end Page

end CognitiveOs.Cognition
