import CognitiveOs.Os.World

/-!
# Presentation archives

`pptx_path_valid` of `runtime/agent.c`. Offsets, counts and lengths come out of the file that is checked,
so every read names the array it is made in, and sums of `size_t` are taken modulo 2^64.
-/

namespace CognitiveOs.Runtime.Agents

open Infra Os

/-! ### Reads -/

/-- Two bytes of the array, the lowest first; `none` is a read outside it, here and below. -/
def zipU16 (p : Text) (i : Nat) : Option Nat :=
  p[i]?.bind fun low => p[i + 1]?.map fun high => low.toNat ||| high.toNat <<< 8

def zipU32 (p : Text) (i : Nat) : Option Nat :=
  (zipU16 p i).bind fun low => (zipU16 p (i + 2)).map fun high => low ||| high <<< 16

/-- `memcmp(p + i, s, len) == 0`. -/
def memSame (p : Text) (i : Nat) (s : Text) : Option Bool :=
  if i + s.length ≤ p.length then some ((p.drop i).take s.length = s) else none

/-- A sum or a difference of `size_t`. -/
def sizeT (n : Nat) : Nat :=
  n % 2 ^ 64

/-! ### The end record -/

/-- The fields `cd_size` and `cd_offset` where there is an end record at `i`. -/
def eocdAt (tail : Text) (i : Nat) : Option (Option (Nat × Nat)) := do
  if ← memSame tail i (ascii "PK\x05\x06") then
    if sizeT (i + 22 + (← zipU16 tail (i + 20))) = tail.length then
      if (← zipU16 tail (i + 4)) = 0 then
        if (← zipU16 tail (i + 6)) = 0 then
          return some (← zipU32 tail (i + 12), ← zipU32 tail (i + 16))
        else return none
      else return none
    else return none
  else return none

/-- The loop over the tail, from `i` down. -/
def findEocd (tail : Text) (i : Nat) : Option (Option (Nat × Nat)) := do
  match ← eocdAt tail i with
  | some found => return some found
  | none =>
    match i with
    | 0 => return none
    | i + 1 => findEocd tail i

/-! ### The directory -/

def typesName : Text :=
  ascii "[Content_Types].xml"

def presentationName : Text :=
  ascii "ppt/presentation.xml"

def nameIs (cd : Text) (i nameLen : Nat) (name : Text) : Option Bool :=
  if nameLen = name.length then memSame cd (i + 46) name else some false

/-- The loop over the entries; it is also `none` when `fuel` is too little. -/
def walkEntries (cd : Text) : (fuel i : Nat) → (types presentation : Bool) → Option Bool
  | 0, _, _, _ => none
  | fuel + 1, i, types, presentation => do
    if sizeT (i + 46) ≤ cd.length then
      if ← memSame cd i (ascii "PK\x01\x02") then
        let nameLen ← zipU16 cd (i + 28)
        let entryLen := sizeT (46 + nameLen + (← zipU16 cd (i + 30)) + (← zipU16 cd (i + 32)))
        if nameLen = 0 ∨ sizeT (cd.length + 2 ^ 64 - i) < entryLen then return types && presentation
        else
          let isTypes ← nameIs cd i nameLen typesName
          let isPresentation ← nameIs cd i nameLen presentationName
          walkEntries cd fuel (sizeT (i + entryLen)) (types || isTypes) (presentation || isPresentation)
      else return types && presentation
    else return types && presentation

def pptxArchiveValid (w : World) (path : Text) (size : Nat) : Option Bool := do
  let tailSize := if size < 65557 then size else 65557
  match w.fsReadFileSlice path (size - tailSize) tailSize with
  | none => return false
  | some (tail, _) =>
    if tail.length ≠ tailSize then return false
    else
      match ← findEocd tail (sizeT (tailSize + 2 ^ 64 - 22)) with
      | none => return false
      | some (cdSize, cdOffset) =>
        if cdSize = 0 ∨ 16 * 1024 * 1024 < cdSize ∨ size < sizeT (cdOffset + cdSize) then return false
        else
          match w.fsReadFileSlice path cdOffset cdSize with
          | none => return false
          | some (cd, _) =>
            if cd.length ≠ cdSize then return false
            else walkEntries cd (cdSize + 1) 0 false false

def isalpha (c : UInt8) : Bool :=
  (65 ≤ c && c ≤ 90) || (97 ≤ c && c ≤ 122)

/-- The `full` of a path that is not empty. -/
def fullPath (workspace path : Text) : Text :=
  let absolute := match path with
    | [] => false
    | first :: rest => first = slash || first = backslash || (isalpha first && rest.head? = some 58)
  if absolute then snprintf 2048 path
  else pathJoin 2048 (if workspace = [] then ascii "." else workspace) path

/-- `pptx_path_valid`; a missing workspace or path is an empty one. -/
def pptxPathValid (w : World) (workspace path : Text) : Option Bool :=
  if path = [] ∨ 2048 ≤ path.length then some false
  else
    let full := fullPath workspace path
    let size := w.fsFileSize full
    if size < 1024 then some false
    else
      match w.fsReadFileSlice full 0 4 with
      | none => some false
      | some (head, _) =>
        if head = ascii "PK\x03\x04" then pptxArchiveValid w full size.toNat else some false

/-! ### What an archive is -/

def littleEndian (bytes : Text) : Nat :=
  bytes.foldr (fun b high => b.toNat + 256 * high) 0

/-- `n` bytes from `i` on. -/
def slice (bytes : Text) (i n : Nat) : Text :=
  (bytes.drop i).take n

/-- There is an end record at `i` of the first `size` bytes, and nothing but its comment behind it. -/
structure EndRecord (bytes : Text) (size i cdSize cdOffset : Nat) : Prop where
  signature : slice bytes i 4 = ascii "PK\x05\x06"
  comment : i + 22 + littleEndian (slice bytes (i + 20) 2) = size
  oneDisk : littleEndian (slice bytes (i + 4) 2) = 0 ∧ littleEndian (slice bytes (i + 6) 2) = 0
  sizeField : littleEndian (slice bytes (i + 12) 4) = cdSize
  offsetField : littleEndian (slice bytes (i + 16) 4) = cdOffset

/-- There is an entry of `len` bytes at `i` of the directory, all of it inside. -/
structure EntryAt (cd : Text) (i : Nat) (name : Text) (len : Nat) : Prop where
  signature : slice cd i 4 = ascii "PK\x01\x02"
  nameLen : littleEndian (slice cd (i + 28) 2) = name.length
  nameBytes : slice cd (i + 46) name.length = name
  named : name ≠ []
  lenFields : 46 + name.length + littleEndian (slice cd (i + 30) 2) + littleEndian (slice cd (i + 32) 2) = len
  inside : i + len ≤ cd.length

inductive Walked (cd : Text) : Nat → Prop where
  | start : Walked cd 0
  | next {i : Nat} {name : Text} {len : Nat} : Walked cd i → EntryAt cd i name len → Walked cd (i + len)

def Member (cd name : Text) : Prop :=
  ∃ i len, Walked cd i ∧ EntryAt cd i name len

/-! ### Reads inside the array -/

theorem littleEndian_lt (bytes : Text) : littleEndian bytes < 256 ^ bytes.length := by
  induction bytes with
  | nil => exact Nat.one_pos
  | cons b rest ih =>
    have byte := b.toNat_lt
    rw [List.length_cons, Nat.pow_succ]
    show b.toNat + 256 * littleEndian rest < _
    omega

theorem littleEndian_append (low high : Text) :
    littleEndian (low ++ high) = littleEndian low + 256 ^ low.length * littleEndian high := by
  induction low with
  | nil => simp [littleEndian]
  | cons b rest ih =>
    show b.toNat + 256 * littleEndian (rest ++ high) = b.toNat + 256 * littleEndian rest + _
    rw [ih, List.length_cons, Nat.pow_succ, Nat.mul_add, ← Nat.mul_assoc, Nat.mul_comm 256 (256 ^ _), Nat.add_assoc]

theorem or_shiftLeft {low k : Nat} (small : low < 2 ^ k) (high : Nat) : low ||| high <<< k = low + 2 ^ k * high := by
  rw [Nat.shiftLeft_eq, Nat.mul_comm, Nat.or_comm, ← Nat.two_pow_add_eq_or_of_lt small, Nat.add_comm]

variable {p : Text} {i : Nat}

theorem length_slice {n : Nat} (inside : i + n ≤ p.length) : (slice p i n).length = n := by
  rw [slice, List.length_take, List.length_drop]
  omega

theorem slice_slice {n t : Nat} (k : Nat) (inside : i + n ≤ t) : slice (slice p k t) i n = slice p (k + i) n := by
  rw [slice, slice, slice, List.drop_take, List.take_take, List.drop_drop, Nat.min_eq_left (by omega)]

theorem zipU16_eq (inside : i + 2 ≤ p.length) : zipU16 p i = some (littleEndian (slice p i 2)) := by
  have first : i < p.length := by omega
  have second : i + 1 < p.length := by omega
  rw [zipU16, List.getElem?_eq_getElem first, List.getElem?_eq_getElem second, Option.bind_some, Option.map_some,
    or_shiftLeft (UInt8.toNat_lt _), slice, List.drop_eq_getElem_cons first, List.drop_eq_getElem_cons second]
  rfl

theorem zipU32_eq (inside : i + 4 ≤ p.length) : zipU32 p i = some (littleEndian (slice p i 4)) := by
  have halves : slice p i 4 = slice p i 2 ++ slice p (i + 2) 2 := by
    rw [slice, slice, slice, ← List.drop_drop, ← List.take_add]
  have length := length_slice (p := p) (i := i) (n := 2) (by omega)
  have small := littleEndian_lt (slice p i 2)
  have base : 256 ^ 2 = 2 ^ 16 := rfl
  rw [length] at small
  rw [zipU32, zipU16_eq (by omega), zipU16_eq (by omega), Option.bind_some, Option.map_some,
    or_shiftLeft (k := 16) small, halves, littleEndian_append, length, base]

theorem memSame_eq {s : Text} (inside : i + s.length ≤ p.length) :
    memSame p i s = some (decide (slice p i s.length = s)) :=
  if_pos inside

theorem sizeT_eq {n : Nat} (small : n < 2 ^ 64) : sizeT n = n :=
  Nat.mod_eq_of_lt small

/-! ### The end record -/

theorem eocdAt_spec (inside : i + 22 ≤ p.length) (small : p.length < 2 ^ 63) :
    ∃ found, eocdAt p i = some found ∧ ∀ record ∈ found, EndRecord p p.length i record.1 record.2 := by
  have comment := littleEndian_lt (slice p (i + 20) 2)
  rw [length_slice (by omega)] at comment
  rw [eocdAt, memSame_eq (by rw [show (ascii "PK\x05\x06").length = 4 from rfl]; omega)]
  simp only [zipU16_eq (p := p) (i := i + 20) (by omega), zipU16_eq (p := p) (i := i + 4) (by omega),
    zipU16_eq (p := p) (i := i + 6) (by omega), zipU32_eq (p := p) (i := i + 12) (by omega),
    zipU32_eq (p := p) (i := i + 16) (by omega),
    sizeT_eq (show i + 22 + littleEndian (slice p (i + 20) 2) < 2 ^ 64 by omega),
    Option.bind_eq_bind, Option.bind_some, Option.pure_def]
  split_ifs with signature comment disk directory
  · refine ⟨_, rfl, fun record eq => ?_⟩
    obtain rfl := Option.some.inj eq
    exact ⟨of_decide_eq_true signature, comment, ⟨disk, directory⟩, rfl, rfl⟩
  all_goals exact ⟨none, rfl, by simp⟩

theorem findEocd_spec (inside : i + 22 ≤ p.length) (small : p.length < 2 ^ 63) :
    ∃ found, findEocd p i = some found ∧
      ∀ record ∈ found, ∃ j, EndRecord p p.length j record.1 record.2 := by
  induction i with
  | zero =>
    obtain ⟨found, eq, record⟩ := eocdAt_spec inside small
    cases found with
    | none => exact ⟨none, by simp [findEocd, eq], by simp⟩
    | some found => exact ⟨some found, by simp [findEocd, eq], fun other same => ⟨0, record other same⟩⟩
  | succ i ih =>
    obtain ⟨found, eq, record⟩ := eocdAt_spec inside small
    cases found with
    | none =>
      rw [findEocd, eq]
      exact ih (by omega)
    | some found => exact ⟨some found, by simp [findEocd, eq], fun other same => ⟨i + 1, record other same⟩⟩

theorem EndRecord.of_tail {size t cdSize cdOffset : Nat} (within : t ≤ size)
    (record : EndRecord (slice p (size - t) t) t i cdSize cdOffset) :
    EndRecord p size (size - t + i) cdSize cdOffset := by
  have inside : i + 22 ≤ t := by
    have := record.comment
    omega
  have shift {n m : Nat} (fits : n + m ≤ 22) :
      slice (slice p (size - t) t) (i + n) m = slice p (size - t + i + n) m := by
    rw [slice_slice _ (by omega), Nat.add_assoc]
  have start := slice_slice (p := p) (i := i) (n := 4) (t := t) (size - t) (by omega)
  obtain ⟨signature, comment, oneDisk, sizeField, offsetField⟩ := record
  rw [shift (by decide)] at comment sizeField offsetField oneDisk
  rw [shift (by decide)] at oneDisk
  rw [start] at signature
  exact ⟨signature, by omega, oneDisk, sizeField, offsetField⟩

/-! ### The directory -/

theorem nameIs_eq {nameLen : Nat} (name : Text) (inside : i + 46 + nameLen ≤ p.length) :
    nameIs p i nameLen name = some (decide (nameLen = name.length ∧ slice p (i + 46) nameLen = name)) := by
  rw [nameIs]
  split
  · rename_i same
    rw [memSame_eq (by omega), same]
    simp
  · rename_i other
    simp [other]

theorem walkEntries_spec {fuel : Nat} {types presentation : Bool} (small : p.length < 2 ^ 63)
    (walked : Walked p i) (within : i ≤ p.length) (enough : p.length < fuel + i)
    (typesFound : types = true → Member p typesName)
    (presentationFound : presentation = true → Member p presentationName) :
    ∃ answer, walkEntries p fuel i types presentation = some answer ∧
      (answer = true → Member p typesName ∧ Member p presentationName) := by
  induction fuel generalizing i types presentation with
  | zero => omega
  | succ fuel ih =>
    have stop : (types && presentation) = true → Member p typesName ∧ Member p presentationName := by
      intro both
      rw [Bool.and_eq_true] at both
      exact ⟨typesFound both.1, presentationFound both.2⟩
    rw [walkEntries, sizeT_eq (show i + 46 < 2 ^ 64 by omega)]
    split
    · rename_i header
      have length := littleEndian_lt (slice p (i + 28) 2)
      have extra := littleEndian_lt (slice p (i + 30) 2)
      have comment := littleEndian_lt (slice p (i + 32) 2)
      rw [length_slice (by omega)] at length extra comment
      have left : sizeT (p.length + 2 ^ 64 - i) = p.length - i := by
        rw [sizeT]
        omega
      rw [memSame_eq (by rw [show (ascii "PK\x01\x02").length = 4 from rfl]; omega)]
      simp only [zipU16_eq (p := p) (i := i + 28) (by omega), zipU16_eq (p := p) (i := i + 30) (by omega),
        zipU16_eq (p := p) (i := i + 32) (by omega), left, Option.bind_eq_bind, Option.bind_some, Option.pure_def]
      generalize lengthIs : littleEndian (slice p (i + 28) 2) = nameLen at length
      generalize lenIs : 46 + nameLen + littleEndian (slice p (i + 30) 2) + littleEndian (slice p (i + 32) 2) = len
      rw [sizeT_eq (show len < 2 ^ 64 by omega)]
      split_ifs with signature last
      · exact ⟨_, rfl, stop⟩
      · rw [nameIs_eq _ (by omega), nameIs_eq _ (by omega), Option.bind_some, Option.bind_some,
          sizeT_eq (show i + len < 2 ^ 64 by omega)]
        have named := length_slice (p := p) (i := i + 46) (n := nameLen) (by omega)
        have entry : EntryAt p i (slice p (i + 46) nameLen) len := by
          refine ⟨of_decide_eq_true signature, by rw [lengthIs, named], by rw [named], ?_,
            by rw [named, lenIs], by omega⟩
          intro empty
          rw [empty, List.length_nil] at named
          omega
        have found {sofar : Bool} {name : Text} (before : sofar = true → Member p name)
            (now : (sofar || decide (nameLen = name.length ∧ slice p (i + 46) nameLen = name)) = true) :
            Member p name := by
          rcases Bool.or_eq_true _ _ ▸ now with old | new
          · exact before old
          · exact ⟨i, len, walked, (of_decide_eq_true new).2 ▸ entry⟩
        exact ih (walked.next entry) (by omega) (by omega) (found typesFound) (found presentationFound)
      · exact ⟨_, rfl, stop⟩
    · exact ⟨_, rfl, stop⟩

/-! ### The file -/

theorem EndRecord.offset_lt {size cdSize cdOffset : Nat} (record : EndRecord p size i cdSize cdOffset)
    (within : size ≤ p.length) : cdOffset < 2 ^ 32 := by
  have comment := record.comment
  have small := littleEndian_lt (slice p (i + 16) 4)
  rw [length_slice (by omega), record.offsetField] at small
  exact small

variable {w : World} {path bytes : Text}

theorem fsReadFileSlice_cases (offset n : Nat) :
    w.fsReadFileSlice path offset n = none ∨
      ∃ bytes more, w.bytes path = some bytes ∧
        w.fsReadFileSlice path offset n = some (slice bytes offset n, more) := by
  rw [World.fsReadFileSlice]
  split
  · exact Or.inl rfl
  · cases w.bytes path with
    | none => exact Or.inl rfl
    | some bytes => exact Or.inr ⟨bytes, _, rfl, rfl⟩

theorem rejected {claim : Prop} : ∃ answer : Bool, some false = some answer ∧ (answer = true → claim) :=
  ⟨false, rfl, fun impossible => absurd impossible (by decide)⟩

theorem pptxArchiveValid_sound {size : Nat} (large : 22 ≤ size) :
    ∃ answer, pptxArchiveValid w path size = some answer ∧ (answer = true →
      ∃ bytes i cdSize cdOffset,
        w.bytes path = some bytes ∧ EndRecord bytes size i cdSize cdOffset ∧
        0 < cdSize ∧ cdOffset + cdSize ≤ size ∧ cdOffset + cdSize ≤ bytes.length ∧
        Member (slice bytes cdOffset cdSize) typesName ∧ Member (slice bytes cdOffset cdSize) presentationName) := by
  rw [pptxArchiveValid]
  generalize tailIs : (if size < 65557 then size else 65557) = t
  have bounds : 22 ≤ t ∧ t ≤ size ∧ t ≤ 65557 := by
    split at tailIs <;> omega
  rcases @fsReadFileSlice_cases w path (size - t) t with failed | ⟨bytes, more, read, eq⟩
  · rw [failed]
    exact rejected
  · rw [eq]
    simp only
    split_ifs with short
    · exact rejected
    · have length : (slice bytes (size - t) t).length = t := not_not.mp short
      have start : sizeT (t + 2 ^ 64 - 22) = t - 22 := by
        rw [sizeT]
        omega
      obtain ⟨found, scan, records⟩ :=
        findEocd_spec (p := slice bytes (size - t) t) (i := t - 22) (by omega) (by omega)
      rw [start, scan]
      cases found with
      | none => exact rejected
      | some record =>
        obtain ⟨cdSize, cdOffset⟩ := record
        obtain ⟨j, record⟩ := records (cdSize, cdOffset) rfl
        have offset := record.offset_lt (Nat.le_refl _)
        rw [length] at record
        simp only [Option.bind_eq_bind, Option.bind_some, Option.pure_def]
        split_ifs with outside
        · exact rejected
        · have sum : sizeT (cdOffset + cdSize) = cdOffset + cdSize := sizeT_eq (by omega)
          rw [sum] at outside
          rcases @fsReadFileSlice_cases w path cdOffset cdSize with failed | ⟨again, more, reread, same⟩
          · rw [failed]
            exact rejected
          · obtain rfl : again = bytes := Option.some.inj (reread.symm.trans read)
            rw [same]
            simp only
            split_ifs with short
            · exact rejected
            · have cdLength : (slice again cdOffset cdSize).length = cdSize := not_not.mp short
              obtain ⟨answer, walk, members⟩ :=
                @walkEntries_spec (slice again cdOffset cdSize) _ (cdSize + 1) false false (by omega) Walked.start (Nat.zero_le _) (by omega) nofun nofun
              have inside : cdOffset + cdSize ≤ again.length := by
                rw [slice, List.length_take, List.length_drop] at cdLength
                omega
              exact ⟨answer, walk, fun yes => ⟨again, size - t + j, cdSize, cdOffset, read,
                record.of_tail bounds.2.1, by omega, by omega, inside, members yes⟩⟩

/-- The check of a file reads inside its arrays, and what it accepts begins as an archive does and has an end
record, of the size that is checked, that says where the directory is, with both members among its entries. -/
theorem pptxPathValid_sound (w : World) (workspace path : Text) :
    ∃ answer, pptxPathValid w workspace path = some answer ∧ (answer = true →
      ∃ bytes size i cdSize cdOffset,
        w.bytes (fullPath workspace path) = some bytes ∧ w.fsFileSize (fullPath workspace path) = (size : Nat) ∧
        slice bytes 0 4 = ascii "PK\x03\x04" ∧ EndRecord bytes size i cdSize cdOffset ∧
        0 < cdSize ∧ cdOffset + cdSize ≤ size ∧ cdOffset + cdSize ≤ bytes.length ∧
        Member (slice bytes cdOffset cdSize) typesName ∧ Member (slice bytes cdOffset cdSize) presentationName) := by
  rw [pptxPathValid]
  split_ifs with missing
  · exact rejected
  · generalize fullPath workspace path = full
    simp only
    split_ifs with short
    · exact rejected
    · rcases @fsReadFileSlice_cases w full 0 4 with failed | ⟨bytes, more, read, eq⟩
      · rw [failed]
        exact rejected
      · rw [eq]
        simp only
        split_ifs with head
        · obtain ⟨answer, valid, sound⟩ :=
            @pptxArchiveValid_sound w full (w.fsFileSize full).toNat (by omega)
          refine ⟨answer, valid, fun yes => ?_⟩
          obtain ⟨whole, i, cdSize, cdOffset, reread, rest⟩ := sound yes
          obtain rfl : whole = bytes := Option.some.inj (reread.symm.trans read)
          exact ⟨whole, (w.fsFileSize full).toNat, i, cdSize, cdOffset, read, by omega, head, rest⟩
        · exact rejected

end CognitiveOs.Runtime.Agents
