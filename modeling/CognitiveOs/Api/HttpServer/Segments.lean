import CognitiveOs.Os.Http.Model

/-!
# Reading a request

`read_request` of `api/http_server.c`. A connection delivers its bytes in blocks; it is closed,
stopped or out of time behind the last one. Allocations succeed.
-/

namespace CognitiveOs.Api.HttpServer

open Infra

def maxHeaderBytes : Nat := 16 * 1024

def maxBodyBytes : Nat := 128 * 1024 * 1024

/-- What one `recv` can get at most; it has a byte. -/
abbrev Block := { bytes : Text // bytes ≠ [] }

def stream (blocks : List Block) : Text :=
  blocks.flatMap Subtype.val

/-- `request_recv` into `cap` bytes. -/
def requestRecv (cap : Nat) : List Block → Option (Text × List Block)
  | [] => none
  | block :: blocks =>
    let left := block.val.drop cap
    some (block.val.take cap, if some' : left ≠ [] then ⟨left, some'⟩ :: blocks else blocks)

def crlf : Text := [13, 10]

def headLength (buf : Text) : Option Nat :=
  (strstr (crlf ++ crlf) (cstr buf)).map fun found => (cstr buf).length - found.length + 4

/-- A status, or the buffer, the length of the head and what is still to be delivered. -/
inductive HeadRead where
  | error (status : Nat)
  | head (buf : Text) (hlen : Nat) (blocks : List Block)

def readHead : Nat → Text → List Block → HeadRead
  | 0, _, _ => .error 431
  | rounds + 1, buf, blocks =>
    if buf.length = maxHeaderBytes then .error 431
    else
      match requestRecv (maxHeaderBytes - buf.length) blocks with
      | none => .error 408
      | some (got, blocks) =>
        let buf := buf ++ got
        match headLength buf with
        | some hlen => if 0 ∈ buf.take hlen then .error 400 else .head buf hlen blocks
        | none => if 0 ∈ buf then .error 400 else readHead rounds buf blocks

/-! ### Fields -/

def splitLine (s : Text) : Option (Text × Text) :=
  (strstr crlf s).map fun found => (s.take (s.length - found.length), found.drop 2)

def splitField (line : Text) : Option (Text × Text) :=
  match line.dropWhile (· ≠ 58) with
  | [] => none
  | _ :: value => some (line.takeWhile (· ≠ 58), value)

def isToken (b : UInt8) : Bool :=
  isAlnum b || b ∈ ascii "!#$%&'*+-.^_`|~"

def isNamed (name : Text) (expected : String) : Bool :=
  name.map Http.toLower = (ascii expected).map Http.toLower

def isPad (b : UInt8) : Bool :=
  b = 32 || b = 9

def readLength (clen : UInt64) : Text → Option (UInt64 × Text)
  | [] => some (clen, [])
  | b :: s =>
    if isDigit b then
      let digit : UInt64 := (b - 48).toUInt64
      if (UInt64.ofNat maxBodyBytes - digit) / 10 < clen then none else readLength (clen * 10 + digit) s
    else some (clen, b :: s)

/-- The value of `Content-Length`. -/
def contentLength (value : Text) : Except Nat UInt64 :=
  let digits := value.dropWhile isPad
  if (digits.head?.map isDigit).getD false then
    match readLength 0 digits with
    | none => .error 413
    | some (clen, rest) => if rest.dropWhile isPad = [] then .ok clen else .error 400
  else .error 400

def readFields : Nat → Nat → UInt64 → Text → Except Nat UInt64
  | 0, _, _, _ => .error 400
  | lines + 1, seen, clen, rest =>
    if rest.length ≤ 2 then .ok clen
    else
      match splitLine rest with
      | none => .error 400
      | some (line, rest) =>
        match splitField line with
        | none => .error 400
        | some (name, value) =>
          if name = [] then .error 400
          else if ¬ name.all isToken then .error 400
          else if isNamed name "Content-Length" then
            if seen ≠ 0 then .error 400
            else
              match contentLength value with
              | .error status => .error status
              | .ok clen => readFields lines (seen + 1) clen rest
          else if isNamed name "Transfer-Encoding" then .error 400
          else readFields lines seen clen rest

def readFieldsOf (head : Text) : Except Nat UInt64 :=
  match splitLine head with
  | none => .error 400
  | some (_, rest) => readFields rest.length.succ 0 0 rest

/-! ### The request -/

def readBody : Nat → Nat → Text → List Block → Option Text
  | 0, _, _, _ => none
  | rounds + 1, total, buf, blocks =>
    if buf.length < total then
      match requestRecv (total - buf.length) blocks with
      | none => none
      | some (got, blocks) => readBody rounds total (buf ++ got) blocks
    else some buf

/-- A status, or the request with the lengths of its head and of its body. -/
inductive Verdict where
  | error (status : Nat)
  | accept (buf : Text) (headLen bodyLen : Nat)
  deriving DecidableEq

def readRequest (blocks : List Block) : Verdict :=
  match readHead (maxHeaderBytes + 1) [] blocks with
  | .error status => .error status
  | .head buf hlen blocks =>
    match readFieldsOf (buf.take hlen) with
    | .error status => .error status
    | .ok clen =>
      let total := hlen + clen.toNat
      match readBody (total + 1) total (buf.take total) blocks with
      | none => .error 408
      | some buf => .accept buf hlen clen.toNat

end CognitiveOs.Api.HttpServer

/-!
# Requests in any blocks

What is read of a request is a function of the bytes of the connection, whatever blocks they come
in, and an accepted request has the body that its one length states.
-/

namespace CognitiveOs.Api.HttpServer

open Infra

/-! ### Blocks -/

variable {blocks : List Block}

theorem requestRecv_none {cap : Nat} (done : requestRecv cap blocks = none) : stream blocks = [] := by
  cases blocks with
  | nil => rfl
  | cons block blocks => cases done

theorem requestRecv_some {cap : Nat} {rest : List Block} {got : Text}
    (received : requestRecv cap blocks = some (got, rest)) :
    got ++ stream rest = stream blocks ∧ got.length ≤ cap ∧ (0 < cap → got ≠ []) := by
  cases blocks with
  | nil => cases received
  | cons block blocks =>
    obtain ⟨rfl, rfl⟩ := Prod.mk.inj (Option.some.inj received)
    refine ⟨?_, List.length_take_le cap block.val, ?_⟩
    · have whole := List.take_append_drop cap block.val
      split
      · change block.val.take cap ++ (block.val.drop cap ++ stream blocks) = block.val ++ stream blocks
        rw [← List.append_assoc, whole]
      · rename_i nothing
        rw [not_not.mp nothing, List.append_nil] at whole
        rw [whole]
        rfl
    · intro room empty
      rcases List.take_eq_nil_iff.mp empty with none | none
      · omega
      · exact block.property none

/-! ### The end of the head -/

variable {s buf : Text}

theorem strstr_append {needle found : Text} (search : strstr needle s = some found) (t : Text) :
    strstr needle (s ++ t) = some (found ++ t) := by
  obtain ⟨front, back⟩ := strstr_spec search
  induction s with
  | nil =>
    obtain rfl : found = [] := List.suffix_nil.mp back
    obtain rfl : needle = [] := List.prefix_nil.mp front
    cases t with
    | nil => rfl
    | cons b t => rfl
  | cons b s ih =>
    rw [List.cons_append]
    unfold strstr at search ⊢
    split at search
    · rename_i here
      cases search
      rw [if_pos]
      · rfl
      · exact List.isPrefixOf_iff_prefix.mpr ((List.isPrefixOf_iff_prefix.mp here).trans (List.prefix_append _ t))
    · rename_i elsewhere
      have inside := (strstr_spec search).2
      rw [if_neg]
      · exact ih search inside
      · -- the needle fits into what there was, so it does not reach into the text behind
        intro here
        apply elsewhere
        rw [List.isPrefixOf_iff_prefix] at here ⊢
        refine List.prefix_of_prefix_length_le here (List.prefix_append (b :: s) t) ?_
        have short := front.length_le.trans inside.length_le
        rw [List.length_cons]
        omega

theorem headLength_some {hlen : Nat} (found : headLength buf = some hlen) : hlen ≤ buf.length ∧ 0 ∉ buf.take hlen := by
  obtain ⟨f, search, rfl⟩ := Option.map_eq_some_iff.mp found
  obtain ⟨front, back⟩ := strstr_spec search
  have long : 4 ≤ f.length := front.length_le
  have short : f.length ≤ (cstr buf).length := back.length_le
  have inside : cstr buf <+: buf := List.takeWhile_prefix _
  have within : (cstr buf).length - f.length + 4 ≤ (cstr buf).length := by
    omega
  refine ⟨within.trans inside.length_le, ?_⟩
  intro zero
  have same : buf.take ((cstr buf).length - f.length + 4) <+: cstr buf :=
    List.prefix_of_prefix_length_le (List.take_prefix _ _) inside ((List.length_take_le _ _).trans within)
  have other := List.mem_takeWhile_imp (same.subset zero)
  cases other

theorem headLength_append {hlen : Nat} (found : headLength buf = some hlen) (t : Text) :
    headLength (buf ++ t) = some hlen := by
  obtain ⟨f, search, rfl⟩ := Option.map_eq_some_iff.mp found
  obtain ⟨u, same, _⟩ := cstr_append buf t
  unfold headLength
  rw [same, strstr_append search u, Option.map_some, List.length_append, List.length_append, Nat.add_sub_add_right]

theorem headLength_zero (none : headLength buf = none) (zero : 0 ∈ buf) (t : Text) :
    headLength (buf ++ t) = Option.none := by
  obtain ⟨u, same, empty⟩ := cstr_append buf t
  rw [empty zero, List.append_nil] at same
  unfold headLength at none ⊢
  rw [same]
  exact none

/-! ### The verdict on a stream -/

def headOf (s : Text) : Except Nat Nat :=
  match headLength (s.take maxHeaderBytes) with
  | some hlen => .ok hlen
  | none =>
    if 0 ∈ s.take maxHeaderBytes then .error 400 else if maxHeaderBytes ≤ s.length then .error 431 else .error 408

def verdictOf (s : Text) : Verdict :=
  match headOf s with
  | .error status => .error status
  | .ok hlen =>
    match readFieldsOf (s.take hlen) with
    | .error status => .error status
    | .ok clen =>
      if s.length < hlen + clen.toNat then .error 408 else .accept (s.take (hlen + clen.toNat)) hlen clen.toNat

def HeadRead.Fits (s : Text) : HeadRead → Prop
  | .error status => headOf s = .error status
  | .head buf hlen blocks => headOf s = .ok hlen ∧ hlen ≤ buf.length ∧ buf ++ stream blocks = s

theorem take_limit (short : buf.length ≤ maxHeaderBytes) (t : Text) :
    (buf ++ t).take maxHeaderBytes = buf ++ t.take (maxHeaderBytes - buf.length) := by
  rw [List.take_append, List.take_of_length_le short]

theorem readHead_fits {rounds : Nat} (short : buf.length ≤ maxHeaderBytes)
    (enough : maxHeaderBytes - buf.length < rounds) (none : headLength buf = none) (clean : 0 ∉ buf) :
    (readHead rounds buf blocks).Fits (buf ++ stream blocks) := by
  induction rounds generalizing buf blocks with
  | zero => exact absurd enough (Nat.not_lt_zero _)
  | succ rounds ih =>
    unfold readHead
    split
    · rename_i full
      change headOf _ = _
      unfold headOf
      rw [take_limit short, full, Nat.sub_self, List.take_zero, List.append_nil, none]
      simp only
      rw [if_neg clean, if_pos]
      rw [List.length_append]
      omega
    · rename_i room
      split
      · rename_i done
        change headOf _ = _
        unfold headOf
        rw [requestRecv_none done, List.append_nil, List.take_of_length_le short, none]
        simp only
        rw [if_neg clean, if_neg]
        omega
      · rename_i got rest received
        obtain ⟨same, within, some'⟩ := requestRecv_some received
        have progress : 0 < got.length := List.length_pos_iff.mpr (some' (by omega))
        have length : (buf ++ got).length = buf.length + got.length := List.length_append
        have short' : (buf ++ got).length ≤ maxHeaderBytes := by
          omega
        rw [← same, ← List.append_assoc]
        dsimp only
        split
        · rename_i hlen found
          obtain ⟨inside, bare⟩ := headLength_some found
          rw [if_neg bare]
          refine ⟨?_, inside, rfl⟩
          unfold headOf
          rw [take_limit short', headLength_append found]
        · rename_i none'
          split
          · rename_i zero
            change headOf _ = _
            unfold headOf
            rw [take_limit short', headLength_zero none' zero]
            exact if_pos (List.mem_append_left _ zero)
          · rename_i clean'
            exact ih short' (by omega) none' clean'

theorem readBody_eq {rounds total : Nat} (short : buf.length ≤ total) (enough : total - buf.length < rounds) :
    readBody rounds total buf blocks =
      if (buf ++ stream blocks).length < total then none else some ((buf ++ stream blocks).take total) := by
  induction rounds generalizing buf blocks with
  | zero => exact absurd enough (Nat.not_lt_zero _)
  | succ rounds ih =>
    unfold readBody
    split
    · rename_i missing
      split
      · rename_i done
        rw [requestRecv_none done, List.append_nil, if_pos missing]
      · rename_i got rest received
        obtain ⟨same, within, some'⟩ := requestRecv_some received
        have progress : 0 < got.length := List.length_pos_iff.mpr (some' (by omega))
        have length : (buf ++ got).length = buf.length + got.length := List.length_append
        rw [ih (by omega) (by omega), ← same, List.append_assoc]
    · have full : buf.length = total := by
        omega
      rw [if_neg, List.take_append, full, Nat.sub_self, List.take_zero, List.append_nil, List.take_of_length_le short]
      rw [List.length_append]
      omega

theorem readRequest_eq (blocks : List Block) : readRequest blocks = verdictOf (stream blocks) := by
  have fits : (readHead (maxHeaderBytes + 1) [] blocks).Fits ([] ++ stream blocks) :=
    readHead_fits (Nat.zero_le _) (by simp) (by decide) List.not_mem_nil
  rw [List.nil_append] at fits
  unfold readRequest verdictOf
  split
  · rename_i status read
    rw [read] at fits
    rw [show headOf (stream blocks) = .error status from fits]
  · rename_i buf hlen rest read
    rw [read] at fits
    obtain ⟨head, inside, same⟩ := fits
    have front : buf.take hlen = (stream blocks).take hlen := by
      rw [← same, List.take_append_of_le_length inside]
    rw [head, front]
    dsimp only
    cases readFieldsOf ((stream blocks).take hlen) with
    | error status => rfl
    | ok clen =>
      dsimp only
      by_cases short : buf.length ≤ hlen + clen.toNat
      · rw [List.take_of_length_le short, readBody_eq short (by omega), same]
        by_cases missing : (stream blocks).length < hlen + clen.toNat
        · rw [if_pos missing, if_pos missing]
        · rw [if_neg missing, if_neg missing]
      · -- bytes behind the body came with it and are dropped
        have exact' : (buf.take (hlen + clen.toNat)).length = hlen + clen.toNat := by
          rw [List.length_take]
          omega
        have whole : (stream blocks).take (hlen + clen.toNat) = buf.take (hlen + clen.toNat) := by
          rw [← same, List.take_append_of_le_length (by omega)]
        have long : ¬ (stream blocks).length < hlen + clen.toNat := by
          rw [← same, List.length_append]
          omega
        rw [if_neg long, whole]
        unfold readBody
        rw [if_neg (by omega)]

/-! ### Accepted requests -/

variable {v : UInt64}

def fieldLines : Nat → Text → List Text
  | 0, _ => []
  | lines + 1, rest =>
    if rest.length ≤ 2 then []
    else
      match splitLine rest with
      | none => []
      | some (line, rest) => line :: fieldLines lines rest

def headerFields (head : Text) : List Text :=
  match splitLine head with
  | none => []
  | some (_, rest) => fieldLines rest.length.succ rest

def isField (expected : String) (line : Text) : Bool :=
  (splitField line).any fun field => isNamed field.1 expected

def States (line : Text) (length : Nat) : Prop :=
  ∃ name front digits back, splitField line = some (name, front ++ digits ++ back) ∧ front.all isPad ∧ digits ≠ [] ∧
    digits.all isDigit ∧ back.all isPad ∧ length = digitsValue digits

/-- What makes a request acceptable: one length at most, which is that of the body, and no transfer
coding. -/
structure Accepted (s buf : Text) (headLen bodyLen : Nat) : Prop where
  front : buf <+: s
  length : buf.length = headLen + bodyLen
  within : bodyLen ≤ maxBodyBytes
  identity : (headerFields (buf.take headLen)).filter (isField "Transfer-Encoding") = []
  stated : ((headerFields (buf.take headLen)).filter (isField "Content-Length") = [] ∧ bodyLen = 0) ∨
    ∃ line, (headerFields (buf.take headLen)).filter (isField "Content-Length") = [line] ∧ States line bodyLen

theorem readLength_spec {clen : UInt64} {rest : Text} (bounded : clen.toNat ≤ maxBodyBytes)
    (read : readLength clen s = some (v, rest)) :
    ∃ digits, s = digits ++ rest ∧ digits.all isDigit ∧
      v.toNat = digits.foldl (fun value digit => 10 * value + (digit.toNat - 48)) clen.toNat ∧
      v.toNat ≤ maxBodyBytes ∧ (rest.head?.map isDigit).getD false = false := by
  induction s generalizing clen with
  | nil =>
    cases read
    exact ⟨[], rfl, rfl, rfl, bounded, rfl⟩
  | cons b s ih =>
    unfold readLength at read
    split at read
    · rename_i digit
      have small : 48 ≤ b.toNat ∧ b.toNat ≤ 57 := by
        have bounds := digit
        unfold isDigit at bounds
        rw [Bool.and_eq_true, decide_eq_true_eq, decide_eq_true_eq, UInt8.le_iff_toNat_le, UInt8.le_iff_toNat_le] at bounds
        exact bounds
      have value : (b - 48).toUInt64.toNat = b.toNat - 48 := by
        rw [UInt8.toNat_toUInt64, UInt8.toNat_sub_of_le]
        · rfl
        · exact UInt8.le_iff_toNat_le.mpr small.1
      dsimp only at read
      split at read
      · cases read
      · rename_i fits
        have limit : (UInt64.ofNat maxBodyBytes).toNat = maxBodyBytes := by decide
        have less : (b - 48).toUInt64 ≤ UInt64.ofNat maxBodyBytes := by
          rw [UInt64.le_iff_toNat_le, value, limit]
          exact Nat.le_trans (by omega) (show 9 ≤ maxBodyBytes by decide)
        rw [UInt64.not_lt, UInt64.le_iff_toNat_le, UInt64.toNat_div, UInt64.toNat_sub_of_le _ _ less, value, limit] at fits
        have ten : (10 : UInt64).toNat = 10 := rfl
        rw [ten] at fits
        have most : maxBodyBytes = 134217728 := rfl
        have next : (clen * 10 + (b - 48).toUInt64).toNat = 10 * clen.toNat + (b.toNat - 48) := by
          rw [UInt64.toNat_add, UInt64.toNat_mul, value, ten]
          omega
        obtain ⟨digits, rfl, all, total, bounded, stop⟩ := ih (by omega) read
        refine ⟨b :: digits, rfl, ?_, ?_, bounded, stop⟩
        · rw [List.all_cons, digit, all]
          rfl
        · rw [total, next]
          rfl
    · rename_i other
      cases read
      refine ⟨[], rfl, rfl, rfl, bounded, ?_⟩
      simpa using other

theorem contentLength_spec {value : Text} (read : contentLength value = .ok v) :
    v.toNat ≤ maxBodyBytes ∧ ∃ front digits back, value = front ++ digits ++ back ∧ front.all isPad ∧ digits ≠ [] ∧
      digits.all isDigit ∧ back.all isPad ∧ v.toNat = digitsValue digits := by
  have whole := List.takeWhile_append_dropWhile (p := isPad) (l := value)
  unfold contentLength at read
  dsimp only at read
  split at read
  · rename_i starts
    split at read
    · cases read
    · rename_i clen rest length
      split at read
      · rename_i blank
        cases read
        obtain ⟨digits, parts, all, total, bounded, _⟩ := readLength_spec (Nat.zero_le _) length
        refine ⟨bounded, value.takeWhile isPad, digits, rest, ?_, ?_, ?_, all, ?_, total⟩
        · rw [List.append_assoc, ← parts, whole]
        · exact List.all_takeWhile
        · rintro rfl
          -- then the first byte behind the blanks is where the digits stopped
          rw [List.nil_append] at parts
          rw [parts] at starts
          have stop := (readLength_spec (Nat.zero_le _) length).choose_spec.2.2.2.2
          rw [stop] at starts
          cases starts
        · exact List.all_eq_true.mpr fun b member => by
            by_contra visible
            have kept : rest.dropWhile isPad ≠ [] := by
              intro nothing
              exact visible (List.dropWhile_eq_nil_iff.mp nothing b member)
            exact kept blank
      · cases read
  · cases read

theorem named_apart {name : Text} (length : isNamed name "Content-Length" = true) :
    isNamed name "Transfer-Encoding" = false := by
  unfold isNamed at length ⊢
  rw [decide_eq_true_eq] at length
  rw [length]
  decide

theorem readFields_spec {lines seen : Nat} {clen : UInt64} {rest : Text} (bounded : clen.toNat ≤ maxBodyBytes)
    (read : readFields lines seen clen rest = .ok v) :
    v.toNat ≤ maxBodyBytes ∧ (fieldLines lines rest).filter (isField "Transfer-Encoding") = [] ∧
      (((fieldLines lines rest).filter (isField "Content-Length") = [] ∧ v = clen) ∨
        seen = 0 ∧ ∃ line, (fieldLines lines rest).filter (isField "Content-Length") = [line] ∧ States line v.toNat) := by
  induction lines generalizing seen clen rest with
  | zero => cases read
  | succ lines ih =>
    unfold readFields at read
    unfold fieldLines
    split at read
    · rename_i last
      cases read
      rw [if_pos last]
      exact ⟨bounded, rfl, .inl ⟨rfl, rfl⟩⟩
    · rename_i more
      rw [if_neg more]
      cases split' : splitLine rest with
      | none =>
        rw [split'] at read
        cases read
      | some parts =>
        obtain ⟨line, after⟩ := parts
        rw [split'] at read
        dsimp only at read ⊢
        cases field : splitField line with
        | none =>
          rw [field] at read
          cases read
        | some parts =>
          obtain ⟨name, value⟩ := parts
          rw [field] at read
          have isLength : isField "Content-Length" line = isNamed name "Content-Length" := by
            unfold isField
            rw [field]
            rfl
          have isCoding : isField "Transfer-Encoding" line = isNamed name "Transfer-Encoding" := by
            unfold isField
            rw [field]
            rfl
          dsimp only at read
          split at read
          · cases read
          · split at read
            · cases read
            · split at read
              · rename_i named
                split at read
                · cases read
                · rename_i first
                  split at read
                  · cases read
                  · rename_i stated
                    obtain ⟨small, front, digits, back, parts, pads, some', all, pads', total⟩ := contentLength_spec stated
                    obtain ⟨bounded', coding, ⟨rest', rfl⟩ | ⟨again, _⟩⟩ := ih small read
                    · refine ⟨bounded', ?_, .inr ⟨not_not.mp first, line, ?_, name, front, digits, back, ?_⟩⟩
                      · rw [List.filter_cons_of_neg, coding]
                        rw [isCoding, named_apart named]
                        exact Bool.false_ne_true
                      · rw [List.filter_cons_of_pos, rest']
                        rw [isLength, named]
                      · exact ⟨parts ▸ field, pads, some', all, pads', total⟩
                    · cases again
              · rename_i other
                split at read
                · cases read
                · rename_i plain
                  obtain ⟨bounded', coding, stated⟩ := ih bounded read
                  rw [List.filter_cons_of_neg (by rwa [isCoding]), List.filter_cons_of_neg (by rwa [isLength])]
                  exact ⟨bounded', coding, stated⟩

theorem accepted_of_verdict {headLen bodyLen : Nat} (accept : verdictOf s = .accept buf headLen bodyLen) :
    Accepted s buf headLen bodyLen := by
  unfold verdictOf at accept
  split at accept
  · cases accept
  · rename_i hlen _
    split at accept
    · cases accept
    · rename_i clen read
      split at accept
      · cases accept
      · rename_i long
        obtain ⟨rfl, rfl, rfl⟩ := Verdict.accept.inj accept
        have front : (s.take (hlen + clen.toNat)).take hlen = s.take hlen := by
          rw [List.take_take, Nat.min_eq_left (Nat.le_add_right ..)]
        unfold readFieldsOf at read
        cases split' : splitLine (s.take hlen) with
        | none =>
          rw [split'] at read
          cases read
        | some parts =>
          obtain ⟨line, rest⟩ := parts
          rw [split'] at read
          have fields : headerFields ((s.take (hlen + clen.toNat)).take hlen) = fieldLines rest.length.succ rest := by
            unfold headerFields
            rw [front, split']
          obtain ⟨bounded, coding, stated⟩ := readFields_spec (Nat.zero_le _) read
          refine ⟨List.take_prefix _ _, ?_, bounded, ?_, ?_⟩
          · rw [List.length_take]
            omega
          · rw [fields]
            exact coding
          · rw [fields]
            rcases stated with ⟨none, rfl⟩ | ⟨_, line, one, states⟩
            · exact .inl ⟨none, rfl⟩
            · exact .inr ⟨line, one, states⟩

/-- A request is read the same from all blocks that make up one stream, and an accepted one has
the body of its only length, within the limit, and no transfer coding. -/
theorem request_of_stream (blocks : List Block) :
    (∀ blocks', stream blocks' = stream blocks → readRequest blocks' = readRequest blocks) ∧
      ∀ buf headLen bodyLen, readRequest blocks = .accept buf headLen bodyLen →
        Accepted (stream blocks) buf headLen bodyLen := by
  constructor
  · intro blocks' same
    rw [readRequest_eq, readRequest_eq, same]
  · intro buf headLen bodyLen accept
    rw [readRequest_eq] at accept
    exact accepted_of_verdict accept

/-! ### A request in two blocks -/

/-- The end of the head straddles the blocks, and a further request follows the body. -/
def twoBlocks : List Block :=
  [⟨ascii "POST / HTTP/1.1\r\nContent-Length: 2\r", by decide⟩, ⟨ascii "\n\r\nhiGET", by decide⟩]

def oneBlock : List Block :=
  [⟨ascii "POST / HTTP/1.1\r\nContent-Length: 2\r\n\r\nhiGET", by decide⟩]

theorem request_of_twoBlocks : readRequest twoBlocks = readRequest oneBlock ∧
    Accepted (stream oneBlock) (ascii "POST / HTTP/1.1\r\nContent-Length: 2\r\n\r\nhi") 38 2 := by
  obtain ⟨same, accepted⟩ := request_of_stream oneBlock
  refine ⟨same twoBlocks ?_, accepted _ 38 2 ?_⟩
  · decide +kernel
  · decide +kernel

end CognitiveOs.Api.HttpServer
