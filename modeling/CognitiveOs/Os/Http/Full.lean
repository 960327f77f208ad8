import CognitiveOs.Os.Http.Whole

/-!
# Complete bodies or nothing

The head is read as it is declared, the body is decoded as it was sent: what `http_full`
returns is the complete body of the response.
-/

namespace CognitiveOs.Http

open Infra

/-! ### The wire and its bytes -/

theorem rawLine_unmarked (cap : Nat) (wire : Wire) (line : Text) :
    rawLine cap (unmarked wire.bytes) line =
      (rawLine cap wire line).map fun (found, rest) => (found, unmarked rest.bytes) := by
  induction wire generalizing line with
  | nil => rfl
  | cons head wire ih =>
    rcases head with ⟨c, mark⟩
    show rawLine cap ((c, false) :: unmarked (Wire.bytes wire)) line = _
    unfold rawLine
    split
    · rfl
    · split <;> exact ih _

theorem headerLines_unmarked (cap : Nat) (wire : Wire) (line : Text) :
    headerLines cap (unmarked wire.bytes) line =
      (headerLines cap wire line).map fun (lines, rest) => (lines, unmarked rest.bytes) := by
  induction wire generalizing line with
  | nil => rfl
  | cons head wire ih =>
    rcases head with ⟨c, mark⟩
    show headerLines cap ((c, false) :: unmarked (Wire.bytes wire)) line = _
    unfold headerLines
    split
    · split
      · rfl
      · rw [ih, Option.map_map, Option.map_map]
        rfl
    · split <;> exact ih _

@[simp] theorem bytes_unmarked (bytes : Text) : (unmarked bytes).bytes = bytes := by
  simp [unmarked, Wire.bytes, Function.comp_def]

@[simp] theorem bytes_markBlock (block : Text) : (markBlock block).bytes = block := by
  induction block with
  | nil => rfl
  | cons c block ih =>
    cases block with
    | nil => rfl
    | cons d block => exact congrArg (c :: ·) ih

@[simp] theorem bytes_wireOf (blocks : List Text) : (wireOf blocks).bytes = blocks.flatten := by
  induction blocks with
  | nil => rfl
  | cons block blocks ih =>
    have split : wireOf (block :: blocks) = markBlock block ++ wireOf blocks := rfl
    rw [split, bytes_append, ih, bytes_markBlock, List.flatten_cons]

theorem headerPart_eq (wire : Wire) :
    headerPart wire.bytes = (rawLine (wire.length + 2) wire []).bind fun (_, rest) =>
      (headerLines (wire.length + 2) rest []).map fun (lines, rest) => (lines, rest.bytes) := by
  unfold headerPart
  have length : wire.bytes.length = wire.length := List.length_map _
  simp only [length, rawLine_unmarked]
  cases rawLine (wire.length + 2) wire [] with
  | none => rfl
  | some read =>
    simp only [Option.map_some, Option.bind_some, headerLines_unmarked, Option.map_map]
    cases headerLines (wire.length + 2) read.2 [] with
    | none => rfl
    | some found => simp

/-! ### The head -/

theorem rawLine_rest (cap cap' : Nat) (wire : Wire) (line line' : Text) :
    (rawLine cap wire line).map Prod.snd = (rawLine cap' wire line').map Prod.snd := by
  induction wire generalizing line line' with
  | nil => rfl
  | cons head wire ih =>
    unfold rawLine
    split
    · rfl
    · split <;> exact ih _ _

theorem head_putc {cap : Nat} (room : 1 < cap) (line : Text) (c : UInt8) :
    (putc cap line c).head? = some (line.head?.getD c) := by
  cases line with
  | nil => simp [putc, room]
  | cons d line =>
    unfold putc
    split <;> rfl

theorem cstr_eq_nil_iff (line : Text) : cstr line = [] ↔ line.head?.getD 0 = 0 := by
  cases line with
  | nil => simp [cstr]
  | cons c line =>
    by_cases zero : c = 0
    · simp [cstr, zero]
    · simp [cstr, zero]

theorem headerLines_rest {cap cap' : Nat} (room : 1 < cap) (room' : 1 < cap') {wire : Wire}
    {line line' : Text} (same : line.head? = line'.head?) :
    (headerLines cap wire line).map Prod.snd = (headerLines cap' wire line').map Prod.snd := by
  induction wire generalizing line line' with
  | nil => rfl
  | cons head wire ih =>
    unfold headerLines
    split
    · have both : cstr line = [] ↔ cstr line' = [] := by
        rw [cstr_eq_nil_iff, cstr_eq_nil_iff, same]
      by_cases empty : cstr line = []
      · rw [if_pos empty, if_pos (both.mp empty)]
      · rw [if_neg empty, if_neg (fun empty' => empty (both.mpr empty'))]
        simp only [Option.map_map]
        exact ih rfl
    · split
      · exact ih same
      · apply ih
        rw [head_putc room, head_putc room', same]

theorem headerLines_of_short {cap : Nat} {wire : Wire} {line whole : Text} {lines : List Text}
    {rest : Wire} (read : headerLines cap wire whole = some (lines, rest))
    (room : whole.length + wire.length + 1 < cap) (short : ∀ line ∈ lines, line.length ≤ 1023)
    (same : line.head? = whole.head?)
    (agree : cstr whole ≠ [] → whole.length ≤ 1023 → line = whole) :
    headerLines 1024 wire line = some (lines, rest) := by
  induction wire generalizing line whole lines with
  | nil => cases read
  | cons head wire ih =>
    rcases head with ⟨c, mark⟩
    rw [List.length_cons] at room
    unfold headerLines at read ⊢
    split at read
    · rename_i ends
      rw [if_pos ends]
      have both : cstr line = [] ↔ cstr whole = [] := by
        rw [cstr_eq_nil_iff, cstr_eq_nil_iff, same]
      split at read
      · rename_i empty
        rw [if_pos (both.mpr empty)]
        exact read
      · rename_i more
        rw [if_neg (fun empty => more (both.mp empty))]
        rcases Option.map_eq_some_iff.mp read with ⟨⟨lines', rest'⟩, found, pair⟩
        obtain ⟨rfl, rfl⟩ := Prod.mk.inj pair
        have first : line = whole := agree more (short whole List.mem_cons_self)
        have later := @ih [] _ _ found (by simp only [List.length_nil]; omega)
          (fun other member => short other (List.mem_cons_of_mem whole member)) rfl fun _ _ => rfl
        rw [later, first]
        rfl
    · rename_i goes
      rw [if_neg goes]
      split at read
      · rename_i cr
        rw [if_pos cr]
        exact ih read (by omega) short same agree
      · rename_i char
        rw [if_neg char]
        have put : putc cap whole c = whole ++ [c] := if_pos (by omega)
        rw [put] at read
        apply ih read
        · simp only [List.length_append, List.length_singleton]
          omega
        · exact short
        · rw [head_putc (by decide), same, ← put, head_putc (by omega)]
        · intro more bounded
          have before : line = whole := by
            cases whole with
            | nil => simpa using same
            | cons d whole =>
              apply agree
              · intro empty
                rw [cstr_eq_nil_iff] at empty
                apply more
                rw [cstr_eq_nil_iff]
                exact empty
              · simp only [List.length_append, List.length_singleton] at bounded
                omega
          rw [before]
          apply if_pos
          simp only [List.length_append, List.length_singleton] at bounded
          omega

theorem isPrefixOf_take {p line : Text} {n : Nat} (short : p.length ≤ n) :
    p.isPrefixOf (line.take n) = p.isPrefixOf line := by
  rw [Bool.eq_iff_iff, List.isPrefixOf_iff_prefix, List.isPrefixOf_iff_prefix, List.prefix_take_iff]
  exact and_iff_left short

theorem readHeader_of_fits {line : Text} (fits : HeaderFits line) (f : Framing) :
    readHeader f line = declareHeader f line := by
  have name (p : Text) (short : p.length ≤ 250) :
      p.isPrefixOf (((cstr line).take 250).map toLower) = p.isPrefixOf ((cstr line).map toLower) := by
    rw [List.map_take, isPrefixOf_take short]
  unfold readHeader declareHeader
  simp only
  rw [name _ (by decide), name _ (by decide)]
  cases coding : (ascii "transfer-encoding:").isPrefixOf ((cstr line).map toLower) with
  | false => rfl
  | true => rw [fits.2 coding]

theorem framing_of_fits {lines : List Text} (fits : ∀ line ∈ lines, HeaderFits line) (f : Framing) :
    lines.foldl readHeader f = lines.foldl declareHeader f := by
  induction lines generalizing f with
  | nil => rfl
  | cons line lines ih =>
    rw [List.foldl_cons, List.foldl_cons, readHeader_of_fits (fits line List.mem_cons_self)]
    exact ih (fun other member => fits other (List.mem_cons_of_mem line member)) _

theorem parseResponseHead_spec {wire : Wire} {broken : Bool} {h : Stream}
    (parsed : parseResponseHead wire broken = some h) (fits : Fits wire broken) :
    ∃ lines, headerPart wire.bytes = some (lines, h.wire.bytes) ∧ h.broken = broken ∧
      h.readFailed = false ∧ h.chunked = (lines.foldl declareHeader {}).chunked ∧
      h.contentRemaining = (lines.foldl declareHeader {}).contentLen ∧
      (h.chunked = true → h.cstate = .size) := by
  unfold parseResponseHead at parsed
  split at parsed
  · cases parsed
  · rename_i first rest line
    split at parsed
    · cases parsed
    · rename_i status _
      rcases Option.map_eq_some_iff.mp parsed with ⟨⟨lines', end'⟩, found, same⟩
      -- the same ends of lines are found with room for every line
      have rest' := rawLine_rest 1024 (wire.length + 2) wire [] []
      rw [line] at rest'
      rcases Option.map_eq_some_iff.mp rest'.symm with ⟨⟨whole, after⟩, read, same'⟩
      obtain rfl : after = rest := same'
      have end'' := @headerLines_rest 1024 (wire.length + 2) (by decide) (by omega) after [] [] rfl
      rw [found] at end''
      rcases Option.map_eq_some_iff.mp end''.symm with ⟨⟨lines, body⟩, all, same'⟩
      obtain rfl : body = end' := same'
      have part : headerPart wire.bytes = some (lines, Wire.bytes body) := by
        rw [headerPart_eq, read, Option.bind_some]
        simp only [all, Option.map_some]
      have headers := fits.headers lines _ part
      have shorter := Stream.rawLine_length line
      have again := @headerLines_of_short _ _ [] _ _ _ all (by simp only [List.length_nil]; omega)
        (fun line member => (headers line member).1) rfl fun _ _ => rfl
      rw [found] at again
      obtain rfl : lines' = lines := congrArg Prod.fst (Option.some.inj again)
      have framing := framing_of_fits headers {}
      subst same
      refine ⟨lines', part, rfl, rfl, ?_, ?_, ?_⟩
      · exact congrArg Framing.chunked framing
      · exact congrArg Framing.contentLen framing
      · intro chunked
        exact if_pos chunked

/-! ### The response -/

theorem decodes_whole {f : Framing} {h h' : Stream} {body : Text} (chunked : h.chunked = f.chunked)
    (length : h.contentRemaining = f.contentLen) (state : h.chunked = true → h.cstate = .size)
    (sizes : f.chunked = true → SizesFit h.wire.bytes)
    (arrives : ArrivalFits f h.wire.bytes bodyLimit) (decodes : Decodes h body h') :
    body.length ≤ bodyLimit ∧
      (h'.readFailed = true ∨ WholeBody f h.wire.bytes (!h.broken) body) := by
  unfold ArrivalFits at arrives
  unfold WholeBody
  split at arrives
  · rename_i isChunked
    rw [if_pos isChunked]
    rw [isChunked] at chunked
    exact decodes_chunked chunked (state chunked) (sizes isChunked) arrives decodes
  · rename_i plain
    rw [if_neg plain]
    have plain : h.chunked = false := chunked.trans (Bool.not_eq_true _ ▸ plain)
    split at arrives
    · rename_i known
      rw [if_pos known]
      have known' : h.contentRemaining = f.contentLen.toNat :=
        length.trans (Int.toNat_of_nonneg known).symm
      rcases decodes_length plain known' decodes with ⟨rfl, complete⟩
      refine ⟨by simpa using arrives, complete.imp_right fun enough => ⟨?_, rfl⟩⟩
      simpa [Wire.bytes] using enough
    · rename_i unknown
      rw [if_neg unknown]
      rcases decodes_close plain (by omega) decodes with ⟨rfl, complete⟩
      exact ⟨arrives, complete.imp_right fun closed => ⟨by rw [closed]; rfl, rfl⟩⟩

theorem line_unique {line line' rest rest' : Text} (oneLine : newline ∉ line)
    (oneLine' : newline ∉ line') (same : line ++ newline :: rest = line' ++ newline :: rest') :
    line = line' := by
  induction line generalizing line' with
  | nil =>
    cases line' with
    | nil => rfl
    | cons c line' =>
      obtain ⟨rfl, -⟩ := List.cons.inj same
      exact absurd List.mem_cons_self oneLine'
  | cons c line ih =>
    cases line' with
    | nil =>
      obtain ⟨rfl, -⟩ := List.cons.inj same
      exact absurd List.mem_cons_self oneLine
    | cons c' line' =>
      obtain ⟨rfl, tail⟩ := List.cons.inj same
      rw [List.mem_cons, not_or] at oneLine oneLine'
      rw [ih oneLine.2 oneLine'.2 tail]

end CognitiveOs.Http
