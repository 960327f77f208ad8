import CognitiveOs.Runtime.TaskLog.Journal

/-!
# Two checkpoint files

The checkpoints of a task alternate between two files, so that the last one that was completed is
there when the one after it was cut.
-/

namespace CognitiveOs.Runtime.TaskLog

open Infra Cjson

variable {number : Rat → Text}

/-! ### What a file is read as -/

variable {items : List Json}

theorem checkpoint_object (prints : PrintsNumbers number) {id : Nat} (digits : id < 10 ^ 15) (seq : UInt32)
    (shallow : WithinItems (nestingLimit - 2) items) :
    ∃ items', Json.RereadsItems number (nestingLimit - 2) items items' ∧
      ObjectText (checkpointText number id seq items)
        [(ascii "id", .number id), (ascii "seq", .number seq.toNat), (ascii "trace", .array items')] := by
  have members : WithinMembers (nestingLimit - 1) (checkpointMembers id seq items) :=
    .cons (by decide) (.number _) (.cons (by decide) (.number _) (.cons (by decide) (.array shallow) .nil))
  obtain ⟨members', shown, object⟩ := prints.objectText members
  have small : seq.toNat < 10 ^ 15 := Nat.lt_trans seq.toNat_lt (by decide)
  have exact : toDouble id = (id : Rat) := toDouble_of_small (Nat.lt_trans digits (by decide))
  unfold checkpointMembers at shown
  rw [exact] at shown
  cases shown with
  | cons _ key shown =>
    cases shown with
    | cons _ version shown =>
      cases shown with
      | cons _ trace shown =>
        cases shown
        cases key with
        | number key =>
          cases version with
          | number version =>
            cases trace with
            | array trace =>
              refine ⟨_, trace, ?_⟩
              rw [prints.read_integer digits key, prints.read_integer small version] at object
              exact object

theorem slotRecord_checkpoint (prints : PrintsNumbers number) {id : Nat} (digits : id < 10 ^ 15) (seq : UInt32)
    (shallow : WithinItems (nestingLimit - 2) items) :
    ∃ items', slotRecord id (some (checkpointText number id seq items)) = some ((seq.toNat : Rat), items') ∧
      Json.print number (.array items') = Json.print number (.array items) := by
  obtain ⟨items', shown, object⟩ := checkpoint_object prints digits seq shallow
  refine ⟨items', ?_, (Json.Rereads.array shown).print_eq⟩
  have exact : toDouble id = (id : Rat) := toDouble_of_small (Nat.lt_trans digits (by decide))
  have read : parse (checkpointText number id seq items) = some (.object
      [(ascii "id", .number id), (ascii "seq", .number seq.toNat), (ascii "trace", .array items')]) := by
    rw [parse, object.whole]
    rfl
  have seq' : ascii "id" ≠ ascii "seq" := by simp [ascii]
  have trace' : ascii "id" ≠ ascii "trace" ∧ ascii "seq" ≠ ascii "trace" := by simp [ascii]
  simp only [slotRecord, Option.bind_some, read, get?_cons_self, get?_cons_of_ne seq', get?_cons_of_ne trace'.1,
    get?_cons_of_ne trace'.2, exact, if_true]

theorem slotRecord_cut (prints : PrintsNumbers number) {id : Nat} (digits : id < 10 ^ 15) (seq : UInt32)
    (shallow : WithinItems (nestingLimit - 2) items) {cut : Text} (part : cut <+: checkpointText number id seq items)
    (short : cut ≠ checkpointText number id seq items) : slotRecord id (some cut) = none := by
  obtain ⟨items', -, object⟩ := checkpoint_object prints digits seq shallow
  obtain ⟨rest, split⟩ := part
  have more : rest ≠ [] := by
    rintro rfl
    exact short (by rw [← split, List.append_nil])
  rw [← split] at object
  have broken := parse_cut (q := []) object more (by simp)
  rw [List.append_nil] at broken
  simp only [slotRecord, Option.bind_some, broken]

/-! ### Both files -/

variable {seq : Nat} {id : Int} {f : Files}

/-- The file of number `seq` has that checkpoint, and the other one has none or an older one. -/
structure Latest (f : Files) (id : Int) (seq : Nat) (items : List Json) : Prop where
  own : slotRecord id (f.slots id (seq % 2)) = some ((seq : Rat), items)
  other : ∀ version others, slotRecord id (f.slots id ((seq + 1) % 2)) = some (version, others) → version < seq

/-- What the files hold of a task is older than number `seq`. -/
def Older (f : Files) (id : Int) (seq : Nat) : Prop :=
  ∀ slot < 2, ∀ version items, slotRecord id (f.slots id slot) = some (version, items) → version < seq

theorem better_of_newer {best : Option (Rat × List Json)}
    (older : ∀ version others, best = some (version, others) → version < seq) :
    better best (some ((seq : Rat), items)) = some ((seq : Rat), items) := by
  have newer : best.elim (-1) Prod.fst < (seq : Rat) := by
    cases best with
    | none =>
      have negative : (-1 : Rat) < 0 := by decide
      have positive : (0 : Rat) ≤ seq := by exact_mod_cast Nat.zero_le seq
      exact lt_of_lt_of_le negative positive
    | some best => exact older best.1 best.2 rfl
  exact if_pos newer

theorem better_of_older {record : Option (Rat × List Json)}
    (older : ∀ version others, record = some (version, others) → version < seq) :
    better (some ((seq : Rat), items)) record = some ((seq : Rat), items) := by
  cases record with
  | none => rfl
  | some record =>
    have newer := older record.1 record.2 rfl
    exact if_neg (not_lt.mpr (le_of_lt newer))

theorem Latest.read (latest : Latest f id seq items) :
    checkpointRead number f id = some (Json.print number (.array items)) := by
  have own := latest.own
  have other := latest.other
  have slots : List.range 2 = [0, 1] := rfl
  unfold checkpointRead
  rw [slots, List.foldl_cons, List.foldl_cons, List.foldl_nil]
  rcases Nat.mod_two_eq_zero_or_one seq with even | odd
  · have next : (seq + 1) % 2 = 1 := by omega
    rw [even] at own
    rw [next] at other
    rw [own, better_of_newer (by simp), better_of_older other]
    rfl
  · have next : (seq + 1) % 2 = 0 := by omega
    rw [odd] at own
    rw [next] at other
    have first : ∀ version others, better none (slotRecord id (f.slots id 0)) = some (version, others) →
        version < seq := by
      intro version others best
      cases zero : slotRecord id (f.slots id 0) with
      | none =>
        rw [zero] at best
        cases best
      | some record =>
        rw [zero] at best
        obtain ⟨-, same⟩ := Option.ite_none_right_eq_some.mp best
        exact other version others (by rw [zero, same])
    rw [own, better_of_newer first]
    rfl

theorem Latest.setSlot (latest : Latest f id seq items) {text : Text} (nothing : slotRecord id (some text) = none) :
    Latest (f.setSlot id ((seq + 1) % 2) text) id seq items := by
  have apart : ¬ seq % 2 = (seq + 1) % 2 := by omega
  constructor
  · have own := latest.own
    simpa [Files.setSlot, apart] using own
  · intro version others read
    simp [Files.setSlot, nothing] at read

theorem latest_setSlot {text : Text} (written : slotRecord id (some text) = some ((seq : Rat), items))
    (other : ∀ version others, slotRecord id (f.slots id ((seq + 1) % 2)) = some (version, others) → version < seq) :
    Latest (f.setSlot id (seq % 2) text) id seq items := by
  have apart : ¬ (seq + 1) % 2 = seq % 2 := by omega
  constructor
  · simpa [Files.setSlot] using written
  · intro version others read
    exact other version others (by simpa [Files.setSlot, apart] using read)

theorem Latest.older (latest : Latest f id seq items) : Older f id (seq + 1) := by
  intro slot within version others read
  have next : (seq : Rat) < ((seq + 1 : Nat) : Rat) := by exact_mod_cast Nat.lt_succ_self seq
  by_cases own : slot = seq % 2
  · rw [own, latest.own] at read
    cases read
    exact next
  · obtain rfl : slot = (seq + 1) % 2 := by omega
    exact lt_trans (latest.other version others read) next

/-! ### Runs of checkpoints -/

def checkpoints (number : Rat → Text) (f : Files) (id : Int) (seq : UInt32) : List Text → Option Files
  | [] => some f
  | trace :: traces => (checkpoint number f id seq trace).bind fun f => checkpoints number f id (seq + 1) traces

def Shallow (trace : Text) : Prop :=
  ∀ items, parse trace = some (.array items) → WithinItems (nestingLimit - 2) items

theorem checkpoint_of_array (valid : 0 ≤ id) {seq : UInt32} {trace : Text} (read : parse trace = some (.array items)) :
    checkpoint number f id seq trace = some (f.setSlot id (slotOf seq) (checkpointText number id seq items)) := by
  rw [checkpoint, if_neg (Int.not_lt.mpr valid), read]

theorem Older.checkpoint (prints : PrintsNumbers number) {f' : Files} {id : Nat} {seq : UInt32}
    (older : Older f id seq.toNat) (digits : id < 10 ^ 15) {trace : Text} (shallow : Shallow trace)
    (done : checkpoint number f id seq trace = some f') :
    ∃ items items', parse trace = some (.array items) ∧ Latest f' id seq.toNat items' ∧
      Json.print number (.array items') = Json.print number (.array items) := by
  have valid : ¬ (id : Int) < 0 := by omega
  rw [TaskLog.checkpoint, if_neg valid] at done
  split at done
  · rename_i items read
    cases done
    obtain ⟨items', written, same⟩ := slotRecord_checkpoint prints digits seq (shallow items read)
    refine ⟨items, items', read, latest_setSlot written fun version others other => ?_, same⟩
    exact older _ (Nat.mod_lt _ (by decide)) version others other
  · cases done

theorem latest_of_checkpoints (prints : PrintsNumbers number) {id : Nat} (digits : id < 10 ^ 15) {traces : List Text}
    {last : Text} (shallow : ∀ trace ∈ traces ++ [last], Shallow trace) {f f' : Files} {first : UInt32}
    (older : Older f id first.toNat) (fits : first.toNat + traces.length < 2 ^ 32)
    (done : checkpoints number f id first (traces ++ [last]) = some f') :
    ∃ items items', parse last = some (.array items) ∧ Latest f' id (first.toNat + traces.length) items' ∧
      Json.print number (.array items') = Json.print number (.array items) := by
  induction traces generalizing f first with
  | nil =>
    obtain ⟨next, wrote, same⟩ := Option.bind_eq_some_iff.mp done
    cases same
    exact older.checkpoint prints digits (shallow last (by simp)) wrote
  | cons trace traces ih =>
    obtain ⟨next, wrote, done⟩ := Option.bind_eq_some_iff.mp done
    obtain ⟨-, items', -, latest, -⟩ := older.checkpoint prints digits (shallow trace (by simp)) wrote
    rw [List.length_cons] at fits
    have counted : (first + 1).toNat = first.toNat + 1 := by
      rw [UInt32.toNat_add, UInt32.toNat_one, Nat.mod_eq_of_lt (by omega)]
    have older' : Older next id (first + 1).toNat := by
      rw [counted]
      exact latest.older
    have rest := ih (fun other member => shallow other (by simp [member])) older' (by omega) done
    rw [counted] at rest
    have length : first.toNat + (trace :: traces).length = first.toNat + 1 + traces.length := by
      rw [List.length_cons]
      omega
    rw [length]
    exact rest

def noFiles : Files where
  journal := none
  slots _ _ := none

theorem older_noFiles (id : Int) (seq : Nat) : Older noFiles id seq := by
  intro slot _ version items read
  cases read

variable {depth : Nat}

def nest : Nat → Json
  | 0 => .array []
  | n + 1 => .array [nest n]

theorem nest_succ (n : Nat) : nest (n + 1) = .array [nest n] :=
  rfl

theorem plain_nest (n : Nat) : Json.Plain (n + 1) (nest n) := by
  induction n with
  | zero => exact .array .nil
  | succ n ih => exact .array (.cons ih .nil)

theorem print_nest (n : Nat) :
    Json.print number (nest n) = List.replicate (n + 1) 91 ++ List.replicate (n + 1) 93 := by
  induction n with
  | zero =>
    rw [nest, Json.print]
    rfl
  | succ n ih =>
    rw [nest, Json.print, Json.printItems, ih, List.replicate_succ (n := n + 1), List.replicate_succ' (n := n + 1)]
    simp

theorem parseValue_deep {n : Nat} (limit : depth ≤ nestingLimit) (deep : nestingLimit < depth + n) (fuel : Nat)
    (t : Text) : parseValue fuel depth (List.replicate n 91 ++ t) = none := by
  induction n generalizing depth fuel with
  | zero => omega
  | succ n ih =>
    cases fuel with
    | zero => rfl
    | succ fuel =>
      by_cases full : nestingLimit ≤ depth
      · rw [List.replicate_succ, List.cons_append, parseValue_cons (by decide) (by decide) (by decide)]
        simp [full, isDigit]
      · obtain ⟨n, rfl⟩ : ∃ m, n = m + 1 := ⟨n - 1, by omega⟩
        have inner (fuel : Nat) : parseValue fuel (depth + 1) (List.replicate (n + 1) 91 ++ t) = none :=
          ih (by omega) (by omega) fuel
        rw [List.replicate_succ, List.cons_append, List.replicate_succ, List.cons_append,
          parseValue_array (by decide) (by decide) (by omega)]
        cases fuel with
        | zero => rfl
        | succ fuel =>
          have none' := inner fuel
          rw [List.replicate_succ, List.cons_append] at none'
          rw [parseItems, skipSpace_cons (by decide), none']
          rfl

theorem parseMembers_none {t key s : Text} (name : parseString (skipSpace t) = some (key, 58 :: s))
    (start : skipSpace s = s) (broken : ∀ fuel, parseValue fuel depth s = none) (fuel : Nat) :
    parseMembers fuel depth t = none := by
  have colon : skipSpace (58 :: s) = 58 :: s := skipSpace_cons (by decide)
  cases fuel with
  | zero => rfl
  | succ fuel => simp [parseMembers, name, colon, start, broken]

theorem parseMembers_number {key rest : Text} {value : Rat} {json : Json} (text : 0 ∉ key)
    (shown : Json.NumberReads number value json) (broken : ∀ fuel, parseMembers fuel depth rest = none) (fuel : Nat) :
    parseMembers fuel depth (Json.printString key ++ 58 :: (number value ++ 44 :: rest)) = none := by
  have start : skipSpace (number value ++ 44 :: rest) = number value ++ 44 :: rest := by
    have again : Json.Rereads number 0 (.number value) json := .number shown
    have skip := skipSpace_print number again (44 :: rest)
    rwa [Json.print] at skip
  cases fuel with
  | zero => rfl
  | succ fuel =>
    cases fuel with
    | zero =>
      have nothing : parseValue 0 depth (number value ++ 44 :: rest) = none := rfl
      have colon : skipSpace (58 :: (number value ++ 44 :: rest)) = 58 :: (number value ++ 44 :: rest) :=
        skipSpace_cons (by decide)
      simp [parseMembers, parseString_printString text, colon, start, nothing]
    | succ fuel =>
      rw [parseMembers_member (parseString_printString text _) start
        (parseValue_number number shown (stops_cons (by decide) _)), skipSpace_cons (by decide)]
      simp only [if_true, broken]
      rfl

theorem parseValue_named (fuel : Nat) (key t : Text) :
    parseValue (fuel + 1) 0 (123 :: (Json.printString key ++ t)) =
      (parseMembers fuel 1 (Json.printString key ++ t)).map fun (members, after) => (.object members, after) :=
  parseValue_object (by decide) (by decide) (by decide)

theorem slotRecord_deep (prints : PrintsNumbers number) (id : Nat) (seq : UInt32) :
    slotRecord id (some (checkpointText number id seq [nest (nestingLimit - 2)])) = none := by
  obtain ⟨key, first⟩ := prints.reads (toDouble id)
  obtain ⟨version, second⟩ := prints.reads seq.toNat
  have trace := (plain_nest (nestingLimit - 1)).rereads number
  have object : Json.Rereads number (nestingLimit - 1 + 1 + 1)
      (.object (checkpointMembers id seq [nest (nestingLimit - 2)]))
      (.object [(ascii "id", key), (ascii "seq", version), (ascii "trace", nest (nestingLimit - 1))]) :=
    .object (.cons (by decide) (.number first) (.cons (by decide) (.number second) (.cons (by decide) trace .nil)))
  have deep (fuel : Nat) : parseValue fuel 1 (Json.print number (nest (nestingLimit - 1)) ++ [125]) = none := by
    rw [print_nest, List.append_assoc]
    exact parseValue_deep (by decide) (by decide) fuel _
  have trace' (fuel : Nat) : parseMembers fuel 1 (Json.printString (ascii "trace") ++
      58 :: (Json.print number (nest (nestingLimit - 1)) ++ [125])) = none :=
    parseMembers_none (parseString_printString (by decide) _) (skipSpace_print number trace _) deep fuel
  have members (fuel : Nat) : parseMembers fuel 1 (Json.printString (ascii "id") ++ 58 :: (number (toDouble id) ++ 44 ::
      (Json.printString (ascii "seq") ++ 58 :: (number seq.toNat ++ 44 :: (Json.printString (ascii "trace") ++
        58 :: (Json.print number (nest (nestingLimit - 1)) ++ [125])))))) = none :=
    parseMembers_number (by decide) first (parseMembers_number (by decide) second trace') fuel
  have shown : checkpointText number id seq [nest (nestingLimit - 2)] = 123 :: (Json.printString (ascii "id") ++ 58 ::
      (number (toDouble id) ++ 44 :: (Json.printString (ascii "seq") ++ 58 :: (number seq.toNat ++ 44 ::
        (Json.printString (ascii "trace") ++ 58 :: (Json.print number (nest (nestingLimit - 1)) ++ [125])))))) := by
    simp only [checkpointText, checkpointMembers, Json.print, Json.printMembers]
    rfl
  have clean := (print_clean number object).1
  rw [← checkpointText, shown] at clean
  have broken : parse (checkpointText number id seq [nest (nestingLimit - 2)]) = none := by
    rw [shown, parse, parseWithEnd_brace clean]
    refine Option.map_eq_none_iff.mpr ?_
    rw [parseValue_named, members]
    rfl
  simp only [slotRecord, Option.bind_some, broken]

end CognitiveOs.Runtime.TaskLog
