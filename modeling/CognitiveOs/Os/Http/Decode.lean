import CognitiveOs.Os.Http.Model
import Mathlib.Tactic.Tauto

/-!
# What the transfer decoder delivers

The bytes `decode_getc` returns one after the other, and the state it ends in. However the
wire is cut into blocks, the reads of `http_full` deliver exactly these bytes.
-/

namespace CognitiveOs.Http

open Infra

/-- The bytes that are delivered before the decoder stops, and where it stops. -/
inductive Decodes : Stream → Text → Stream → Prop where
  | stop {h h' : Stream} : h.decodeGetc = (none, h') → Decodes h [] h'
  | byte {h h' h'' : Stream} {c : UInt8} {last : Bool} {body : Text} :
      h.decodeGetc = (some (c, last), h') → Decodes h' body h'' → Decodes h (c :: body) h''

namespace Stream

variable {h h' : Stream}

@[simp] theorem fail_wire (h : Stream) : h.fail.wire = [] :=
  rfl

@[simp] theorem fail_fail (h : Stream) : h.fail.fail = h.fail := by
  unfold fail
  simp only [Stream.mk.injEq, true_and, and_true, Bool.or_assoc]
  cases h.readFailed <;> cases h.broken <;> cases decide (0 < h.contentRemaining) <;> simp

theorem rawLine_length {cap : Nat} {wire rest : Wire} {line found : Text}
    (read : rawLine cap wire line = some (found, rest)) : rest.length < wire.length := by
  induction wire generalizing line with
  | nil => cases read
  | cons head wire ih =>
    unfold rawLine at read
    split at read
    · rw [← (Prod.mk.inj (Option.some.inj read)).2]
      exact Nat.lt_succ_self _
    · split at read <;> exact Nat.lt_succ_of_lt (ih read)

variable {x : Option (UInt8 × Bool)}

theorem takeData_length (taken : h.takeData = (x, h')) : h'.wire.length + x.isSome.toNat ≤ h.wire.length := by
  unfold takeData at taken
  split at taken
  · obtain ⟨rfl, rfl⟩ := Prod.mk.inj taken
    exact Nat.zero_le _
  · rename_i wire more
    obtain ⟨rfl, rfl⟩ := Prod.mk.inj taken
    rw [more]
    exact le_refl _

theorem readSize_length (taken : h.readSize = (x, h')) : h'.wire.length + x.isSome.toNat ≤ h.wire.length := by
  unfold readSize at taken
  split at taken
  · obtain ⟨rfl, rfl⟩ := Prod.mk.inj taken
    exact Nat.zero_le _
  · rename_i line wire read
    have shorter := rawLine_length read
    simp only at taken
    split at taken
    · obtain ⟨rfl, rfl⟩ := Prod.mk.inj taken
      exact shorter.le
    · exact (takeData_length taken).trans shorter.le

theorem skipCrlf_length (taken : h.skipCrlf = (x, h')) : h'.wire.length + x.isSome.toNat ≤ h.wire.length := by
  unfold skipCrlf at taken
  split at taken
  · obtain ⟨rfl, rfl⟩ := Prod.mk.inj taken
    exact Nat.zero_le _
  · rename_i wire skipped
    have shorter := (List.dropWhile_sublist (fun c => c.1 ≠ newline) (l := h.wire)).length_le
    rw [skipped] at shorter
    exact (readSize_length taken).trans ((Nat.le_succ _).trans shorter)

theorem decodeGetc_length (taken : h.decodeGetc = (x, h')) : h'.wire.length + x.isSome.toNat ≤ h.wire.length := by
  unfold decodeGetc at taken
  split at taken
  · split at taken
    · obtain ⟨rfl, rfl⟩ := Prod.mk.inj taken
      exact le_refl _
    · split at taken
      · exact skipCrlf_length (h := { h with cstate := .crlf }) taken
      · exact takeData_length taken
    · exact skipCrlf_length taken
    · exact readSize_length taken
  · split at taken
    · obtain ⟨rfl, rfl⟩ := Prod.mk.inj taken
      exact le_refl _
    · unfold getc at taken
      cases wire : h.wire with
      | nil =>
        rw [wire] at taken
        obtain ⟨rfl, rfl⟩ := Prod.mk.inj taken
        exact Nat.zero_le _
      | cons byte rest =>
        rw [wire] at taken
        obtain ⟨rfl, rfl⟩ := Prod.mk.inj taken
        simp only
        split <;> exact le_refl _

theorem decodeGetc_stop (stopped : h.decodeGetc = (none, h')) : h'.decodeGetc = (none, h') := by
  have data {h h' : Stream} (chunked : h.chunked = true) (state : h.cstate = .data)
      (some' : h.chunkRemaining ≠ 0) (stopped : h.takeData = (none, h')) :
      h'.decodeGetc = (none, h') := by
    unfold takeData at stopped
    split at stopped
    · rw [← (Prod.mk.inj stopped).2]
      have same : h.fail.decodeGetc = h.fail.takeData := by
        simp [decodeGetc, fail, chunked, state, some']
      rw [same]
      simp [takeData]
    · cases stopped
  have size {h h' : Stream} (chunked : h.chunked = true) (state : h.cstate = .size)
      (stopped : h.readSize = (none, h')) : h'.decodeGetc = (none, h') := by
    unfold readSize at stopped
    split at stopped
    · rw [← (Prod.mk.inj stopped).2]
      have same : h.fail.decodeGetc = h.fail.readSize := by
        simp [decodeGetc, fail, chunked, state]
      rw [same]
      simp [readSize, rawLine]
    · simp only at stopped
      split at stopped
      · rw [← (Prod.mk.inj stopped).2]
        simp [decodeGetc, chunked]
      · rename_i positive
        apply data (h := { h with wire := _, chunkRemaining := _, cstate := .data }) chunked rfl _ stopped
        simp only
        omega
  have crlf {h h' : Stream} (chunked : h.chunked = true) (state : h.cstate = .crlf)
      (stopped : h.skipCrlf = (none, h')) : h'.decodeGetc = (none, h') := by
    unfold skipCrlf at stopped
    split at stopped
    · rw [← (Prod.mk.inj stopped).2]
      have same : h.fail.decodeGetc = h.fail.skipCrlf := by
        simp [decodeGetc, fail, chunked, state]
      rw [same]
      simp [skipCrlf]
    · exact size (h := { h with wire := _, cstate := .size }) chunked rfl stopped
  have first := stopped
  unfold decodeGetc at stopped
  split at stopped
  · rename_i chunked
    split at stopped
    · rw [← (Prod.mk.inj stopped).2]
      rename_i state
      simp [decodeGetc, chunked, state]
    · rename_i state
      split at stopped
      · exact crlf (h := { h with cstate := .crlf }) chunked rfl stopped
      · exact data chunked state ‹_› stopped
    · exact crlf chunked ‹_› stopped
    · exact size chunked ‹_› stopped
  · rename_i plain
    split at stopped
    · rw [← (Prod.mk.inj stopped).2]
      rename_i spent
      simp [decodeGetc, plain, spent]
    · rename_i more
      unfold getc at stopped
      cases empty : h.wire with
      | nil =>
        rw [empty] at stopped
        rw [← (Prod.mk.inj stopped).2]
        have same : h.fail.decodeGetc = (none, h.fail.fail) := by
          simp [decodeGetc, fail, plain, more, getc]
        rw [same, fail_fail]
      | cons byte wire =>
        rw [empty] at stopped
        cases stopped

end Stream

theorem decodes_total (h : Stream) : ∃ body h', Decodes h body h' := by
  induction size : h.wire.length using Nat.strong_induction_on generalizing h with
  | _ size ih =>
    subst size
    rcases got : h.decodeGetc with ⟨_ | ⟨c, last⟩, next⟩
    · exact ⟨[], next, .stop got⟩
    · rcases ih _ (Stream.decodeGetc_length got) next rfl with ⟨body, h', rest⟩
      exact ⟨c :: body, h', .byte got rest⟩

theorem read_spec {room : Nat} {h h' h'' : Stream} {out total : Text}
    (taken : h.read room = (out, h')) (decodes : Decodes h total h'') :
    ∃ body, total = out ++ body ∧ Decodes h' body h'' ∧
      (out = [] → room ≠ 0 → body = [] ∧ h' = h'') ∧
      h'.wire.length + out.length ≤ h.wire.length := by
  induction room generalizing h out total with
  | zero =>
    obtain ⟨rfl, rfl⟩ := Prod.mk.inj taken
    exact ⟨total, rfl, decodes, fun _ room => absurd rfl room, le_refl _⟩
  | succ room ih =>
    unfold Stream.read at taken
    cases decodes with
    | stop stopped =>
      rw [stopped] at taken
      obtain ⟨rfl, rfl⟩ := Prod.mk.inj taken
      exact ⟨[], rfl, .stop (Stream.decodeGetc_stop stopped), fun _ _ => ⟨rfl, rfl⟩,
        Stream.decodeGetc_length stopped⟩
    | byte got rest =>
      have shorter := Stream.decodeGetc_length got
      rw [got] at taken
      simp only at taken
      split at taken
      · obtain ⟨rfl, rfl⟩ := Prod.mk.inj taken
        refine ⟨_, rfl, rest, ?_, shorter⟩
        intro impossible
        cases impossible
      · rename_i next _ _ _ _
        rcases more : next.read room with ⟨out', last'⟩
        rw [more] at taken
        obtain ⟨rfl, rfl⟩ := Prod.mk.inj taken
        rcases ih more rest with ⟨body, rfl, decodes, -, progress⟩
        refine ⟨body, rfl, decodes, ?_, ?_⟩
        · intro impossible
          cases impossible
        · simp only [Option.isSome_some, Bool.toNat_true] at shorter
          simp only [List.length_cons] at progress ⊢
          omega

theorem readAll_spec {rounds : Nat} {h h' : Stream} {total body : Text} (enough : h.wire.length < rounds)
    (decodes : Decodes h total h') (limit : (body ++ total).length ≤ 64 * 1024 * 1024) :
    h.readAll rounds body = (body ++ total, h') := by
  induction rounds generalizing h body total with
  | zero => exact absurd enough (Nat.not_lt_zero _)
  | succ rounds ih =>
    unfold Stream.readAll
    rcases taken : h.read 8192 with ⟨out, next⟩
    rcases read_spec taken decodes with ⟨rest, rfl, decodes', spent, progress⟩
    cases out with
    | nil =>
      rcases spent rfl (by decide) with ⟨rfl, rfl⟩
      simp
    | cons c out =>
      simp only
      rw [List.length_cons] at progress
      rw [← List.append_assoc] at limit
      rw [if_neg]
      · rw [ih (by omega) decodes' limit, List.append_assoc]
      · rw [List.length_append] at limit
        omega

end CognitiveOs.Http
