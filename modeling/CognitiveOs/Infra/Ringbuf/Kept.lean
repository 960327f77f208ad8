import CognitiveOs.Infra.Ringbuf.Model
import Mathlib.Data.List.Nodup

/-!
# What a step of the ring does

Every atomic step of the code, read as an act on slots with turns. The words are compared as the
numbers they stand for would be, because no thread is overtaken.
-/

namespace CognitiveOs.Infra.Ringbuf

open Foundation

variable {Item : Type} {st st' : State Item} {s s' : Turns}

theorem Acts.of_move {t : Nat} {old pc : Pc Item} (here : st.pc t = old) (same : st.goto t pc = st')
    (filling : pc.filling = old.filling) (emptying : pc.emptying = old.emptying)
    (fits : Fits s st.ring.capacity st.pushes st.ring.data pc) : ∃ s', Acts st s st' s' := by
  subst here same
  exact ⟨s, Acts.moves t pc fits filling emptying⟩

namespace Kept

variable (kept : Kept st s)
include kept

theorem cell (k : Nat) : st.cell (word k) = k % st.ring.capacity :=
  kept.words.shaped.cell k

theorem seq (k : Nat) : st.ring.seq (st.cell (word k)) = word (s.turn (k % st.ring.capacity)) := by
  rw [kept.cell]
  exact kept.words.seq _ (Nat.mod_lt k (by have := kept.sound.several; omega))

variable {k : Nat}

theorem diff_push (claimed : k ≤ s.filled) (prompt : s.filled + st.ring.capacity < k + 9223372036854775808) :
    diff (st.ring.seq (st.cell (word k))) (word k) = (s.turn (k % st.ring.capacity) : Int) - k := by
  have small := kept.words.shaped.small
  have ordered := kept.sound.ordered
  have low := kept.sound.filled_le_turn k
  have high := kept.sound.turn_le k
  rw [kept.seq]
  simp only [wordSize] at small
  exact diff_word (by omega) (by omega)

theorem diff_pop (claimed : k ≤ s.emptied) (prompt : s.emptied + st.ring.capacity < k + 9223372036854775808) :
    diff (st.ring.seq (st.cell (word k))) (word (word k + 1)) =
      (s.turn (k % st.ring.capacity) : Int) - (k + 1) := by
  have small := kept.words.shaped.small
  have ordered := kept.sound.ordered
  have low := kept.sound.filled_le_turn k
  have high := kept.sound.turn_le k
  rw [kept.seq, word_succ]
  simp only [wordSize] at small
  exact diff_word (by omega) (by omega)

theorem enqueuePos_read : st.ring.enqueuePos = word st.pushes.length ∧ st.pushes.length ≤ s.filled := by
  rw [kept.words.enqueuePos, kept.words.filled]
  exact ⟨rfl, Nat.le_refl _⟩

theorem dequeuePos_read : st.ring.dequeuePos = word st.pops ∧ st.pops ≤ s.emptied := by
  rw [kept.words.dequeuePos, kept.words.emptied]
  exact ⟨rfl, Nat.le_refl _⟩

theorem enqueuePos_eq (claimed : k ≤ s.filled) (prompt : s.filled < k + wordSize) (same : st.ring.enqueuePos = word k) :
    s.filled = k := by
  rw [kept.words.enqueuePos] at same
  exact eq_of_word_eq same claimed prompt

theorem dequeuePos_eq (claimed : k ≤ s.emptied) (prompt : s.emptied < k + wordSize)
    (same : st.ring.dequeuePos = word k) : s.emptied = k := by
  rw [kept.words.dequeuePos] at same
  exact eq_of_word_eq same claimed prompt

theorem advance_acts {t : Nat} (prompt : Prompt st (.step t)) (taken : advance st t = some st') :
    ∃ s', Acts st s st' s' := by
  have fits := kept.threads.fits t
  have filled := kept.words.filled
  have emptied := kept.words.emptied
  unfold advance at taken
  simp only [Prompt] at prompt
  cases here : st.pc t with
  | idle => simp [here] at taken
  | done result => simp [here] at taken
  | pushPos item =>
    simp only [here, Option.some.injEq] at taken
    exact Acts.of_move here taken rfl rfl kept.enqueuePos_read
  | pushSeq item pos k =>
    simp only [here, Pc.Prompt, Option.some.injEq] at taken prompt fits
    obtain ⟨rfl, claimed⟩ := fits
    rw [kept.diff_push claimed (by omega)] at taken
    split at taken
    · refine Acts.of_move here taken rfl rfl ⟨rfl, claimed, ?_⟩
      omega
    · split at taken
      · exact Acts.of_move here taken rfl rfl trivial
      · exact Acts.of_move here taken rfl rfl trivial
  | pushCas item pos k =>
    simp only [here, Pc.Prompt] at taken prompt fits
    obtain ⟨rfl, claimed, due⟩ := fits
    split at taken
    · rename_i same
      obtain rfl := kept.enqueuePos_eq claimed (by omega) same
      obtain rfl := Option.some.inj taken
      rw [word_succ, ← filled]
      exact ⟨_, Acts.claimsFill t item (by rw [here]; rfl) (by rw [here]; rfl) (kept.sound.turn_filled due)⟩
    · exact Acts.of_move here (Option.some.inj taken) rfl rfl kept.enqueuePos_read
  | pushData item pos k =>
    simp only [here, Option.some.injEq] at taken fits
    obtain ⟨rfl, -⟩ := fits
    obtain rfl := taken
    rw [kept.cell]
    exact ⟨_, Acts.stores t k item here⟩
  | pushTurn item pos k =>
    simp only [here, Option.some.injEq] at taken fits
    obtain ⟨rfl, -⟩ := fits
    obtain rfl := taken
    rw [kept.cell, word_succ]
    exact ⟨_, Acts.fills t k item here⟩
  | popPos =>
    simp only [here, Option.some.injEq] at taken
    exact Acts.of_move here taken rfl rfl kept.dequeuePos_read
  | popSeq pos k =>
    simp only [here, Pc.Prompt, Option.some.injEq] at taken prompt fits
    obtain ⟨rfl, claimed⟩ := fits
    rw [kept.diff_pop claimed (by omega)] at taken
    split at taken
    · refine Acts.of_move here taken rfl rfl ⟨rfl, claimed, ?_⟩
      omega
    · split at taken
      · exact Acts.of_move here taken rfl rfl trivial
      · exact Acts.of_move here taken rfl rfl trivial
  | popCas pos k =>
    simp only [here, Pc.Prompt] at taken prompt fits
    obtain ⟨rfl, claimed, due⟩ := fits
    split at taken
    · rename_i same
      obtain rfl := kept.dequeuePos_eq claimed (by omega) same
      obtain rfl := Option.some.inj taken
      rw [word_succ, ← emptied]
      exact ⟨_, Acts.claimsEmpty t (by rw [here]; rfl) (by rw [here]; rfl) (kept.sound.turn_emptied due)⟩
    · exact Acts.of_move here (Option.some.inj taken) rfl rfl kept.dequeuePos_read
  | popData pos k =>
    simp only [here, Option.some.injEq] at taken fits
    obtain ⟨rfl, claimed, turn⟩ := fits
    have full := kept.sound.ordered
    rw [kept.cell, kept.threads.stored k (by omega) turn] at taken
    exact Acts.of_move here taken rfl rfl ⟨rfl, claimed, turn, rfl⟩
  | popTurn pos k out =>
    simp only [here, Option.some.injEq] at taken fits
    obtain ⟨rfl, -⟩ := fits
    obtain rfl := taken
    have last : word (word k + st.ring.mask + 1) = word (k + st.ring.capacity) := by
      have several := kept.words.shaped.several
      rw [kept.words.shaped.mask, Nat.add_assoc, Nat.sub_add_cancel (by omega)]
      simp [word]
    rw [kept.cell, last]
    exact ⟨_, Acts.empties t k out here⟩
  | emptyPos =>
    simp only [here, Option.some.injEq] at taken
    exact Acts.of_move here taken rfl rfl kept.dequeuePos_read
  | emptySeq pos k =>
    simp only [here, Option.some.injEq] at taken
    exact Acts.of_move here taken rfl rfl trivial

theorem step_acts {label : Label Item} (prompt : Prompt st label) (taken : step st label = some st') :
    ∃ s', Acts st s st' s' := by
  cases label with
  | push t item =>
    simp only [step] at taken
    split at taken
    · rename_i here
      split at taken
      · exact Acts.of_move here (Option.some.inj taken) rfl rfl trivial
      · exact Acts.of_move here (Option.some.inj taken) rfl rfl trivial
    · cases taken
  | pop t =>
    simp only [step] at taken
    split at taken
    · rename_i here
      exact Acts.of_move here (Option.some.inj taken) rfl rfl trivial
    · cases taken
  | empty t =>
    simp only [step] at taken
    split at taken
    · rename_i here
      exact Acts.of_move here (Option.some.inj taken) rfl rfl trivial
    · cases taken
  | spurious t =>
    simp only [step] at taken
    split at taken
    · rename_i here
      exact Acts.of_move here (Option.some.inj taken) rfl rfl kept.enqueuePos_read
    · rename_i here
      exact Acts.of_move here (Option.some.inj taken) rfl rfl kept.dequeuePos_read
    · cases taken
  | back t =>
    simp only [step] at taken
    split at taken
    · rename_i here
      exact Acts.of_move here (Option.some.inj taken) rfl rfl trivial
    · cases taken
  | step t => exact kept.advance_acts prompt taken

end Kept

end CognitiveOs.Infra.Ringbuf

/-!
## The acts keep the invariant

One lemma for each act; a run without overtaking then keeps it.
-/

namespace CognitiveOs.Infra.Ringbuf

open Foundation

variable {Item : Type} {st st' : State Item} {s s' : Turns} {slots : Nat}

variable {data : Nat → Option Item} {pushes : List Item} {pc : Pc Item}

theorem filling_fits {k : Nat} (fits : Fits s slots pushes data pc) (filling : pc.filling = some k) :
    k < s.filled ∧ s.turn (k % slots) = k := by
  cases pc with
  | pushData item pos ticket =>
    obtain rfl := Option.some.inj filling
    exact ⟨fits.2.1, fits.2.2.1⟩
  | pushTurn item pos ticket =>
    obtain rfl := Option.some.inj filling
    exact ⟨fits.2.1, fits.2.2.1⟩
  | _ => cases filling

theorem emptying_fits {k : Nat} (fits : Fits s slots pushes data pc) (emptying : pc.emptying = some k) :
    k < s.emptied ∧ s.turn (k % slots) = k + 1 := by
  cases pc with
  | popData pos ticket =>
    obtain rfl := Option.some.inj emptying
    exact ⟨fits.2.1, fits.2.2⟩
  | popTurn pos ticket out =>
    obtain rfl := Option.some.inj emptying
    exact ⟨fits.2.1, fits.2.2.1⟩
  | _ => cases emptying

theorem Fits.later {pushes' : List Item} (fits : Fits s slots pushes data pc) (filled : s.filled ≤ s'.filled)
    (emptied : s.emptied ≤ s'.emptied) (turn : s'.turn = s.turn) (some : s.emptied ≤ s.filled)
    (same : ∀ k < s.filled, pushes'[k]? = pushes[k]?) : Fits s' slots pushes' data pc := by
  cases pc with
  | pushSeq item pos k => exact ⟨fits.1, fits.2.trans filled⟩
  | pushCas item pos k => exact ⟨fits.1, fits.2.1.trans filled, turn ▸ fits.2.2⟩
  | pushData item pos k =>
    obtain ⟨here, claimed, due, mine⟩ := fits
    exact ⟨here, claimed.trans_le filled, turn ▸ due, (same k claimed).trans mine⟩
  | pushTurn item pos k =>
    obtain ⟨here, claimed, due, mine, stored⟩ := fits
    exact ⟨here, claimed.trans_le filled, turn ▸ due, (same k claimed).trans mine, stored⟩
  | popSeq pos k => exact ⟨fits.1, fits.2.trans emptied⟩
  | popCas pos k => exact ⟨fits.1, fits.2.1.trans emptied, turn ▸ fits.2.2⟩
  | popData pos k => exact ⟨fits.1, fits.2.1.trans_le emptied, turn ▸ fits.2.2⟩
  | popTurn pos k out =>
    obtain ⟨here, claimed, due, read⟩ := fits
    exact ⟨here, claimed.trans_le emptied, turn ▸ due, read.trans (same k (by omega)).symm⟩
  | emptySeq pos k => exact ⟨fits.1, fits.2.trans emptied⟩
  | _ => trivial

theorem Fits.pass {slot next : Nat} (fits : Fits s slots pushes data pc) (later : s.turn slot ≤ next)
    (filler : ∀ k, pc.filling = some k → k % slots ≠ slot) (emptier : ∀ k, pc.emptying = some k → k % slots ≠ slot) :
    Fits (s.pass slot next) slots pushes data pc := by
  have grows := Turns.turn_le_pass later
  cases pc with
  | pushSeq item pos k => exact fits
  | pushCas item pos k => exact ⟨fits.1, fits.2.1, fits.2.2.trans (grows _)⟩
  | pushData item pos k =>
    obtain ⟨here, claimed, due, mine⟩ := fits
    exact ⟨here, claimed, (Turns.turn_pass_other s next (filler k rfl)).trans due, mine⟩
  | pushTurn item pos k =>
    obtain ⟨here, claimed, due, mine, stored⟩ := fits
    exact ⟨here, claimed, (Turns.turn_pass_other s next (filler k rfl)).trans due, mine, stored⟩
  | popSeq pos k => exact fits
  | popCas pos k => exact ⟨fits.1, fits.2.1, fits.2.2.trans (grows _)⟩
  | popData pos k => exact ⟨fits.1, fits.2.1, (Turns.turn_pass_other s next (emptier k rfl)).trans fits.2.2⟩
  | popTurn pos k out =>
    obtain ⟨here, claimed, due, read⟩ := fits
    exact ⟨here, claimed, (Turns.turn_pass_other s next (emptier k rfl)).trans due, read⟩
  | emptySeq pos k => exact fits
  | _ => trivial

theorem Fits.store {slot : Nat} (item : Option Item) (fits : Fits s slots pushes data pc)
    (filler : ∀ k, pc.filling = some k → k % slots ≠ slot) :
    Fits s slots pushes (Function.update data slot item) pc := by
  cases pc with
  | pushTurn own pos k =>
    obtain ⟨here, claimed, due, mine, stored⟩ := fits
    exact ⟨here, claimed, due, mine, (Function.update_of_ne (filler k rfl) item data).trans stored⟩
  | _ => exact fits

/-! ### One lemma for each act -/

theorem forall_update {α : Type} {P : α → Prop} {f : Nat → α} {t : Nat} {new : α} (mine : P new)
    (theirs : ∀ u, u ≠ t → P (f u)) (u : Nat) : P (Function.update f t new u) := by
  rw [Function.update_apply]
  split
  · exact mine
  · rename_i other
    exact theirs u other

namespace Threads

variable (threads : Threads st s slots)
include threads

variable {t u k j : Nat}

theorem filler_other (mine : (st.pc t).filling = some k) (other : u ≠ t) (theirs : (st.pc u).filling = some j) :
    j % slots ≠ k % slots := by
  intro same
  have here := (filling_fits (threads.fits t) mine).2
  have there := (filling_fits (threads.fits u) theirs).2
  rw [same] at there
  have : j = k := there.symm.trans here
  exact other (threads.fillers.apart u t k (this ▸ theirs) mine)

theorem emptier_other (mine : (st.pc t).emptying = some k) (other : u ≠ t) (theirs : (st.pc u).emptying = some j) :
    j % slots ≠ k % slots := by
  intro same
  have here := (emptying_fits (threads.fits t) mine).2
  have there := (emptying_fits (threads.fits u) theirs).2
  rw [same] at there
  have : j = k := by omega
  exact other (threads.emptiers.apart u t k (this ▸ theirs) mine)

theorem filler_emptier (several : 2 ≤ slots) (fills : (st.pc t).filling = some k)
    (empties : (st.pc u).emptying = some j) : j % slots ≠ k % slots := by
  intro same
  have here := (filling_fits (threads.fits t) fills).2
  have there := (emptying_fits (threads.fits u) empties).2
  rw [same] at there
  have : k = j + 1 := by omega
  exact Turns.succ_mod_ne several j (by rw [← this, same])

theorem moves {pc : Pc Item} (fits : Fits s slots st.pushes st.ring.data pc)
    (filling : pc.filling = (st.pc t).filling) (emptying : pc.emptying = (st.pc t).emptying) :
    Threads (st.goto t pc) s slots := by
  refine ⟨?_, ?_, ?_, threads.stored, threads.returned, threads.once, threads.left⟩
  · exact forall_update (P := Fits s slots st.pushes st.ring.data) fits fun u _ => threads.fits u
  · exact threads.fillers.stay filling
  · exact threads.emptiers.stay emptying

theorem claimsFill (sound : s.Sound slots) (length : s.filled = st.pushes.length) (item : Item)
    (filling : (st.pc t).filling = none) (emptying : (st.pc t).emptying = none)
    (due : s.turn (s.filled % slots) = s.filled) :
    Threads
      { st.goto t (.pushData item (word s.filled) s.filled) with
        ring := { st.ring with enqueuePos := word (s.filled + 1) }
        pushes := st.pushes ++ [item] }
      s.claimFill slots := by
  have same : ∀ k < s.filled, (st.pushes ++ [item])[k]? = st.pushes[k]? := by
    intro k claimed
    exact List.getElem?_append_left (by omega)
  refine ⟨?_, ?_, ?_, ?_, ?_, threads.once, threads.left⟩
  · refine forall_update (P := Fits s.claimFill slots (st.pushes ++ [item]) st.ring.data) ?_ fun u _ => ?_
    · exact ⟨rfl, Nat.lt_succ_self _, due, by simp [length]⟩
    · exact (threads.fits u).later (Nat.le_succ _) (Nat.le_refl _) rfl sound.ordered same
  · refine threads.fillers.arrive filling rfl ?_ ?_
    · intro u mine
      exact Nat.lt_irrefl _ (filling_fits (threads.fits u) mine).1
    · rintro k ⟨claimed, turn⟩
      exact (Nat.lt_succ_iff_lt_or_eq.mp claimed).imp_left fun before => ⟨before, turn⟩
  · exact threads.emptiers.stay emptying.symm
  · intro k claimed turn
    obtain before | rfl := Nat.lt_succ_iff_lt_or_eq.mp claimed
    · exact (threads.stored k before turn).trans (same k before).symm
    · exact absurd (due.symm.trans turn) (by omega)
  · intro r member
    obtain ⟨left, released, read⟩ := threads.returned r member
    have := sound.ordered
    exact ⟨left, released, read.trans (same r.1 (by omega)).symm⟩

theorem claimsEmpty (sound : s.Sound slots) (filling : (st.pc t).filling = none)
    (emptying : (st.pc t).emptying = none) (due : s.turn (s.emptied % slots) = s.emptied + 1) :
    Threads
      { st.goto t (.popData (word s.emptied) s.emptied) with
        ring := { st.ring with dequeuePos := word (s.emptied + 1) }
        pops := s.emptied + 1 }
      s.claimEmpty slots := by
  refine ⟨?_, ?_, ?_, threads.stored, ?_, threads.once, ?_⟩
  · refine forall_update (P := Fits s.claimEmpty slots st.pushes st.ring.data) ?_ fun u _ => ?_
    · exact ⟨rfl, Nat.lt_succ_self _, due⟩
    · exact (threads.fits u).later (Nat.le_refl _) (Nat.le_succ _) rfl sound.ordered fun _ _ => rfl
  · exact threads.fillers.stay filling.symm
  · refine threads.emptiers.arrive emptying rfl ?_ ?_
    · intro u mine
      exact Nat.lt_irrefl _ (emptying_fits (threads.fits u) mine).1
    · rintro k ⟨claimed, turn⟩
      exact (Nat.lt_succ_iff_lt_or_eq.mp claimed).imp_left fun before => ⟨before, turn⟩
  · intro r member
    obtain ⟨left, released, read⟩ := threads.returned r member
    exact ⟨Nat.lt_succ_of_lt left, released, read⟩
  · intro k claimed
    obtain before | rfl := Nat.lt_succ_iff_lt_or_eq.mp claimed
    · exact threads.left k before
    · exact Or.inl due

theorem stores (several : 2 ≤ slots) {item : Item} (here : st.pc t = .pushData item (word k) k) :
    Threads
      { st.goto t (.pushTurn item (word k) k) with
        ring := { st.ring with data := Function.update st.ring.data (k % slots) (some item) } }
      s slots := by
  have mine : (st.pc t).filling = some k := by
    rw [here]
    rfl
  have fits := threads.fits t
  rw [here] at fits
  obtain ⟨_, claimed, due, pushed⟩ := fits
  refine ⟨?_, ?_, ?_, ?_, threads.returned, threads.once, threads.left⟩
  · refine forall_update
      (P := Fits s slots st.pushes (Function.update st.ring.data (k % slots) (some item))) ?_ fun u other => ?_
    · exact ⟨rfl, claimed, due, pushed, Function.update_self _ _ _⟩
    · exact (threads.fits u).store _ fun j theirs => threads.filler_other mine other theirs
  · exact threads.fillers.stay mine.symm
  · refine threads.emptiers.stay ?_
    rw [here]
    rfl
  · intro j before turn
    have other : j % slots ≠ k % slots := by
      intro same
      rw [same, due] at turn
      subst turn
      exact Turns.succ_mod_ne several j same.symm
    exact (Function.update_of_ne other _ _).trans (threads.stored j before turn)

theorem fills (sound : s.Sound slots) {item : Item} (here : st.pc t = .pushTurn item (word k) k) :
    Threads
      { st.goto t (.done (.pushed 1)) with
        ring := { st.ring with seq := Function.update st.ring.seq (k % slots) (word (k + 1)) } }
      (s.pass (k % slots) (k + 1)) slots := by
  have mine : (st.pc t).filling = some k := by
    rw [here]
    rfl
  have fits := threads.fits t
  rw [here] at fits
  obtain ⟨_, claimed, due, pushed, stored⟩ := fits
  have later : s.turn (k % slots) ≤ k + 1 := by omega
  refine ⟨?_, ?_, ?_, ?_, ?_, threads.once, ?_⟩
  · refine forall_update (P := Fits (s.pass (k % slots) (k + 1)) slots st.pushes st.ring.data) trivial
      fun u other => ?_
    refine (threads.fits u).pass later ?_ ?_
    · exact fun j theirs => threads.filler_other mine other theirs
    · exact fun j theirs => threads.filler_emptier sound.several mine theirs
  · refine threads.fillers.leave mine rfl ?_
    rintro j ⟨before, turn⟩
    obtain ⟨old, other⟩ | ⟨rfl, same⟩ := Turns.turn_pass_eq turn
    · refine ⟨⟨before, old⟩, ?_⟩
      rintro rfl
      exact other rfl
    · exact absurd same (Turns.succ_mod_ne sound.several k)
  · refine (threads.emptiers.stay ?_).mono ?_
    · rw [here]
      rfl
    · rintro j ⟨before, turn⟩
      obtain ⟨old, -⟩ | ⟨next, same⟩ := Turns.turn_pass_eq turn
      · exact ⟨before, old⟩
      · -- nothing has emptied what is only now filled
        have := sound.emptied_le_of_turn due
        exact absurd (show j < s.emptied from before) (by omega)
  · intro j before turn
    obtain ⟨old, -⟩ | ⟨next, same⟩ := Turns.turn_pass_eq turn
    · exact threads.stored j before old
    · obtain rfl : j = k := by omega
      exact stored.trans pushed.symm
  · intro r member
    obtain ⟨left, released, read⟩ := threads.returned r member
    exact ⟨left, released.trans (Turns.turn_le_pass later _), read⟩
  · intro j before
    refine (threads.left j before).imp_left fun turn => ?_
    have other : j % slots ≠ k % slots := by
      intro same
      rw [same, due] at turn
      subst turn
      exact Turns.succ_mod_ne sound.several j same.symm
    exact (Turns.turn_pass_other s _ other).trans turn

theorem empties (sound : s.Sound slots) {out : Option Item} (here : st.pc t = .popTurn (word k) k out) :
    Threads
      { st.goto t (.done (.popped 1 out)) with
        ring :=
          { st.ring with seq := Function.update st.ring.seq (k % slots) (word (k + slots)) }
        returned := st.returned ++ [(k, out)] }
      (s.pass (k % slots) (k + slots)) slots := by
  have several := sound.several
  have mine : (st.pc t).emptying = some k := by
    rw [here]
    rfl
  have fits := threads.fits t
  rw [here] at fits
  obtain ⟨_, claimed, due, read⟩ := fits
  have later : s.turn (k % slots) ≤ k + slots := by omega
  have different : ∀ j, j % slots = k % slots → j + 1 ≠ k + slots := by
    intro j same next
    refine Turns.succ_mod_ne several j ?_
    rw [next, Nat.add_mod_right, same]
  refine ⟨?_, ?_, ?_, ?_, ?_, ?_, ?_⟩
  · refine forall_update (P := Fits (s.pass (k % slots) (k + slots)) slots st.pushes st.ring.data) trivial
      fun u other => ?_
    refine (threads.fits u).pass later ?_ ?_
    · exact fun j theirs => (threads.filler_emptier several theirs mine).symm
    · exact fun j theirs => threads.emptier_other mine other theirs
  · refine (threads.fillers.stay ?_).mono ?_
    · rw [here]
      rfl
    · rintro j ⟨before, turn⟩
      obtain ⟨old, -⟩ | ⟨rfl, same⟩ := Turns.turn_pass_eq turn
      · exact ⟨before, old⟩
      · -- the next round has not come to the slot
        have := sound.filled_le_of_turn due
        exact absurd (show k + slots < s.filled from before) (by omega)
  · refine threads.emptiers.leave mine rfl ?_
    rintro j ⟨before, turn⟩
    obtain ⟨old, other⟩ | ⟨next, same⟩ := Turns.turn_pass_eq turn
    · refine ⟨⟨before, old⟩, ?_⟩
      rintro rfl
      exact other rfl
    · exact absurd next (different j same)
  · intro j before turn
    obtain ⟨old, -⟩ | ⟨next, same⟩ := Turns.turn_pass_eq turn
    · exact threads.stored j before old
    · exact absurd next (different j same)
  · intro r member
    obtain member | member := List.mem_append.mp member
    · obtain ⟨left, released, read⟩ := threads.returned r member
      exact ⟨left, released.trans (Turns.turn_le_pass later _), read⟩
    · obtain rfl := List.mem_singleton.mp member
      refine ⟨claimed, ?_, read⟩
      rw [Turns.turn_pass_self]
      show k + 2 ≤ k + slots
      omega
  · rw [List.map_append, List.map_singleton]
    refine List.Nodup.append threads.once (List.nodup_singleton k) ?_
    rintro j before now
    obtain rfl := List.mem_singleton.mp now
    obtain ⟨r, member, rfl⟩ := List.mem_map.mp before
    have := (threads.returned r member).2.1
    omega
  · intro j before
    rw [List.map_append, List.mem_append]
    obtain turn | given := threads.left j before
    · by_cases same : j % slots = k % slots
      · rw [same, due] at turn
        obtain rfl : j = k := by omega
        exact Or.inr (Or.inr (List.mem_singleton_self _))
      · exact Or.inl ((Turns.turn_pass_other s _ same).trans turn)
    · exact Or.inr (Or.inl given)

end Threads

theorem Kept.acts (kept : Kept st s) (act : Acts st s st' s') : Kept st' s' := by
  obtain ⟨words, sound, threads⟩ := kept
  have inside : ∀ k, k % st.ring.capacity < st.ring.capacity := fun k =>
    Nat.mod_lt k (by have := sound.several; omega)
  have passed : ∀ k next, ∀ i < st.ring.capacity,
      Function.update st.ring.seq (k % st.ring.capacity) (word next) i =
        word ((s.pass (k % st.ring.capacity) next).turn i) := by
    intro k next i small
    by_cases this : i = k % st.ring.capacity
    · rw [this, Function.update_self, Turns.turn_pass_self]
    · rw [Function.update_of_ne this, Turns.turn_pass_other s next this]
      exact words.seq i small
  obtain ⟨shaped, filled, emptied, enqueuePos, dequeuePos, seq⟩ := words
  cases act with
  | moves t pc fits filling emptying =>
    exact ⟨⟨shaped, filled, emptied, enqueuePos, dequeuePos, seq⟩, sound, threads.moves fits filling emptying⟩
  | claimsFill t item filling emptying due =>
    refine ⟨⟨⟨shaped.several, shaped.small, shaped.power, shaped.mask⟩, ?_, emptied, rfl, dequeuePos, seq⟩,
      sound.claimFill due, threads.claimsFill sound filled item filling emptying due⟩
    simp [Turns.claimFill, filled]
  | claimsEmpty t filling emptying due =>
    exact ⟨⟨⟨shaped.several, shaped.small, shaped.power, shaped.mask⟩, filled, rfl, enqueuePos, rfl, seq⟩,
      sound.claimEmpty due, threads.claimsEmpty sound filling emptying due⟩
  | stores t k item here =>
    exact ⟨⟨⟨shaped.several, shaped.small, shaped.power, shaped.mask⟩, filled, emptied, enqueuePos, dequeuePos, seq⟩,
      sound, threads.stores sound.several here⟩
  | fills t k item here =>
    have fits := threads.fits t
    rw [here] at fits
    exact ⟨⟨⟨shaped.several, shaped.small, shaped.power, shaped.mask⟩, filled, emptied, enqueuePos, dequeuePos,
      passed k (k + 1)⟩, sound.fill fits.2.1 fits.2.2.1, threads.fills sound here⟩
  | empties t k out here =>
    have fits := threads.fits t
    rw [here] at fits
    exact ⟨⟨⟨shaped.several, shaped.small, shaped.power, shaped.mask⟩, filled, emptied, enqueuePos, dequeuePos,
      passed k (k + st.ring.capacity)⟩, sound.empty fits.2.1 fits.2.2.1, threads.empties sound here⟩

theorem Acts.capacity (act : Acts st s st' s') : st'.ring.capacity = st.ring.capacity := by
  cases act <;> rfl

theorem kept_of_run {capacity : Nat} {r : Ring Item} (made : ringbufNew capacity = some r) {labels : List (Label Item)}
    (run : (machine.restrict Prompt).Run (initial r) labels st) : ∃ s, Kept st s ∧ st.ring.capacity = capacity := by
  refine @Machine.Run.invariant _ _ _ (fun st => ∃ s, Kept st s ∧ st.ring.capacity = capacity) ?_ _ _ _ run ?_
  · rintro st label next ⟨s, kept, same⟩ ⟨prompt, taken⟩
    obtain ⟨s', act⟩ := kept.step_acts prompt taken
    exact ⟨s', kept.acts act, act.capacity.trans same⟩
  · obtain ⟨shaped, same, enqueuePos, dequeuePos, seq⟩ := shaped_of_new made
    have small := shaped.small
    refine ⟨Turns.initial, ⟨⟨shaped, rfl, rfl, enqueuePos, dequeuePos, ?_⟩, Turns.initial_sound shaped.several, ?_⟩, same⟩
    · intro i inside
      have fits : i < r.capacity := inside
      show r.seq i = word i
      rw [seq]
      exact (Nat.mod_eq_of_lt (show i < wordSize by omega)).symm
    · refine ⟨fun _ => trivial, ⟨?_, ?_⟩, ⟨?_, ?_⟩, ?_, ?_, List.nodup_nil, ?_⟩
      · rintro t u k ⟨⟩
      · rintro k ⟨claimed, -⟩
        cases claimed
      · rintro t u k ⟨⟩
      · rintro k ⟨claimed, -⟩
        cases claimed
      · intro k claimed
        cases claimed
      · rintro r ⟨⟩
      · rintro k ⟨⟩

end CognitiveOs.Infra.Ringbuf
