import CognitiveOs.Context.Mmu.Recall
import CognitiveOs.Foundation.Slots

/-!
# The budget of tokens

What the pages charge against the counter, through every promotion, eviction and drop.
-/

namespace CognitiveOs.Context

open Foundation Foundation.Slots Infra Memory.Gate Memory.Records

/-! ### Charges -/

variable {m : Mmu} {i : Nat} {pg : Page} {used : UInt64}

def charge (pg : Page) : Nat :=
  (pageTokens pg).toNat

def charged (pages : List Page) : Nat :=
  (pages.map charge).sum

structure Page.Tidy (pg : Page) : Prop where
  cold : pg.residency = .cold → ∀ level, pg.repr level = none ∧ pg.tok level = 0
  warm : pg.residency = .warm → pg.repr .l2 = none

structure Accounted (m : Mmu) : Prop where
  used : m.tokenUsed.toNat = charged m.pages
  tidy : ∀ pg ∈ m.pages, pg.Tidy

theorem Accounted.charge_le (accounted : Accounted m) (here : m.pages[i]? = some pg) :
    charge pg ≤ m.tokenUsed.toNat := by
  rw [accounted.used]
  exact weight_le_sum charge (List.mem_of_getElem? here)

theorem Accounted.set (accounted : Accounted m) {pg' : Page} (here : m.pages[i]? = some pg) (tidy : pg'.Tidy)
    (moved : used.toNat + charge pg = m.tokenUsed.toNat + charge pg') :
    Accounted { m with pages := m.pages.set i pg', tokenUsed := used } where
  used := by
    have same := sum_set charge here pg'
    have before := accounted.used
    unfold charged at before ⊢
    simp only
    omega
  tidy := by
    intro page member
    rcases List.mem_or_eq_of_mem_set member with member | rfl
    · exact accounted.tidy page member
    · exact tidy

theorem Page.chill_tidy (pg : Page) : pg.chill.Tidy where
  cold := fun _ _ => ⟨rfl, rfl⟩
  warm := fun _ => rfl

theorem toNat_sub_charge (enough : charge pg ≤ used.toNat) :
    (used - (pageTokens pg).toUInt64).toNat + charge pg = used.toNat := by
  have within : (pageTokens pg).toUInt64 ≤ used := by
    rw [UInt64.le_iff_toNat_le, UInt32.toNat_toUInt64]
    exact enough
  rw [UInt64.toNat_sub_of_le _ _ within, UInt32.toNat_toUInt64]
  exact Nat.sub_add_cancel enough

/-! ### Eviction -/

variable {pages : List Page}

theorem worstFrom_some {worst : Option (Nat × Page)} {j : Nat} (found : worstFrom m worst i pages = some (j, pg)) :
    worst = some (j, pg) ∨ ∃ k, j = i + k ∧ pages[k]? = some pg ∧ evictable pg := by
  induction pages generalizing worst i with
  | nil => exact .inl found
  | cons page pages ih =>
    unfold worstFrom at found
    rcases ih found with early | ⟨k, rfl, here, free⟩
    · split at early
      · rename_i lower
        cases early
        exact .inr ⟨0, rfl, rfl, lower.1⟩
      · exact .inl early
    · exact .inr ⟨k + 1, by omega, here, free⟩

theorem worstFrom_none {worst : Option (Nat × Page)} (found : worstFrom m worst i pages = none) :
    worst = none ∧ ∀ pg ∈ pages, evictable pg = false := by
  induction pages generalizing worst i with
  | nil =>
    refine ⟨found, ?_⟩
    intro pg member
    cases member
  | cons page pages ih =>
    unfold worstFrom at found
    obtain ⟨early, rest⟩ := ih found
    split at early
    · cases early
    · rename_i kept
      subst early
      refine ⟨rfl, List.forall_mem_cons.mpr ⟨?_, rest⟩⟩
      by_contra free
      apply kept
      refine ⟨Bool.eq_true_of_not_eq_false free, ?_⟩
      intro w member
      cases member

def Settled (m : Mmu) : Prop :=
  m.tokenUsed ≤ m.tokenBudget ∨ ∀ pg ∈ m.pages, pg.residency ≠ .cold → pg.pinned

theorem evictRounds_accounted {rounds : Nat} (accounted : Accounted m) : Accounted (evictRounds rounds m) := by
  induction rounds generalizing m with
  | zero => exact accounted
  | succ rounds ih =>
    unfold evictRounds
    split
    · exact accounted
    · split
      · exact accounted
      · rename_i i pg found
        have here : m.pages[i]? = some pg := by
          rcases worstFrom_some found with none | ⟨k, rfl, here, _⟩
          · cases none
          · rw [Nat.zero_add]
            exact here
        refine ih (accounted.set here pg.chill_tidy ?_)
        rw [toNat_sub_charge (accounted.charge_le here)]
        rfl

theorem evictRounds_settled {rounds : Nat} (enough : (m.pages.map fun pg => (evictable pg).toNat).sum < rounds) :
    Settled (evictRounds rounds m) := by
  induction rounds generalizing m with
  | zero => exact absurd enough (Nat.not_lt_zero _)
  | succ rounds ih =>
    unfold evictRounds
    split
    · rename_i fits
      exact .inl fits
    · split
      · rename_i found
        refine .inr ?_
        intro pg member resident
        have stuck := (worstFrom_none found).2 pg member
        simpa [evictable, resident] using stuck
      · rename_i i pg found
        rcases worstFrom_some found with none | ⟨k, rfl, here, free⟩
        · cases none
        · rw [Nat.zero_add]
          apply ih
          have same := sum_set (fun pg => (evictable pg).toNat) here pg.chill
          have gone : evictable pg.chill = false := by
            simp [evictable, Page.chill]
          simp only [free, gone, Bool.toNat_true, Bool.toNat_false] at same ⊢
          omega

theorem evictToBudget_settled (m : Mmu) : Settled (evictToBudget m) := by
  apply evictRounds_settled
  have bound : (m.pages.map fun pg => (evictable pg).toNat).sum ≤ m.pages.length := by
    induction m.pages with
    | nil => rfl
    | cons pg pages ih =>
      have one := (evictable pg).toNat_le
      rw [List.map_cons, List.sum_cons, List.length_cons]
      omega
  omega

/-! ### Promotion -/

variable {s : Records}

theorem materialize_tok (pg : Page) (r : MemRecord) (level : Level) :
    (materialize pg r level).1.tok level = (materialize pg r level).2 := by
  unfold materialize
  split
  · rfl
  · exact Function.update_self ..

theorem materialize_residency (pg : Page) (r : MemRecord) (level : Level) :
    (materialize pg r level).1.residency = pg.residency := by
  unfold materialize
  split
  · rfl
  · rfl

theorem materialize_other (pg : Page) (r : MemRecord) {level other : Level} (apart : other ≠ level) :
    (materialize pg r level).1.repr other = pg.repr other ∧ (materialize pg r level).1.tok other = pg.tok other := by
  unfold materialize
  split
  · exact ⟨rfl, rfl⟩
  · exact ⟨Function.update_of_ne apart .., Function.update_of_ne apart ..⟩

theorem release_self (pg : Page) (level : Level) : (pg.release level).repr level = none ∧ (pg.release level).tok level = 0 := by
  simp [Page.release]

theorem release_other (pg : Page) {level other : Level} (apart : other ≠ level) :
    (pg.release level).repr other = pg.repr other ∧ (pg.release level).tok other = pg.tok other := by
  simp [Page.release, apart]

theorem warm_accounted (accounted : Accounted m) (here : m.pages[i]? = some pg) (cold : pg.residency = .cold)
    (r : MemRecord) : Accounted (warm m i pg r) := by
  have empty := (accounted.tidy pg (List.mem_of_getElem? here)).cold cold
  have free : charge pg = 0 := by
    unfold charge pageTokens
    rw [cold]
    rfl
  have tok := materialize_tok pg r .l1
  have stays := materialize_residency pg r .l1
  unfold warm
  dsimp only
  split
  · -- the overview is given back, so the page is as empty as before
    refine accounted.set here ⟨?_, ?_⟩ ?_
    · intro _ level
      by_cases first : level = .l1
      · subst first
        exact release_self _ _
      · obtain ⟨repr, tok⟩ := materialize_other pg r first
        obtain ⟨repr', tok'⟩ := release_other (materialize pg r .l1).1 first
        exact ⟨repr'.trans (repr.trans (empty level).1), tok'.trans (tok.trans (empty level).2)⟩
    · intro isWarm
      rw [show ((materialize pg r .l1).1.release .l1).residency = pg.residency from stays, cold] at isWarm
      cases isWarm
    · have nothing : charge ((materialize pg r .l1).1.release .l1) = 0 := by
        unfold charge pageTokens
        rw [show ((materialize pg r .l1).1.release .l1).residency = .cold from stays.trans cold]
        rfl
      rw [free, nothing]
  · rename_i fits
    rw [not_or, UInt64.not_lt, UInt64.not_lt, UInt64.le_iff_toNat_le, UInt64.le_iff_toNat_le] at fits
    rw [UInt64.toNat_sub_of_le _ _ (UInt64.le_iff_toNat_le.mpr fits.1), UInt32.toNat_toUInt64] at fits
    refine accounted.set here ⟨?_, ?_⟩ ?_
    · intro isCold
      cases isCold
    · intro _
      exact (materialize_other pg r (by decide)).1.trans (empty .l2).1
    · have charged : charge { (materialize pg r .l1).1 with residency := .warm } = (materialize pg r .l1).2.toNat :=
        congrArg UInt32.toNat tok
      have small := m.tokenBudget.toNat_lt
      rw [free, charged, UInt64.toNat_add, UInt32.toNat_toUInt64, Nat.mod_eq_of_lt (by omega)]
      rfl

theorem promoteWarm_accounted {order : List (Nat × ℚ)} (accounted : Accounted m) :
    Accounted (promoteWarm s order m) := by
  induction order generalizing m with
  | nil => exact accounted
  | cons entry order ih =>
    obtain ⟨i, score⟩ := entry
    unfold promoteWarm
    split
    · exact ih accounted
    · rename_i pg here
      split
      · exact ih accounted
      · rename_i cold
        split
        · exact accounted
        · split
          · exact ih accounted
          · exact ih (warm_accounted accounted here (not_not.mp cold) _)

theorem tokenEstimate_le (s : Text) : (tokenEstimate s).toNat ≤ (UInt64.ofNat ((s.length + 3) / 4)).toNat := by
  unfold tokenEstimate
  rw [UInt32.toNat_ofNat', UInt64.toNat_ofNat']
  omega

theorem heat_accounted {now : Int64} (accounted : Accounted m) (here : m.pages[i]? = some pg)
    (isWarm : pg.residency = .warm) (r : MemRecord) : Accounted (heat now m s i pg r).1 := by
  have enough := accounted.charge_le here
  have charges : charge pg = (pg.tok .l1).toNat := by
    unfold charge pageTokens
    rw [isWarm]
  unfold heat
  dsimp only
  split
  · refine accounted.set here ⟨?_, ?_⟩ ?_
    · intro isCold
      rw [show (pg.release .l2).residency = pg.residency from rfl, isWarm] at isCold
      cases isCold
    · intro _
      exact (release_self pg .l2).1
    · have same : charge (pg.release .l2) = charge pg := by
        rw [charges]
        unfold charge pageTokens
        rw [show (pg.release .l2).residency = .warm from isWarm]
        rfl
      rw [same]
  · rename_i fits
    have within : (pg.tok .l1).toUInt64 ≤ m.tokenUsed := by
      rw [UInt64.le_iff_toNat_le, UInt32.toNat_toUInt64]
      omega
    rw [not_or, UInt64.not_lt, UInt64.not_lt, UInt64.le_iff_toNat_le, UInt64.le_iff_toNat_le] at fits
    rw [UInt64.toNat_sub_of_le _ _ (UInt64.le_iff_toNat_le.mpr fits.1), UInt64.toNat_sub_of_le _ _ within,
      UInt32.toNat_toUInt64] at fits
    have fresh : (materialize pg r .l2).2 = tokenEstimate r.content := by
      have none := (accounted.tidy pg (List.mem_of_getElem? here)).warm isWarm
      unfold materialize
      rw [none]
      rfl
    have small := tokenEstimate_le r.content
    have old : (materialize pg r .l2).1.tok .l1 = pg.tok .l1 := (materialize_other pg r (by decide)).2
    have room := m.tokenBudget.toNat_lt
    rw [old, fresh]
    split
    · -- after the first test the second never fails
      rename_i tooLarge
      rw [UInt64.lt_iff_toNat_lt, UInt64.toNat_add, UInt64.toNat_sub_of_le _ _ within, UInt32.toNat_toUInt64,
        UInt32.toNat_toUInt64, Nat.mod_eq_of_lt (by omega)] at tooLarge
      omega
    · refine accounted.set here ⟨?_, ?_⟩ ?_
      · intro isCold
        cases isCold
      · intro stillWarm
        cases stillWarm
      · have charged : ∀ count now',
            charge { (materialize pg r .l2).1 with residency := .hot, accessCount := count, lastAccessMs := now' } =
              (tokenEstimate r.content).toNat := by
          intro count now'
          rw [← fresh]
          exact congrArg UInt32.toNat (materialize_tok pg r .l2)
        have order : m.tokenUsed + (tokenEstimate r.content).toUInt64 - (pg.tok .l1).toUInt64 =
            m.tokenUsed - (pg.tok .l1).toUInt64 + (tokenEstimate r.content).toUInt64 := by
          grind
        rw [order, UInt64.toNat_add, UInt64.toNat_sub_of_le _ _ within, UInt32.toNat_toUInt64, UInt32.toNat_toUInt64,
          Nat.mod_eq_of_lt (by omega), charged]
        omega

theorem promoteHot_accounted {now : Int64} {order : List (Nat × ℚ)} {left : Nat} (accounted : Accounted m) :
    Accounted (promoteHot now order left m s).1 := by
  induction order generalizing left m s with
  | nil => exact accounted
  | cons entry order ih =>
    obtain ⟨i, score⟩ := entry
    unfold promoteHot
    split
    · exact accounted
    · split
      · exact ih accounted
      · rename_i pg here
        split
        · exact ih accounted
        · rename_i isWarm
          split
          · exact ih accounted
          · exact ih (heat_accounted accounted here (not_not.mp isWarm) _)

/-! ### The records behind the pages -/

theorem newPage_tidy (id : Text) : (newPage id).Tidy where
  cold := fun _ _ => ⟨rfl, rfl⟩
  warm := fun _ => rfl

theorem pageGet_accounted (accounted : Accounted m) (id : Text) :
    Accounted { m with pages := (pageGet m.pages id).1 } := by
  unfold pageGet
  split
  · exact accounted
  · constructor
    · have free : charge (newPage id) = 0 := rfl
      have before := accounted.used
      unfold charged at before ⊢
      rw [List.map_append, List.sum_append, List.map_singleton, List.sum_singleton, free]
      exact before
    · intro pg member
      rcases List.mem_append.mp member with member | member
      · exact accounted.tidy pg member
      · rw [List.mem_singleton.mp member]
        exact newPage_tidy id

theorem attributed_charge (r : MemRecord) (pg : Page) : charge (attributed r pg) = charge pg :=
  rfl

theorem syncRecord_accounted (f : Floats) (accounted : Accounted m) (r : MemRecord) : Accounted (syncRecord f m r) := by
  have got := pageGet_accounted accounted r.id.text
  unfold syncRecord
  split
  · exact accounted
  · dsimp only
    split
    · exact accounted
    · rename_i pg here
      have enough := got.charge_le here
      have tidy := got.tidy pg (List.mem_of_getElem? here)
      refine got.set here ?_ ?_
      · unfold revised
        split
        · exact ⟨fun _ _ => ⟨rfl, rfl⟩, fun _ => rfl⟩
        · exact ⟨tidy.cold, tidy.warm⟩
      · rw [attributed_charge]
        unfold revised
        split
        · rw [toNat_sub_charge enough]
          rfl
        · rfl

theorem dropPages_charged (s : Records) (enough : charged pages ≤ used.toNat) :
    (dropPages s used pages).2.toNat + charged pages = used.toNat + charged (dropPages s used pages).1 := by
  induction pages generalizing used with
  | nil => rfl
  | cons pg pages ih =>
    have parts : charged (pg :: pages) = charge pg + charged pages := rfl
    unfold dropPages
    split
    · have rest := ih (show charged pages ≤ used.toNat by omega)
      have parts' : charged (pg :: (dropPages s used pages).1) = charge pg + charged (dropPages s used pages).1 := rfl
      simp only
      omega
    · have less := toNat_sub_charge (show charge pg ≤ used.toNat by omega)
      have rest := ih (show charged pages ≤ (used - (pageTokens pg).toUInt64).toNat by omega)
      omega

theorem syncPages_accounted (f : Floats) (accounted : Accounted m) (s : Records) : Accounted (syncPages f m s) := by
  have synced : Accounted (s.items.foldl (syncRecord f) m) := by
    induction s.items generalizing m with
    | nil => exact accounted
    | cons r items ih => exact ih (syncRecord_accounted f accounted r)
  have moved := dropPages_charged s synced.used.ge
  have before := synced.used
  unfold syncPages
  constructor
  · simp only
    omega
  · intro pg member
    simp only [dropPages_fst] at member
    exact synced.tidy pg (List.mem_filter.mp member).1

theorem Accounted.map (accounted : Accounted m) {change : Page → Page} (budget : UInt64)
    (kept : ∀ pg, (change pg).residency = pg.residency ∧ (change pg).repr = pg.repr ∧ (change pg).tok = pg.tok) :
    Accounted { m with pages := m.pages.map change, tokenBudget := budget } where
  used := by
    have same : ∀ pg, charge (change pg) = charge pg := by
      intro pg
      obtain ⟨residency, _, tok⟩ := kept pg
      unfold charge pageTokens
      rw [residency, tok]
    unfold charged
    rw [List.map_map, accounted.used]
    exact congrArg List.sum (List.map_congr_left fun pg _ => (same pg).symm)
  tidy := by
    intro pg member
    obtain ⟨old, inside, rfl⟩ := List.mem_map.mp member
    obtain ⟨residency, repr, tok⟩ := kept old
    have tidy := accounted.tidy old inside
    constructor
    · rw [residency, repr, tok]
      exact tidy.cold
    · rw [residency, repr]
      exact tidy.warm

/-! ### Runs -/

variable {st : State}

theorem prepared_accounted (f : Floats) (call : Call) (accounted : Accounted st.mmu) :
    Accounted (prepared f call st) := by
  have budgeted : Accounted
      (if 0 < call.config.tokenBudget then { st.mmu with tokenBudget := call.config.tokenBudget } else st.mmu) := by
    split
    · exact ⟨accounted.used, accounted.tidy⟩
    · exact accounted
  have synced := syncPages_accounted f budgeted st.store
  unfold prepared
  dsimp only
  split
  · exact synced
  · exact synced.map _ fun _ => ⟨rfl, rfl, rfl⟩

theorem recall_accounted (f : Floats) (call : Call) (accounted : Accounted st.mmu) :
    Accounted (mmuRecall f call st).1.mmu := by
  unfold mmuRecall
  dsimp only
  apply evictRounds_accounted
  apply promoteHot_accounted
  apply evictRounds_accounted
  apply promoteWarm_accounted
  exact prepared_accounted f call accounted

theorem pin_accounted (accounted : Accounted m) (id : Text) (pinned : Bool) : Accounted (pin m id pinned) := by
  unfold pin
  split
  · exact accounted
  · rename_i i found
    have within := (List.findIdx?_eq_some_iff_getElem.mp found).1
    have here : m.pages[i]? = some m.pages[i] := List.getElem?_eq_getElem within
    have tidy := accounted.tidy _ (List.getElem_mem within)
    have tidy' : ({ m.pages[i] with pinned := pinned } : Page).Tidy := ⟨tidy.cold, tidy.warm⟩
    rw [List.modify_eq_set_getElem?, here]
    change Accounted { m with pages := m.pages.set i { m.pages[i] with pinned := pinned } }
    exact accounted.set here tidy' rfl

theorem step_accounted (f : Floats) (accounted : Accounted st.mmu) (label : Label) :
    Accounted (step f st label).mmu := by
  cases label with
  | query call => exact recall_accounted f call accounted
  | pin id pinned => exact pin_accounted accounted id pinned
  | configure cfg =>
    change Accounted (setConfig st.mmu cfg)
    unfold setConfig
    split
    · exact ⟨accounted.used, accounted.tidy⟩
    · exact accounted
  | edit store => exact accounted

theorem accounted_of_run {f : Floats} {store : Records} {labels : List Label}
    (run : (machine f).Run (start store) labels st) : Accounted st.mmu := by
  refine @Machine.Run.invariant _ _ _ (fun st => Accounted st.mmu) ?_ _ _ _ run ⟨rfl, ?_⟩
  · rintro st label next accounted rfl
    exact step_accounted f accounted label
  · intro pg member
    cases member

/-- In every state of every run the counter is the sum of what the resident pages charge, a cold
page holds no text, and after a recall the pages fit the budget or only pinned ones are resident. -/
theorem budget_of_run {f : Floats} {store : Records} {labels : List Label} {st : State}
    (run : (machine f).Run (start store) labels st) :
    st.mmu.tokenUsed.toNat = charged st.mmu.pages ∧
      (∀ pg ∈ st.mmu.pages, pg.residency = .cold → ∀ level, pg.repr level = none ∧ pg.tok level = 0) ∧
      ∀ call, Settled (mmuRecall f call st).1.mmu := by
  have accounted := accounted_of_run run
  refine ⟨accounted.used, ?_, ?_⟩
  · intro pg member
    exact (accounted.tidy pg member).cold
  · intro call
    exact evictToBudget_settled _

/-! ### A first recall -/

def plainFloats : Floats where
  exp2 := fun _ => 1
  bytes := fun x => fixed3 x

def oneLesson (scope : String) : Records where
  items := [{ blankRecord with id := Field.copy (ascii "mem_1"), scope := Field.copy (ascii scope), content := ascii "c" }]
  distinct := List.nodup_singleton _

def callFor (scope : String) : Call where
  cfg := some { Config.default with scope := some (ascii scope) }
  answer := none
  clock := 1

theorem budget_of_lesson :
    (step plainFloats (start (oneLesson "s")) (.query (callFor "s"))).mmu.tokenUsed.toNat =
        charged (step plainFloats (start (oneLesson "s")) (.query (callFor "s"))).mmu.pages ∧
      (∀ pg ∈ (step plainFloats (start (oneLesson "s")) (.query (callFor "s"))).mmu.pages, pg.residency = .cold →
        ∀ level, pg.repr level = none ∧ pg.tok level = 0) ∧
      ∀ call, Settled
        (mmuRecall plainFloats call (step plainFloats (start (oneLesson "s")) (.query (callFor "s")))).1.mmu :=
  budget_of_run (Machine.Run.single rfl)

end CognitiveOs.Context
