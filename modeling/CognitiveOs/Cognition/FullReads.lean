import CognitiveOs.Cognition.Act
import CognitiveOs.Cognition.FilePages
import CognitiveOs.Foundation.Cover
import CognitiveOs.Foundation.Machine

/-!
# Full reads

Successful `file_read` actions and changes of the files, in any order. A file counts as read in
full when its pages since its last change lead from its start to its end.
-/

namespace CognitiveOs.Cognition

open Foundation Foundation.Cover Infra Os Transactions

/-- What the loop sees of an output: a line of a transaction, or the repaired output. -/
def seen (buffer : Option TxOutput) (out : Text) : Text :=
  snprintf 240 <|
    match buffer with
    | some t => (txAppendOutput t (ascii "file_read") out).text.drop t.text.length
    | none => strUtf8Sanitize out

structure Reader where
  world : World
  pages : List PageEntry := []
  reads : Reads := {}

inductive ReadLabel where
  | change (world : World)
  /-- A run of the agent starts; the page cache stays. -/
  | start
  /-- `other` is the output that is no page, `kept` what stays in the page cache. -/
  | read (args : Option Json) (buffer : Option TxOutput) (other : Text) (kept : PageEntry → Bool)

/-- The file with its pages since the last change, and the versions it has had. -/
structure TracedReads where
  now : Reader
  log : List (Nat × Nat) := []
  versions : List UInt64 := []

variable (workspace session file : Text)

def Reader.record (r : Reader) (args : Option Json) (buffer : Option TxOutput) (out : Text)
    (pages : List PageEntry) : Reader :=
  { r with
    reads := recordReadPage workspace r.world r.reads args (seen buffer out)
    pages }

def isNamed (w : World) (args : Option Json) : Bool :=
  (argString args "path").any fun path => normalizedEvidencePath workspace w path 2048 = file

def readStep (s : TracedReads) : ReadLabel → Option TracedReads
  | .change w =>
    let same := s.now.world.stat file = w.stat file ∧ s.now.world.bytes file = w.bytes file
    some
      { now := { s.now with world := w }
        log := if same then s.log else []
        versions := s.now.world.fsFileVersion file :: s.versions }
  | .start => some { s with now := { s.now with reads := {} }, log := [] }
  | .read args buffer other kept =>
    match fileRead workspace session s.now.world s.now.pages args with
    | .failed => none
    | .listing | .image =>
      some { s with now := s.now.record workspace args buffer other (s.now.pages.filter kept) }
    | .page p pages =>
      some
        { s with
          now := s.now.record workspace args buffer p.output (pages.filter kept)
          log := if isNamed workspace file s.now.world args then s.log ++ [(p.offset, p.next)] else s.log }

def readsOf : Machine TracedReads ReadLabel :=
  Machine.ofPartial (readStep workspace session file)

def ReadInFull (s : TracedReads) : Prop :=
  ∃ bytes, s.now.world.bytes file = some bytes ∧ Covers 0 bytes.length s.log

def Page.behind (p : Page) (buffer : Option TxOutput) : Text :=
  (seen buffer p.output).drop ((if buffer.isSome then 12 else 0) + p.header.length)

/-- The next page of a file that is not read in full arrives as it is, and there is room for it. -/
structure Arrives (s : TracedReads) (args : Option Json) (buffer : Option TxOutput) (p : Page) : Prop where
  line : ∀ t ∈ buffer, (txAppendOutput t (ascii "file_read") p.output).text =
    t.text ++ outputLine (ascii "file_read") p.output
  ending : p.headed = true → p.offset ≤ reach 0 s.log → p.hasMore = false →
    strstr (ascii "more available") (p.behind buffer) = none
  header : p.headed = false → ∀ h ∈ pageHeader (seen buffer p.output), h.first ≤ reach 0 s.log ∧ h.more = false
  closes : p.offset ≤ reach 0 s.log → p.hasMore = false → (s.now.reads.otherCompleted file).length < 128
  opens : pageHeader (seen buffer p.output) ≠ none → (s.now.reads.otherPending file).length < 128

def Readable (w : World) : Prop :=
  (w.bytes file).isSome → w.fsFileVersion file ≠ 0 ∧ w.fsIsDir file = false

def CarefulRead (s : TracedReads) : ReadLabel → Prop
  | .change w => Readable file w ∧
      ((s.now.world.stat file = w.stat file ∧ s.now.world.bytes file = w.bytes file) ∨
        w.fsFileVersion file = 0 ∨
        w.fsFileVersion file ∉ s.now.world.fsFileVersion file :: s.versions)
  | .start => True
  | .read args buffer _ _ =>
    ∀ path, argString args "path" = some path →
      normalizedEvidencePath workspace s.now.world path 2048 = file →
      toolPath workspace s.now.world path = file ∧
        match fileRead workspace session s.now.world s.now.pages args with
        | .page p _ => ReadInFull file s ∨ Arrives file s args buffer p
        | .failed => True
        | _ => False

/-! ### What the loop reads of a page -/

section Seen

variable {workspace session file}
variable {s : TracedReads} {args : Option Json} {buffer : Option TxOutput} {p : Page}

theorem take_front {n : Nat} {front rest : Text} (short : front.length ≤ n) :
    (front ++ rest).take n = front ++ ((front ++ rest).take n).drop front.length := by
  have start : ((front ++ rest).take n).take front.length = front := by
    rw [List.take_take, Nat.min_eq_left short, List.take_left]
  calc (front ++ rest).take n = _ := (List.take_append_drop front.length _).symm
    _ = _ := by rw [start]

theorem Arrives.seen (arrives : Arrives file s args buffer p) (headed : p.headed = true)
    (small : p.next < 10 ^ 16) :
    ∃ front, (front = [] ∨ front = ascii "[file_read] ") ∧
      seen buffer p.output = front ++ (p.header ++ p.behind buffer) := by
  have short := Page.length_header small
  have output : p.output = p.header ++ p.body := by
    unfold Page.output
    rw [if_pos headed]
  cases buffer with
  | none =>
    refine ⟨[], .inl rfl, ?_⟩
    have shown : Cognition.seen none p.output = (p.header ++ strUtf8Sanitize p.body).take 239 := by
      unfold Cognition.seen
      rw [output]
      simp only
      rw [strUtf8Sanitize_append Page.header_ascii]
      rfl
    unfold Page.behind
    rw [shown, List.nil_append]
    simpa using @take_front 239 p.header (strUtf8Sanitize p.body) (by omega)
  | some t =>
    refine ⟨ascii "[file_read] ", .inr rfl, ?_⟩
    have tool : ascii "[" ++ ascii "file_read" ++ ascii "] " = ascii "[file_read] " := by simp [ascii]
    have twelve : (ascii "[file_read] ").length = 12 := by simp [ascii]
    have shown : Cognition.seen (some t) p.output =
        ((ascii "[file_read] " ++ p.header) ++ (p.body ++ ascii "\n")).take 239 := by
      unfold Cognition.seen
      simp only
      rw [arrives.line t rfl, List.drop_left, outputLine, tool, output]
      unfold snprintf
      simp only [List.append_assoc]
    have fits : (ascii "[file_read] " ++ p.header).length ≤ 239 := by
      rw [List.length_append]
      omega
    have front := @take_front 239 _ (p.body ++ ascii "\n") fits
    unfold Page.behind
    rw [List.length_append, twelve, List.append_assoc _ p.header (List.drop _ _)] at front
    rw [shown]
    exact front

theorem Arrives.outcome (arrives : Arrives file s args buffer p) (small : p.next < 10 ^ 16) :
    pageOutcome (reach 0 s.log) (pageHeader (Cognition.seen buffer p.output)) =
      if p.offset ≤ reach 0 s.log ∧ p.hasMore = false then none
      else some (extend (reach 0 s.log) (p.offset, p.next)) := by
  cases headed : p.headed with
  | true =>
    obtain ⟨front, line, same⟩ := arrives.seen headed small
    rw [same, Page.pageHeader_header line (lt_trans small (by decide))]
    unfold pageOutcome extend
    by_cases starts : p.offset ≤ reach 0 s.log
    · cases more : p.hasMore with
      | true => simp [starts]
      | false =>
        have ending := arrives.ending headed starts more
        simp [starts, ending]
    · simp [starts]
  | false =>
    unfold Page.headed at headed
    simp only [Bool.or_eq_false_iff, decide_eq_false_iff_not, not_not] at headed
    have bare := arrives.header (by simp [Page.headed, headed])
    rw [if_pos ⟨le_of_eq_of_le headed.1.1 (Nat.zero_le _), headed.1.2⟩]
    unfold pageOutcome
    cases header : pageHeader (Cognition.seen buffer p.output) with
    | none => simp
    | some h =>
      have harmless := bare h header
      simp [harmless.1, harmless.2]

end Seen

/-! ### What the tables know of the file -/

variable (workspace session file : Text)

def TracedReads.seenVersions (s : TracedReads) : List UInt64 :=
  s.now.world.fsFileVersion file :: s.versions

structure Tracked (s : TracedReads) : Prop where
  keyed : s.now.reads.Keyed
  readable : Readable file s.now.world
  pages : ∀ e ∈ s.now.pages, e.path = file → e.version ∈ s.seenVersions file ∧
    (e.version = s.now.world.fsFileVersion file → e.version ≠ 0 → e.Right s.now.world)
  completed : ∀ c ∈ s.now.reads.completed, c.path = file →
    (c.version ≠ 0 ∧ c.version ∈ s.seenVersions file) ∧ (∀ p ∈ s.now.reads.pending, p.path ≠ file) ∧
      (c.version = s.now.world.fsFileVersion file → ReadInFull file s) ∧
      (c.version ≠ s.now.world.fsFileVersion file → s.log = [])
  pending : ∀ p ∈ s.now.reads.pending, p.path = file →
    (p.version ≠ 0 ∧ p.version ∈ s.seenVersions file) ∧
      (p.version = s.now.world.fsFileVersion file → p.next = reach 0 s.log) ∧
      (p.version ≠ s.now.world.fsFileVersion file → s.log = [])
  full : ReadInFull file s →
    ∃ c ∈ s.now.reads.completed, c.path = file ∧ c.version = s.now.world.fsFileVersion file
  fresh : (∀ c ∈ s.now.reads.completed, c.path ≠ file) → (∀ p ∈ s.now.reads.pending, p.path ≠ file) → s.log = []

variable {workspace session file}
variable {s s' : TracedReads}

theorem not_readInFull_nil (none' : s.log = []) : ¬ ReadInFull file s := by
  rintro ⟨bytes, -, covers⟩
  rw [none'] at covers
  exact not_covers_nil _ _ covers

theorem Tracked.readTo (tracked : Tracked file s) (part : ¬ ReadInFull file s) :
    s.now.reads.readTo file (s.now.world.fsFileVersion file) = reach 0 s.log := by
  unfold Reads.readTo
  cases found : s.now.reads.pending.find? fun p => p.path = file with
  | some p =>
    have member := List.mem_of_find?_eq_some found
    have named : p.path = file := by simpa using List.find?_some found
    obtain ⟨-, same, other⟩ := tracked.pending p member named
    unfold PendingRead.current
    by_cases now : p.version = s.now.world.fsFileVersion file
    · simp [now, same now]
    · simp [now, other now, reach]
  | none =>
    have empty : s.log = [] := by
      by_cases closed : ∃ c ∈ s.now.reads.completed, c.path = file
      · obtain ⟨c, member, named⟩ := closed
        obtain ⟨-, -, same, other⟩ := tracked.completed c member named
        exact other fun now => part (same now)
      · exact tracked.fresh (fun c member named => closed ⟨c, member, named⟩) fun p member named =>
          List.find?_eq_none.mp found p member (decide_eq_true named)
    rw [empty]
    rfl

theorem Tracked.verified (tracked : Tracked file s) :
    fullReadVerified s.now.world s.now.reads file = true ↔ ReadInFull file s := by
  unfold fullReadVerified
  cases found : s.now.reads.completed.find? fun c => c.path = file with
  | none =>
    constructor
    · intro impossible
      cases impossible
    · intro full
      obtain ⟨c, member, named, -⟩ := tracked.full full
      exact absurd (decide_eq_true named) (List.find?_eq_none.mp found c member)
  | some c =>
    have member := List.mem_of_find?_eq_some found
    have named : c.path = file := by simpa using List.find?_some found
    obtain ⟨⟨some', -⟩, -, same, -⟩ := tracked.completed c member named
    simp only [Bool.and_eq_true, decide_eq_true_eq]
    constructor
    · rintro ⟨-, now⟩
      exact same now.symm
    · intro full
      obtain ⟨c', member', named', now⟩ := tracked.full full
      obtain rfl := List.inj_on_of_nodup_map tracked.keyed.completed member' member (named'.trans named.symm)
      exact ⟨now ▸ some', now.symm⟩

theorem Tracked.change {w : World} (tracked : Tracked file s)
    (careful : CarefulRead workspace session file s (.change w))
    (taken : readStep workspace session file s (.change w) = some s') : Tracked file s' := by
  obtain ⟨readable, careful⟩ := careful
  obtain rfl := Option.some.inj taken
  by_cases same : s.now.world.stat file = w.stat file ∧ s.now.world.bytes file = w.bytes file
  · have version : w.fsFileVersion file = s.now.world.fsFileVersion file := by
      unfold World.fsFileVersion
      rw [same.1]
    have slice (offset pageBytes : Nat) :
        w.fsReadFileSlice file offset pageBytes = s.now.world.fsReadFileSlice file offset pageBytes := by
      unfold World.fsReadFileSlice
      rw [same.2]
    have versions {v : UInt64} (member : v ∈ s.seenVersions file) :
        v ∈ w.fsFileVersion file :: s.seenVersions file :=
      List.mem_cons_of_mem _ member
    refine ⟨tracked.keyed, readable, ?_, ?_, ?_, ?_, ?_⟩
    · intro e member named
      obtain ⟨seen, right⟩ := tracked.pages e member named
      refine ⟨versions seen, fun now some' => ?_⟩
      have right := right (now.trans version) some'
      unfold PageEntry.Right at right ⊢
      rw [named] at right ⊢
      rw [version, slice]
      exact right
    · intro c member named
      obtain ⟨⟨some', seen⟩, alone, now, before⟩ := tracked.completed c member named
      simp only [if_pos same]
      refine ⟨⟨some', versions seen⟩, alone, fun here => ?_, fun other => before (version ▸ other)⟩
      obtain ⟨bytes, opened, covers⟩ := now (here.trans version)
      exact ⟨bytes, same.2 ▸ opened, by simpa [same] using covers⟩
    · intro p member named
      obtain ⟨⟨some', seen⟩, now, before⟩ := tracked.pending p member named
      simp only [if_pos same]
      exact ⟨⟨some', versions seen⟩, fun here => now (here.trans version), fun other => before (version ▸ other)⟩
    · rintro ⟨bytes, opened, covers⟩
      simp only [if_pos same] at covers
      obtain ⟨c, member, named, now⟩ := tracked.full ⟨bytes, same.2.trans opened, covers⟩
      exact ⟨c, member, named, now.trans version.symm⟩
    · simp only [if_pos same]
      exact tracked.fresh
  · have new : w.fsFileVersion file = 0 ∨ w.fsFileVersion file ∉ s.seenVersions file :=
      careful.resolve_left same
    have other {v : UInt64} (some' : v ≠ 0) (seen : v ∈ s.seenVersions file) : v ≠ w.fsFileVersion file := by
      rintro rfl
      exact new.elim some' fun fresh => fresh seen
    refine ⟨tracked.keyed, readable, ?_, ?_, ?_, ?_, ?_⟩
    · intro e member named
      obtain ⟨seen, -⟩ := tracked.pages e member named
      exact ⟨List.mem_cons_of_mem _ seen, fun now some' => absurd now (other some' seen)⟩
    · intro c member named
      obtain ⟨⟨some', seen⟩, alone, -⟩ := tracked.completed c member named
      simp only [if_neg same]
      exact ⟨⟨some', List.mem_cons_of_mem _ seen⟩, alone, fun now => absurd now (other some' seen), fun _ => trivial⟩
    · intro p member named
      obtain ⟨⟨some', seen⟩, -⟩ := tracked.pending p member named
      simp only [if_neg same]
      exact ⟨⟨some', List.mem_cons_of_mem _ seen⟩, fun now => absurd now (other some' seen), fun _ => trivial⟩
    · intro full
      exact absurd full (not_readInFull_nil (if_neg same))
    · intro _ _
      exact if_neg same

theorem Tracked.start (tracked : Tracked file s)
    (taken : readStep workspace session file s .start = some s') : Tracked file s' := by
  obtain rfl := Option.some.inj taken
  refine ⟨⟨List.nodup_nil, List.nodup_nil⟩, tracked.readable, tracked.pages, ?_, ?_, ?_, fun _ _ => rfl⟩
  · intro c member
    cases member
  · intro p member
    cases member
  · intro full
    exact absurd full (not_readInFull_nil rfl)

theorem Tracked.other {args : Option Json} {buffer : Option TxOutput} {out : Text} {pages : List PageEntry}
    (tracked : Tracked file s) (other : isNamed workspace file s.now.world args = false)
    (kept : ∀ e ∈ pages, e ∈ s.now.pages ∨ e.Right s.now.world) :
    Tracked file { s with now := s.now.record workspace args buffer out pages } := by
  have keyed : (recordReadPage workspace s.now.world s.now.reads args (seen buffer out)).Keyed ∧
      (∀ c : CompletedRead, c.path = file →
        (c ∈ (recordReadPage workspace s.now.world s.now.reads args (seen buffer out)).completed ↔
          c ∈ s.now.reads.completed)) ∧
      (∀ p : PendingRead, p.path = file →
        (p ∈ (recordReadPage workspace s.now.world s.now.reads args (seen buffer out)).pending ↔
          p ∈ s.now.reads.pending)) := by
    rcases recordReadPage_touches workspace s.now.world tracked.keyed args (seen buffer out) with
      same | ⟨path, named, completed, pending⟩
    · rw [same]
      exact ⟨tracked.keyed, fun _ _ => Iff.rfl, fun _ _ => Iff.rfl⟩
    · have differs : normalizedEvidencePath workspace s.now.world path 2048 ≠ file := by
        intro same
        simp [isNamed, named, same] at other
      exact ⟨⟨completed.nodup tracked.keyed.completed, pending.nodup tracked.keyed.pending⟩,
        fun c here => completed.mem_other fun clash => differs (clash.symm.trans here),
        fun p here => pending.mem_other fun clash => differs (clash.symm.trans here)⟩
  obtain ⟨keyed, completed, pending⟩ := keyed
  refine ⟨keyed, tracked.readable, ?_, ?_, ?_, ?_, ?_⟩
  · intro e member named
    rcases kept e member with old | right
    · exact tracked.pages e old named
    · exact ⟨by rw [right.1, named]; exact List.mem_cons_self .., fun _ _ => right⟩
  · intro c member named
    obtain ⟨seen, alone, rest⟩ := tracked.completed c ((completed c named).mp member) named
    exact ⟨seen, fun p member named => alone p ((pending p named).mp member) named, rest⟩
  · intro p member named
    exact tracked.pending p ((pending p named).mp member) named
  · intro full
    obtain ⟨c, member, named, now⟩ := tracked.full full
    exact ⟨c, (completed c named).mpr member, named, now⟩
  · intro noneCompleted nonePending
    exact tracked.fresh (fun c member named => noneCompleted c ((completed c named).mpr member) named)
      fun p member named => nonePending p ((pending p named).mpr member) named

theorem Tracked.arrived {args : Option Json} {buffer : Option TxOutput} {p : Page} {path : Text}
    (tracked : Tracked file s) (part : ¬ ReadInFull file s) (arrives : Arrives file s args buffer p)
    (named : argString args "path" = some path)
    (names : normalizedEvidencePath workspace s.now.world path 2048 = file)
    (dir : s.now.world.fsIsDir file = false) (small : p.next < 10 ^ 16)
    (zero : (argNumber args "offset_bytes").all (fun value => value = 0) = decide (p.offset = 0)) :
    let t := recordReadPage workspace s.now.world s.now.reads args (seen buffer p.output)
    if p.offset ≤ reach 0 s.log ∧ p.hasMore = false then
      t.completed.Perm ({ path := file, version := s.now.world.fsFileVersion file } ::
        s.now.reads.otherCompleted file) ∧ t.pending = s.now.reads.otherPending file
    else
      t.completed.Perm (s.now.reads.otherCompleted file) ∧ t.pending.Perm
        ({ path := file, next := extend (reach 0 s.log) (p.offset, p.next),
           version := s.now.world.fsFileVersion file } :: s.now.reads.otherPending file) := by
  have outcome := arrives.outcome small
  have closed (ends : p.offset ≤ reach 0 s.log ∧ p.hasMore = false) :
      s.now.reads.closed file (s.now.world.fsFileVersion file) =
        { path := file, version := s.now.world.fsFileVersion file } :: s.now.reads.otherCompleted file :=
    if_pos (arrives.closes ends.1 ends.2)
  have bare (none' : pageHeader (seen buffer p.output) = none) : p.offset = 0 ∧ p.hasMore = false := by
    cases headed : p.headed with
    | true =>
      obtain ⟨front, line, same⟩ := arrives.seen headed small
      rw [same, Page.pageHeader_header line (lt_trans small (by decide))] at none'
      cases none'
    | false =>
      unfold Page.headed at headed
      simp only [Bool.or_eq_false_iff, decide_eq_false_iff_not, not_not] at headed
      exact headed.1
  have alone (fresh : file ∉ s.now.reads.pending.map PendingRead.path) :
      s.now.reads.otherPending file = s.now.reads.pending :=
    filter_fresh fresh
  rcases recordReadPage_cases (seen buffer p.output) tracked.keyed named names dir with
    ⟨-, ⟨c, member, here, now⟩, -⟩ | ⟨-, ⟨fresh, pending, ⟨none', -, completed⟩ |
      ⟨⟨none', nonzero⟩ | ⟨header, filled⟩, -⟩⟩ | advanced⟩
  · exact absurd ((tracked.completed c member here).2.2.1 now) part
  · have whole := bare none'
    have ends : p.offset ≤ reach 0 s.log ∧ p.hasMore = false :=
      ⟨le_of_eq_of_le whole.1 (Nat.zero_le _), whole.2⟩
    simp only
    rw [if_pos ends]
    exact ⟨closed ends ▸ completed, pending.trans (alone fresh).symm⟩
  · rw [zero, decide_eq_false_iff_not] at nonzero
    exact absurd (bare none').1 nonzero
  · have room := arrives.opens header
    rw [alone fresh, filled] at room
    exact absurd room (Nat.lt_irrefl _)
  · rw [tracked.readTo part, outcome] at advanced
    simp only
    by_cases ends : p.offset ≤ reach 0 s.log ∧ p.hasMore = false
    · rw [if_pos ends] at advanced ⊢
      exact ⟨closed ends ▸ advanced.1, advanced.2⟩
    · rw [if_neg ends] at advanced ⊢
      exact advanced

theorem mem_otherCompleted {t : Reads} {c : CompletedRead} (member : c ∈ t.otherCompleted file) :
    c.path ≠ file :=
  of_decide_eq_true (List.mem_filter.mp member).2

theorem mem_otherPending {t : Reads} {p : PendingRead} (member : p ∈ t.otherPending file) : p.path ≠ file :=
  of_decide_eq_true (List.mem_filter.mp member).2

theorem Tracked.page {args : Option Json} {buffer : Option TxOutput} {other : Text}
    {kept : PageEntry → Bool} {p : Page} {pages pages' : List PageEntry} (tracked : Tracked file s)
    (careful : CarefulRead workspace session file s (.read args buffer other kept))
    (read : fileRead workspace session s.now.world s.now.pages args = .page p pages)
    (own : isNamed workspace file s.now.world args = true)
    (right : ∀ e ∈ pages', e ∈ s.now.pages ∨ e.Right s.now.world) :
    Tracked file
      { s with
        now := s.now.record workspace args buffer p.output pages'
        log := s.log ++ [(p.offset, p.next)] } := by
  obtain ⟨path, named, zero, bound, -, slice⟩ := fileRead_page read
  have names : normalizedEvidencePath workspace s.now.world path 2048 = file := by
    simpa [isNamed, named] using own
  obtain ⟨tool, careful⟩ := careful path named names
  rw [read] at careful
  obtain ⟨content, pageBytes, small, data, slice⟩ := slice fun e member here now some' =>
    (tracked.pages e member (here.trans tool)).2 (by rw [now, here, tool]) some'
  rw [tool] at slice
  obtain ⟨bytes, opened, length, ends⟩ := Page.range data slice
  obtain ⟨some', dir⟩ := tracked.readable (Option.isSome_iff_exists.mpr ⟨bytes, opened⟩)
  have next : p.next < 10 ^ 16 := by
    unfold Page.next
    omega
  have keyed : (recordReadPage workspace s.now.world s.now.reads args (seen buffer p.output)).Keyed := by
    rcases recordReadPage_touches workspace s.now.world tracked.keyed args (seen buffer p.output) with
      same | ⟨path, -, completed, pending⟩
    · rw [same]
      exact tracked.keyed
    · exact ⟨completed.nodup tracked.keyed.completed, pending.nodup tracked.keyed.pending⟩
  have pages (e : PageEntry) (member : e ∈ pages') (named : e.path = file) :
      e.version ∈ s.seenVersions file ∧
        (e.version = s.now.world.fsFileVersion file → e.version ≠ 0 → e.Right s.now.world) := by
    rcases right e member with old | right
    · exact tracked.pages e old named
    · exact ⟨by rw [right.1, named]; exact List.mem_cons_self .., fun _ _ => right⟩
  have here : s.now.world.fsFileVersion file ∈ s.seenVersions file := List.mem_cons_self ..
  have covers : Covers 0 bytes.length (s.log ++ [(p.offset, p.next)]) ↔
      Covers 0 bytes.length s.log ∨ p.offset ≤ reach 0 s.log ∧ p.hasMore = false := by
    rw [covers_snoc, ends]
  by_cases full : ReadInFull file s
  · obtain ⟨c, member, named', now⟩ := tracked.full full
    have same : recordReadPage workspace s.now.world s.now.reads args (seen buffer p.output) = s.now.reads := by
      rcases recordReadPage_cases (seen buffer p.output) tracked.keyed named names dir with
        ⟨-, -, same⟩ | ⟨new, -⟩
      · exact same
      · exact absurd now ((new c member named').resolve_left some')
    have covered : Covers 0 bytes.length (s.log ++ [(p.offset, p.next)]) := by
      obtain ⟨bytes', opened', covered⟩ := full
      rw [opened] at opened'
      obtain rfl := Option.some.inj opened'
      exact covers.mpr (.inl covered)
    refine ⟨keyed, tracked.readable, pages, ?_, ?_, ?_, ?_⟩
    all_goals simp only [Reader.record, same]
    · intro c' member' here'
      obtain rfl := List.inj_on_of_nodup_map tracked.keyed.completed member' member (here'.trans named'.symm)
      obtain ⟨seen, alone, -⟩ := tracked.completed c' member' here'
      exact ⟨seen, alone, fun _ => ⟨bytes, opened, covered⟩, fun differs => absurd now differs⟩
    · intro q member' here'
      exact absurd here' ((tracked.completed c member named').2.1 q member')
    · exact fun _ => ⟨c, member, named', now⟩
    · intro none'
      exact absurd named' (none' c member)
  · have arrives := careful.resolve_left full
    have part : ¬ Covers 0 bytes.length s.log := fun covered => full ⟨bytes, opened, covered⟩
    have tables := tracked.arrived full arrives named names dir next zero
    simp only at tables
    by_cases done : p.offset ≤ reach 0 s.log ∧ p.hasMore = false
    · rw [if_pos done] at tables
      have covered := covers.mpr (.inr done)
      have alone (q : PendingRead)
          (member : q ∈ (recordReadPage workspace s.now.world s.now.reads args (seen buffer p.output)).pending) :
          q.path ≠ file :=
        mem_otherPending (tables.2 ▸ member)
      refine ⟨keyed, tracked.readable, pages, ?_, ?_, ?_, ?_⟩
      · intro c member named
        rcases List.mem_cons.mp (tables.1.mem_iff.mp member) with rfl | member
        · exact ⟨⟨some', here⟩, alone, fun _ => ⟨bytes, opened, covered⟩, fun differs => absurd rfl differs⟩
        · exact absurd named (mem_otherCompleted member)
      · intro q member named
        exact absurd named (alone q member)
      · exact fun _ => ⟨_, tables.1.mem_iff.mpr (List.mem_cons_self ..), rfl, rfl⟩
      · intro none'
        exact absurd rfl (none' _ (tables.1.mem_iff.mpr (List.mem_cons_self ..)))
    · rw [if_neg done] at tables
      have open' : ¬ Covers 0 bytes.length (s.log ++ [(p.offset, p.next)]) :=
        fun covered => (covers.mp covered).elim part done
      refine ⟨keyed, tracked.readable, pages, ?_, ?_, ?_, ?_⟩
      · intro c member named
        exact absurd named (mem_otherCompleted (tables.1.mem_iff.mp member))
      · intro q member named
        rcases List.mem_cons.mp (tables.2.mem_iff.mp member) with rfl | member
        · exact ⟨⟨some', here⟩, fun _ => (reach_snoc 0 s.log (p.offset, p.next)).symm,
            fun differs => absurd rfl differs⟩
        · exact absurd named (mem_otherPending member)
      · rintro ⟨bytes', opened', covered⟩
        have opened' : s.now.world.bytes file = some bytes' := opened'
        rw [opened] at opened'
        obtain rfl := Option.some.inj opened'
        exact absurd covered open'
      · intro _ none'
        exact absurd rfl (none' _ (tables.2.mem_iff.mpr (List.mem_cons_self ..)))

theorem Tracked.step {l : ReadLabel} (tracked : Tracked file s)
    (taken : (readsOf workspace session file).restrict (CarefulRead workspace session file) s l s') :
    Tracked file s' := by
  obtain ⟨careful, taken⟩ := taken
  have taken : readStep workspace session file s l = some s' := taken
  cases l with
  | change w => exact tracked.change careful taken
  | start => exact tracked.start taken
  | read args buffer other kept =>
    have filtered {pages : List PageEntry} (right : ∀ e ∈ pages, e ∈ s.now.pages ∨ e.Right s.now.world) :
        ∀ e ∈ pages.filter kept, e ∈ s.now.pages ∨ e.Right s.now.world :=
      fun e member => right e (List.mem_filter.mp member).1
    have notOwn (some' : fileRead workspace session s.now.world s.now.pages args ≠ .failed)
        (noPage : ∀ p pages, fileRead workspace session s.now.world s.now.pages args ≠ .page p pages) :
        isNamed workspace file s.now.world args = false := by
      by_contra own
      rw [Bool.not_eq_false] at own
      obtain ⟨path, named, names⟩ := (Option.any_eq_true _ _).mp own
      have careful := (careful path named (of_decide_eq_true names)).2
      cases read : fileRead workspace session s.now.world s.now.pages args with
      | failed => exact some' read
      | page p pages => exact noPage p pages read
      | listing =>
        rw [read] at careful
        exact careful
      | image =>
        rw [read] at careful
        exact careful
    simp only [readStep] at taken
    cases read : fileRead workspace session s.now.world s.now.pages args with
    | failed =>
      rw [read] at taken
      cases taken
    | listing =>
      rw [read] at taken
      obtain rfl := Option.some.inj taken
      exact tracked.other (notOwn (by simp [read]) (by simp [read])) (filtered fun e member => .inl member)
    | image =>
      rw [read] at taken
      obtain rfl := Option.some.inj taken
      exact tracked.other (notOwn (by simp [read]) (by simp [read])) (filtered fun e member => .inl member)
    | page p pages =>
      rw [read] at taken
      obtain rfl := Option.some.inj taken
      obtain ⟨-, -, -, -, right, -⟩ := fileRead_page read
      cases own : isNamed workspace file s.now.world args with
      | true => exact tracked.page careful read own (filtered right)
      | false => exact tracked.other own (filtered right)

/-- In every run of careful steps exactly the files that are read in full are taken for read. -/
theorem full_read_exact (workspace session file : Text) {w : World} (readable : Readable file w)
    {labels : List ReadLabel} {s : TracedReads}
    (run : ((readsOf workspace session file).restrict (CarefulRead workspace session file)).Run
      { now := { world := w } } labels s) :
    fullReadVerified s.now.world s.now.reads file = true ↔ ReadInFull file s := by
  have start : Tracked file { now := { world := w } } := by
    refine ⟨⟨List.nodup_nil, List.nodup_nil⟩, readable, ?_, ?_, ?_, ?_, fun _ _ => rfl⟩
    · intro e member
      cases member
    · intro c member
      cases member
    · intro p member
      cases member
    · intro full
      exact absurd full (not_readInFull_nil rfl)
  exact (run.invariant (fun _ _ _ tracked taken => tracked.step taken) start).verified

/-- One text file `a` in the workspace `/w`. -/
def textFile (bytes : Text) : World where
  stat path :=
    if path = ascii "/w" then some { ino := 1, size := 0, mtimeSec := 1, ctimeSec := 1, isDir := true }
    else if path = ascii "/w/a" then
      some { ino := 2, size := bytes.length.toUInt64, mtimeSec := 1, ctimeSec := 1 }
    else none
  realpath path := if path = ascii "/w" ∨ path = ascii "/w/a" then some path else none
  bytes path := if path = ascii "/w/a" then some bytes else none

def readA (buffer : Option TxOutput) : ReadLabel :=
  .read (some (.object [(ascii "path", .string (ascii "a"))])) buffer [] fun _ => true

def pageA : Page :=
  { offset := 0, data := ascii "hi", hasMore := false, clamped := false, hit := false,
    version := (textFile (ascii "hi")).fsFileVersion (ascii "/w/a") }

/-- A short file is read in full at once. -/
theorem full_read_exact_once :
    ∃ s, (readsOf (ascii "/w") [] (ascii "/w/a")).Run { now := { world := textFile (ascii "hi") } }
        [readA none] s ∧ (fullReadVerified s.now.world s.now.reads (ascii "/w/a") = true ↔
      ReadInFull (ascii "/w/a") s) := by
  have read : fileRead (ascii "/w") [] (textFile (ascii "hi")) []
      (some (.object [(ascii "path", .string (ascii "a"))])) = .page pageA [] := by
    decide +kernel
  have bare : pageHeader (seen none pageA.output) = none := by
    rw [← Option.isNone_iff_eq_none]
    decide +kernel
  have arrives : Arrives (ascii "/w/a") { now := { world := textFile (ascii "hi") } }
      (some (.object [(ascii "path", .string (ascii "a"))])) none pageA := by
    refine ⟨fun t member => (nomatch member), fun headed => ?_, fun _ h found => ?_, fun _ _ => ?_, fun found => ?_⟩
    · exact absurd headed (by decide)
    · rw [bare] at found
      cases found
    · decide
    · exact absurd bare found
  obtain ⟨s, taken⟩ := Option.isSome_iff_exists.mp
    (show (readStep (ascii "/w") [] (ascii "/w/a") { now := { world := textFile (ascii "hi") } }
      (readA none)).isSome = true by
        unfold readStep readA
        simp only
        rw [read]
        rfl)
  have careful : CarefulRead (ascii "/w") [] (ascii "/w/a") { now := { world := textFile (ascii "hi") } }
      (readA none) := by
    intro path named _
    obtain rfl : ascii "a" = path := Option.some.inj ((show _ = some (ascii "a") by decide).symm.trans named)
    refine ⟨by decide, ?_⟩
    rw [read]
    exact .inr arrives
  refine ⟨s, Machine.Run.single taken, ?_⟩
  exact full_read_exact _ _ _ (fun _ => ⟨by decide +kernel, by decide +kernel⟩)
    (Machine.Run.single ⟨careful, taken⟩)

/-- A file whose text looks like the header of a later page is read in full and not taken for it. -/
theorem full_read_exact_fails :
    ∃ labels s, (readsOf (ascii "/w") (ascii "s") (ascii "/w/a")).Run
        { now := { world := textFile (ascii "[bytes 5-9") } } labels s ∧
      ReadInFull (ascii "/w/a") s ∧
      fullReadVerified s.now.world s.now.reads (ascii "/w/a") = false := by
  let start : TracedReads := { now := { world := textFile (ascii "[bytes 5-9") } }
  have ran : ((readStep (ascii "/w") (ascii "s") (ascii "/w/a") start (readA (some {}))).map fun s =>
      (s.log, s.now.world.bytes (ascii "/w/a"),
        fullReadVerified s.now.world s.now.reads (ascii "/w/a"))) =
      some ([(0, 10)], some (ascii "[bytes 5-9"), false) := by
    decide +kernel
  obtain ⟨s, taken, same⟩ := Option.map_eq_some_iff.mp ran
  obtain ⟨log, bytes, verified⟩ : s.log = [(0, 10)] ∧ s.now.world.bytes (ascii "/w/a") = some (ascii "[bytes 5-9") ∧
      fullReadVerified s.now.world s.now.reads (ascii "/w/a") = false := by
    simpa using same
  refine ⟨[readA (some {})], s, Machine.Run.single taken, ⟨_, bytes, ?_⟩, verified⟩
  rw [log]
  exact (@covers_snoc Nat _ 0 _ [] (0, 10)).mpr (.inr ⟨Nat.le_refl 0, by simp [ascii]⟩)

end CognitiveOs.Cognition
