import CognitiveOs.Foundation.Upsert
import CognitiveOs.Infra.Text

/-!
# The index of words

`retrieval/engine.c`: the words of files with the lines they stand in, and the search for the words
of a query. A token of a query is the text from its first byte to the end of the query.
-/

namespace CognitiveOs.Retrieval

open Foundation.Upsert Infra

structure Occ where
  file : Text
  line : Nat
  deriving DecidableEq

structure Term where
  word : Text
  occs : List Occ
  deriving DecidableEq

/-- `struct ret_index`. -/
abbrev RetIndex := List Term

def isWordChar (c : UInt8) : Bool :=
  (48 ≤ c && c ≤ 57) || (65 ≤ c && c ≤ 90) || (97 ≤ c && c ≤ 122) || c = 95

def findTerm (idx : RetIndex) (word : Text) : Option Term :=
  lookup Term.word word idx

def occsOf (idx : RetIndex) (word : Text) : List Occ :=
  ((findTerm idx word).map Term.occs).getD []

def addOcc (occs : List Occ) (o : Occ) : List Occ :=
  if occs.getLast? = some o then occs else occs ++ [o]

/-- `get_or_add` and `add_occ` of a word. -/
def addWord (idx : RetIndex) (word : Text) (o : Occ) : RetIndex :=
  upsert Term.word ⟨word, addOcc (occsOf idx word) o⟩ idx

def wordRoom : Nat := 127

/-- The words of a text with their lines. A word longer than the buffer is several words. -/
def words : Nat → Nat → Text → List (Text × Nat)
  | 0, _, _ => []
  | _, _, [] => []
  | fuel + 1, line, c :: s =>
    if c = 10 then words fuel (line + 1) s
    else if isWordChar c = false then words fuel line s
    else
      let word := ((c :: s).takeWhile isWordChar).take wordRoom
      (word, line) :: words fuel line ((c :: s).drop word.length)

def fileWords (content : Text) : List (Text × Nat) :=
  (words content.length 1 content).filter fun word => 2 ≤ word.1.length

def indexAddFile (idx : RetIndex) (path content : Text) : RetIndex :=
  (fileWords content).foldl (fun idx word => addWord idx word.1 ⟨path, word.2⟩) idx

def tokens : Nat → Nat → Text → List Text
  | 0, _, _ => []
  | fuel + 1, room, p =>
    if p = [] ∨ room = 0 then []
    else
      let s := p.dropWhile fun c => !isWordChar c
      if s = [] then []
      else
        let rest := s.dropWhile isWordChar
        if 2 ≤ s.length - rest.length then s :: tokens fuel (room - 1) rest else tokens fuel room rest

structure Hit where
  term : Text
  file : Text
  line : Nat
  deriving DecidableEq

def addHits (limit : Int) (word : Text) : List Hit → List Occ → List Hit
  | arr, [] => arr
  | arr, o :: occs =>
    if 0 < limit ∧ limit ≤ arr.length then arr
    else addHits limit word (arr ++ [⟨word, o.file, o.line⟩]) occs

def tokenRoom : Nat := 32

def indexSearch (idx : RetIndex) (query : Text) (limit : Int) : List Hit :=
  (tokens (query.length + 1) tokenRoom query).foldl (fun arr token =>
    match findTerm idx token with
    | none => arr
    | some term => addHits limit term.word arr term.occs) []

/-! ### What is asked of a search -/

structure File where
  path : Text
  content : Text

def indexed (files : List File) : RetIndex :=
  files.foldl (fun idx file => indexAddFile idx file.path file.content) []

def Occurs (files : List File) (word : Text) (o : Occ) : Prop :=
  ∃ file ∈ files, file.path = o.file ∧ (word, o.line) ∈ fileWords file.content

def queryWords (query : Text) : List Text :=
  (fileWords query).map Prod.fst

def Complete (files : List File) (query : Text) (limit : Int) : Prop :=
  ∀ word ∈ queryWords query, ∀ o, Occurs files word o →
    ⟨word, o.file, o.line⟩ ∈ indexSearch (indexed files) query limit ∨
      0 < limit ∧ limit ≤ (indexSearch (indexed files) query limit).length

def runs (s : Text) : List Text :=
  s.splitOnP fun c => !isWordChar c

/-- The word that a text ends in, if it has at least two characters and fewer than `room` such words stand before. -/
def wordAtEnd (room : Nat) (p : Text) : Option Text :=
  (runs p).getLast?.filter fun word =>
    2 ≤ word.length && ((runs p).dropLast.filter fun run => 2 ≤ run.length).length < room

def lastWord (query : Text) : Option Text :=
  wordAtEnd tokenRoom query

/-- Every word of the query that occurs in a file is the one that the query ends in, or there are as many lines
with that one as asked for. -/
def EndsInAll (files : List File) (query : Text) (limit : Int) : Prop :=
  ∀ word ∈ queryWords query, (∃ o, Occurs files word o) →
    lastWord query = some word ∨
      ∃ last, lastWord query = some last ∧ 0 < limit ∧ limit ≤ (occsOf (indexed files) last).length

/-! ### What is indexed -/

variable {idx : RetIndex} {word w : Text} {files : List File}

theorem occsOf_addWord (idx : RetIndex) (word w : Text) (o : Occ) :
    occsOf (addWord idx word o) w = if w = word then addOcc (occsOf idx word) o else occsOf idx w := by
  unfold occsOf findTerm addWord
  rw [lookup_upsert]
  split <;> rfl

theorem mem_addOcc (occs : List Occ) (o : Occ) : o ∈ addOcc occs o := by
  unfold addOcc
  split
  · rename_i last
    exact List.mem_of_getLast? last
  · simp

theorem subset_addOcc (occs : List Occ) (o : Occ) : occs ⊆ addOcc occs o := by
  unfold addOcc
  split
  · exact List.Subset.refl _
  · exact List.subset_append_left _ _

theorem mem_occsOf_addWord {o p : Occ} (known : p ∈ occsOf idx w) : p ∈ occsOf (addWord idx word o) w := by
  rw [occsOf_addWord]
  split
  · rename_i same
    exact subset_addOcc _ _ (same ▸ known)
  · exact known

theorem mem_occsOf_addFile {path content : Text} {p : Occ} :
    p ∈ occsOf idx w ∨ p.file = path ∧ (w, p.line) ∈ fileWords content →
      p ∈ occsOf (indexAddFile idx path content) w := by
  unfold indexAddFile
  induction fileWords content generalizing idx with
  | nil => simp
  | cons word words ih =>
    rintro (known | ⟨rfl, member⟩)
    · exact ih (.inl (mem_occsOf_addWord known))
    · rcases List.mem_cons.mp member with rfl | later
      · refine ih (.inl ?_)
        rw [occsOf_addWord, if_pos rfl]
        exact mem_addOcc _ _
      · exact ih (.inr ⟨rfl, later⟩)

theorem mem_occsOf_indexed {o : Occ} (occurs : Occurs files word o) : o ∈ occsOf (indexed files) word := by
  have grown : ∀ idx, o ∈ occsOf idx word ∨ Occurs files word o →
      o ∈ occsOf (files.foldl (fun idx file => indexAddFile idx file.path file.content) idx) word := by
    clear occurs
    induction files with
    | nil => simp [Occurs]
    | cons file files ih =>
      rintro idx (known | ⟨g, member, path, stands⟩)
      · exact ih _ (.inl (mem_occsOf_addFile (.inl known)))
      · rcases List.mem_cons.mp member with rfl | later
        · exact ih _ (.inl (mem_occsOf_addFile (.inr ⟨path.symm, stands⟩)))
        · exact ih _ (.inr ⟨g, later, path, stands⟩)
  exact grown [] (.inr occurs)

theorem isWordChar_words {fuel line : Nat} {s : Text} {n : Nat} (member : (word, n) ∈ words fuel line s) :
    ∀ c ∈ word, isWordChar c = true := by
  induction fuel generalizing line s with
  | zero => cases member
  | succ fuel ih =>
    cases s with
    | nil => cases member
    | cons c s =>
      unfold words at member
      split at member
      · exact ih member
      · split at member
        · exact ih member
        · rcases List.mem_cons.mp member with same | later
          · obtain ⟨rfl, -⟩ := Prod.mk.inj same
            intro b inside
            exact List.mem_takeWhile_imp (List.mem_of_mem_take inside)
          · exact ih later

theorem findTerm_addFile {path content : Text} {t : Term}
    (found : findTerm (indexAddFile idx path content) w = some t) :
    (∃ t, findTerm idx w = some t) ∨ ∀ c ∈ w, isWordChar c = true := by
  have told : ∀ word ∈ fileWords content, ∀ c ∈ word.1, isWordChar c = true := by
    rintro ⟨word, line⟩ member
    exact isWordChar_words (List.mem_of_mem_filter member)
  unfold indexAddFile at found
  generalize fileWords content = ws at found told
  induction ws generalizing idx with
  | nil => exact .inl ⟨t, found⟩
  | cons word ws ih =>
    obtain ⟨first, told⟩ := List.forall_mem_cons.mp told
    rcases ih found told with ⟨t, before⟩ | all
    · unfold findTerm addWord at before
      rw [lookup_upsert] at before
      split at before
      · rename_i same
        subst same
        exact .inr first
      · exact .inl ⟨t, before⟩
    · exact .inr all

theorem findTerm_indexed {t : Term} (found : findTerm (indexed files) w = some t) : ∀ c ∈ w, isWordChar c = true := by
  have grown : ∀ idx, (∃ t, findTerm (files.foldl (fun idx file => indexAddFile idx file.path file.content) idx) w =
      some t) → (∃ t, findTerm idx w = some t) ∨ ∀ c ∈ w, isWordChar c = true := by
    clear found
    induction files with
    | nil => exact fun idx found => .inl found
    | cons file files ih =>
      intro idx found
      rcases ih _ found with ⟨t, before⟩ | all
      · exact findTerm_addFile before
      · exact .inr all
  rcases grown [] ⟨t, found⟩ with ⟨t, none⟩ | all
  · cases none
  · exact all

/-! ### The tokens of a query -/

variable {room : Nat}

theorem runs_ne_nil (p : Text) : runs p ≠ [] :=
  List.splitOnP_ne_nil _ _

theorem runs_word (word : ∀ c ∈ w, isWordChar c = true) : runs w = [w] :=
  List.splitOnP_eq_singleton fun c member => by simp [word c member]

theorem runs_append (word : ∀ c ∈ w, isWordChar c = true) {d : UInt8} (other : isWordChar d = false) (s : Text) :
    runs (w ++ d :: s) = w :: runs s :=
  List.splitOnP_append_cons_of_forall_mem (fun c member => by simp [word c member]) d (by simp [other]) s

theorem wordAtEnd_zero (p : Text) : wordAtEnd 0 p = none := by
  unfold wordAtEnd
  cases (runs p).getLast? <;> simp

theorem wordAtEnd_word (word : ∀ c ∈ w, isWordChar c = true) (some_room : room ≠ 0) :
    wordAtEnd room w = if 2 ≤ w.length then some w else none := by
  unfold wordAtEnd
  rw [runs_word word]
  have positive : 0 < room := Nat.pos_of_ne_zero some_room
  simp [Option.filter, positive]

theorem wordAtEnd_append {w : Text} (word : ∀ c ∈ w, isWordChar c = true) {d : UInt8} (other : isWordChar d = false)
    (s : Text) {room : Nat} :
    wordAtEnd room (w ++ d :: s) = wordAtEnd (if 2 ≤ w.length then room - 1 else room) s := by
  unfold wordAtEnd
  rw [runs_append word other, List.getLast?_cons_of_ne_nil (runs_ne_nil s),
    List.dropLast_cons_of_ne_nil (runs_ne_nil s), List.filter_cons]
  congr 1
  funext last
  by_cases long : 2 ≤ w.length
  · simp only [long, decide_true, if_true, List.length_cons]
    congr 2
    simp only [eq_iff_iff]
    omega
  · simp [long]

theorem wordAtEnd_cons {d : UInt8} (other : isWordChar d = false) (s : Text) :
    wordAtEnd room (d :: s) = wordAtEnd room s := by
  simpa using @wordAtEnd_append [] (by simp) d other s room

theorem wordAtEnd_dropWhile (p : Text) (room : Nat) :
    wordAtEnd room (p.dropWhile fun c => !isWordChar c) = wordAtEnd room p := by
  induction p with
  | nil => rfl
  | cons c p ih =>
    rw [List.dropWhile_cons]
    split
    · rename_i other
      rw [ih, wordAtEnd_cons (by simpa using other)]
    · rfl

theorem filter_tokens {fuel : Nat} {p : Text} (enough : p.length < fuel) :
    (tokens fuel room p).filter (fun token => token.all isWordChar) = (wordAtEnd room p).toList := by
  induction fuel generalizing room p with
  | zero => exact absurd enough (Nat.not_lt_zero _)
  | succ fuel ih =>
    rw [← wordAtEnd_dropWhile]
    unfold tokens
    have empty : wordAtEnd room [] = none := by simp [wordAtEnd, runs, Option.filter]
    split
    · rename_i stop
      rcases stop with rfl | rfl
      · simp [empty]
      · simp [wordAtEnd_zero]
    · rename_i go
      obtain ⟨some_text, some_room⟩ := not_or.mp go
      simp only
      have shorter := (List.dropWhile_suffix (l := p) fun c => !isWordChar c).length_le
      generalize hs : (p.dropWhile fun c => !isWordChar c) = s at shorter ⊢
      split
      · rename_i none_left
        simp [none_left, empty]
      · rename_i visible
        have word : ∀ c ∈ s.takeWhile isWordChar, isWordChar c = true := fun c member => List.mem_takeWhile_imp member
        have split : s.takeWhile isWordChar ++ s.dropWhile isWordChar = s := List.takeWhile_append_dropWhile
        have length := congrArg List.length split
        rw [List.length_append] at length
        have size : s.length - (s.dropWhile isWordChar).length = (s.takeWhile isWordChar).length := by omega
        rw [size]
        have started : 0 < (s.takeWhile isWordChar).length := by
          cases s with
          | nil => exact absurd rfl visible
          | cons c s =>
            have head := List.head?_dropWhile_not (fun c => !isWordChar c) p
            rw [hs] at head
            rw [List.takeWhile_cons_of_pos (by simpa using head)]
            simp
        have smaller : (s.dropWhile isWordChar).length < fuel := by omega
        cases rest : s.dropWhile isWordChar with
        | nil =>
          rw [rest, List.append_nil] at split
          have all : s.all isWordChar = true := by
            rw [← split]
            exact List.all_eq_true.mpr word
          have done (room : Nat) : tokens fuel room [] = [] := by
            cases fuel <;> simp [tokens]
          rw [split] at word ⊢
          rw [done, done, wordAtEnd_word word some_room]
          split <;> simp [all]
        | cons d rest' =>
          have other : isWordChar d = false := by
            have head := List.head?_dropWhile_not isWordChar s
            rw [rest] at head
            simpa using head
          rw [rest] at split smaller
          have mixed : s.all isWordChar = false := by
            rw [← split, List.all_append, List.all_cons, other, Bool.false_and, Bool.and_false]
          have last := @wordAtEnd_append _ word d other rest' room
          rw [split] at last
          rw [last, ← wordAtEnd_cons other rest']
          split
          · rw [List.filter_cons_of_neg (by simp [mixed]), ih smaller]
          · rw [ih smaller]

/-! ### The hits -/

theorem addHits_eq (limit : Int) (word : Text) (occs : List Occ) (arr : List Hit) :
    ∃ n, addHits limit word arr occs = arr ++ (occs.take n).map (fun o => ⟨word, o.file, o.line⟩) ∧
      (n < occs.length → 0 < limit ∧ limit ≤ (addHits limit word arr occs).length) := by
  induction occs generalizing arr with
  | nil => exact ⟨0, by simp [addHits], by simp⟩
  | cons o occs ih =>
    unfold addHits
    split
    · rename_i full
      exact ⟨0, by simp, fun _ => full⟩
    · obtain ⟨n, same, full⟩ := ih (arr ++ [⟨word, o.file, o.line⟩])
      refine ⟨n + 1, by simpa using same, fun less => full ?_⟩
      simpa using less

theorem foldl_tokens {limit : Int} (ts : List Text) (arr : List Hit) :
    ts.foldl (fun arr token =>
        match findTerm (indexed files) token with
        | none => arr
        | some term => addHits limit term.word arr term.occs) arr =
      (ts.filter fun token => token.all isWordChar).foldl (fun arr token =>
        match findTerm (indexed files) token with
        | none => arr
        | some term => addHits limit term.word arr term.occs) arr := by
  induction ts generalizing arr with
  | nil => rfl
  | cons token ts ih =>
    rw [List.foldl_cons, ih, List.filter_cons]
    cases all : token.all isWordChar with
    | true => rfl
    | false =>
      have unknown : findTerm (indexed files) token = none := by
        cases found : findTerm (indexed files) token with
        | none => rfl
        | some term =>
          rw [List.all_eq_true.mpr (findTerm_indexed found)] at all
          cases all
      rw [unknown]
      rfl

theorem indexSearch_eq (files : List File) (query : Text) (limit : Int) :
    indexSearch (indexed files) query limit =
      (lastWord query).elim [] fun word => addHits limit word [] (occsOf (indexed files) word) := by
  unfold indexSearch
  rw [foldl_tokens, filter_tokens (Nat.lt_succ_self _)]
  cases last : lastWord query with
  | none =>
    rw [show wordAtEnd tokenRoom query = none from last]
    rfl
  | some word =>
    rw [show wordAtEnd tokenRoom query = some word from last, Option.toList_some, List.foldl_cons, List.foldl_nil,
      Option.elim_some]
    unfold occsOf
    cases found : findTerm (indexed files) word with
    | none => rfl
    | some term =>
      have named : term.word = word := by simpa using List.find?_some found
      simp only [named]
      rfl

/-- A search of the word that the query ends in is complete, and so is one that has reached the limit. -/
theorem complete_iff (files : List File) (query : Text) (limit : Int) :
    Complete files query limit ↔ EndsInAll files query limit := by
  constructor
  · rintro complete word member ⟨o, occurs⟩
    have found := complete word member o occurs
    rw [indexSearch_eq] at found
    cases last : lastWord query with
    | none =>
      rw [last] at found
      rcases found with hit | ⟨positive, full⟩
      · cases hit
      · simp only [Option.elim_none, List.length_nil] at full
        omega
    | some final =>
      rw [last, Option.elim_some] at found
      obtain ⟨n, same, -⟩ := addHits_eq limit final (occsOf (indexed files) final) []
      rw [same, List.nil_append] at found
      rcases found with hit | ⟨positive, full⟩
      · obtain ⟨p, -, made⟩ := List.mem_map.mp hit
        injection made with named
        exact .inl (congrArg some named)
      · have part := List.length_take_le' n (occsOf (indexed files) final)
        rw [List.length_map] at full
        exact .inr ⟨final, rfl, positive, by omega⟩
  · intro ends word member o occurs
    rw [indexSearch_eq]
    have known := mem_occsOf_indexed occurs
    rcases ends word member ⟨o, occurs⟩ with last | ⟨last, final, positive, enough⟩
    · rw [last, Option.elim_some]
      obtain ⟨n, same, full⟩ := addHits_eq limit word (occsOf (indexed files) word) []
      by_cases less : n < (occsOf (indexed files) word).length
      · exact .inr (full less)
      · rw [same, List.take_of_length_le (Nat.not_lt.mp less)]
        exact .inl (List.mem_map.mpr ⟨o, known, rfl⟩)
    · rw [final, Option.elim_some]
      obtain ⟨n, same, full⟩ := addHits_eq limit last (occsOf (indexed files) last) []
      by_cases less : n < (occsOf (indexed files) last).length
      · exact .inr (full less)
      · refine .inr ⟨positive, ?_⟩
        rw [same, List.take_of_length_le (Nat.not_lt.mp less), List.nil_append, List.length_map]
        exact enough

/-- A file with both words of a query, of which the first is not found. -/
theorem first_word_lost :
    ¬ Complete [⟨ascii "src/a.c", ascii "int widget_init"⟩] (ascii "widget_init int") 10 := by
  intro complete
  have found := complete (ascii "widget_init") (by decide +kernel) ⟨ascii "src/a.c", 1⟩
    ⟨_, List.mem_singleton_self _, rfl, by decide +kernel⟩
  revert found
  decide +kernel

end CognitiveOs.Retrieval
