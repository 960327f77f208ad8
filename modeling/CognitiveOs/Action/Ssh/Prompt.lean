import CognitiveOs.Action.FileEdit
import CognitiveOs.Action.Ssh.Vault
import CognitiveOs.Security.SshPasswords

/-!
# Preparing a prompt

`ssh_session_prepare_prompt` of `action/ssh_vault.c`: the labelled passwords of a prompt, and the prompt
with the password replaced, before anything keeps it. A field's value is the text from there on.
-/

namespace CognitiveOs.Action.Ssh

open Infra
open Security (toLower)
open FileEdit (OccursAt countLoop joined pieces replaceLoop)

def utf8 (s : String) : Text :=
  s.toUTF8.toList

/-! ### The labels -/

/-- The inner loop of `ssh_find_ascii`. -/
def startsAscii : (word text : Text) → Bool
  | [], _ => true
  | _ :: _, [] => false
  | w :: word, b :: text => toLower b = toLower w && startsAscii word text

def beforeWord (b : UInt8) : Bool :=
  ¬ isAlnum b ∧ b ∉ ascii "_.-"

def behindWord (b : UInt8) : Bool :=
  ¬ isAlnum b ∧ b ≠ 95

/-- The loop of `ssh_find_ascii`, behind the byte `before`. -/
def findAsciiLoop (word : Text) : (before : Option UInt8) → Text → Option Text
  | _, [] => none
  | before, b :: rest =>
    if startsAscii word (b :: rest) ∧ before.all beforeWord ∧ ((b :: rest).drop word.length).head?.all behindWord then
      some (b :: rest)
    else findAsciiLoop word (some b) rest

/-- `ssh_find_ascii`. -/
def findAscii (text word : Text) : Option Text :=
  findAsciiLoop word none text

/-- The expression `[:=]\s*`. -/
def colon : Text → Option Text
  | b :: rest => if b = 58 ∨ b = 61 then some (rest.dropWhile isSpace) else none
  | [] => none

/-- The expression `[iI][sS]\s+`. -/
def wordIs : Text → Option Text
  | i :: s :: b :: rest =>
    if toLower i = 105 ∧ toLower s = 115 ∧ isSpace b then some (rest.dropWhile isSpace) else none
  | _ => none

def wideColon (p : Text) : Option Text :=
  if (utf8 "：").isPrefixOf p then some (p.drop 3) else none

def spokenOf (p : Text) : Bool :=
  findAscii p (ascii "login") = some p ∨ [utf8 "登录", utf8 "认证", utf8 "方式"].any (·.isPrefixOf p)

/-- What separates the label before `afterLabel` from its value, if it is one: the text behind it. -/
def separator (isAscii allowIs : Bool) (afterLabel : Text) : Option Text :=
  let p := afterLabel.dropWhile isSpace
  match (colon p).or (wideColon p) with
  | some behind => some behind
  | none =>
    if (utf8 "是").isPrefixOf p ∨ (utf8 "为").isPrefixOf p then some (p.drop 3)
    else
      match wordIs p with
      | some behind => some behind
      | none =>
        if p.length < afterLabel.length ∧ (¬ allowIs ∨ ¬ spokenOf p) then some p
        else if ¬ isAscii ∧ p.length = afterLabel.length ∧ p.head?.any (fun b => 0 < b ∧ b < 128) then some p
        else none

def findLabel (isAscii : Bool) (label text : Text) : Option Text :=
  if isAscii then findAscii text label else strstr label text

/-- The loop of `ssh_field_value_one`. -/
def fieldValueLoop (label : Text) (isAscii allowIs : Bool) : (rounds : Nat) → (cursor : Text) → Option Text
  | 0, _ => none
  | rounds + 1, cursor =>
    match findLabel isAscii label cursor with
    | none => none
    | some found =>
      let afterLabel := found.drop label.length
      match separator isAscii allowIs afterLabel with
      | none => fieldValueLoop label isAscii allowIs rounds afterLabel
      | some p =>
        let p := p.dropWhile isSpace
        let p := (((colon p).or (wideColon p)).getD p).dropWhile isSpace
        if p = [] then none else some p

/-- `ssh_field_value_one`. -/
def fieldValueOne (text label : Text) (isAscii allowIs : Bool) : Option Text :=
  fieldValueLoop label isAscii allowIs (text.length + 1) text

def sooner : Option Text → Option Text → Option Text
  | some p, some v => if p.length < v.length then some v else some p
  | some p, none => some p
  | none, v => v

def aliases (english : Text) : List Text :=
  if english = ascii "password" then [ascii "passwd", ascii "pwd", utf8 "口令"]
  else if english = ascii "account" then [utf8 "账户", utf8 "帐号"]
  else []

/-- `ssh_field_value`. -/
def fieldValue (english chinese : Text) (allowIs : Bool) (text : Text) : Option Text :=
  let one := (aliases english).foldl
    (fun p label => sooner p (fieldValueOne text label (label.head?.all (· < 128)) allowIs))
    (fieldValueOne text english true allowIs)
  sooner one (fieldValueOne text chinese false allowIs)

/-! ### The values -/

/-- The loop of `ssh_field_token`: the text from the end of the value on. -/
def bareEnd : Text → Text
  | [] => []
  | b :: rest =>
    if isSpace b ∨ b = 44 ∨ b = 59 ∨ [utf8 "，", utf8 "。", utf8 "；"].any (·.isPrefixOf (b :: rest)) then b :: rest
    else bareEnd rest

def strchr (b : UInt8) (text : Text) : Option Text :=
  if b ∈ text then some (text.dropWhile (· ≠ b)) else none

def tokenBetween (maxLen : Nat) (start stop : Text) : Option (Text × Text) :=
  let n := start.length - stop.length
  if n = 0 ∨ maxLen < n then none else some (start.take n, stop)

/-- `ssh_field_token`: the value, and the text from its end on. -/
def fieldToken (maxLen : Nat) : Text → Option (Text × Text)
  | [] => none
  | b :: rest =>
    if b = 39 ∨ b = 34 then (strchr b rest).bind (tokenBetween maxLen rest)
    else tokenBetween maxLen (b :: rest) (bareEnd (b :: rest))

def passwordAt : Text → Option Text :=
  fieldValue (ascii "password") (utf8 "密码") true

def passwordToken : Text → Option (Text × Text) :=
  fieldToken 1024

/-! ### Preparing -/

/-- Whether a prompt is about SSH; `saved` where the chat has a profile. -/
def sshIntent (stateRoot : Text) (saved : Bool) (prompt : Text) : Bool :=
  let has (s : String) := (strstr (utf8 s) prompt).isSome
  let field (english chinese : String) := (fieldValue (ascii english) (utf8 chinese) false prompt).isSome
  let password := (passwordAt prompt).isSome
  ((findAscii prompt (ascii "ssh")).isSome ∨ has "远程登录" ∨ has "登录服务器" ∨ has "连接服务器" ∨ has "登录环境" ∨
      has "连接环境" ∨ has "链接环境" ∨ ((has "登录" ∨ has "连接") ∧ password)) ∨
    (password ∧ (field "host" "主机" ∨ field "ip" "地址" ∨ field "server" "服务器" ∨ field "username" "用户名" ∨
      field "user" "用户" ∨ field "account" "账号")) ∨
    (stateRoot ≠ [] ∧ (password ∨ field "username" "用户名" ∨ field "account" "账号") ∧ saved)

def sameLoop (password : Text) : (rounds : Nat) → Text → Bool
  | 0, _ => true
  | rounds + 1, next =>
    match passwordAt next with
    | none => true
    | some at' =>
      match passwordToken at' with
      | none => false
      | some (other, nextEnd) => 4 ≤ password.length ∧ password = other ∧ sameLoop password rounds nextEnd

def marker : Text :=
  ascii "[LOCAL_SSH_PASSWORD]"

def isPlaceholder (password : Text) : Bool :=
  (ascii "[REDACTED:").isPrefixOf password ∨ password = marker

/-- `ssh_replace_secret`; a short password is replaced where its label is. -/
def replaceSecret (prompt secret spanStart spanEnd : Text) : Option Text :=
  if 4 ≤ secret.length then
    let found := countLoop secret (prompt.length + 1) prompt
    if found = 0 ∨ 128 < found then none else some (replaceLoop secret marker (prompt.length + 1) prompt)
  else some (prompt.take (prompt.length - spanStart.length) ++ marker ++ spanEnd)

/-- The end of `ssh_session_prepare_prompt`: `recognized` is what it reads in the text, and `stored` that the files
and the vault take it. -/
def settle (stateRoot : Text) (s : State) (session : Text) (recognized : Text → Parsed) (stored : Bool)
    (safe : Text) (password : Option Text) : Option Text :=
  if stateRoot = [] then if password.isSome then none else some safe
  else
    let parsed := { recognized safe with password }
    let host := (promptTarget s session parsed).host
    if invalidTarget parsed ∨ (password.isSome ∧ host.isNone) ∨ (host.isSome ∧ ¬ stored) then none else some safe

/-- What `ssh_session_prepare_prompt` does with a prompt about SSH. -/
def prepareSsh (stateRoot : Text) (s : State) (session : Text) (recognized : Text → Parsed) (stored : Bool)
    (prompt : Text) : Option Text :=
  match passwordAt prompt with
  | none => settle stateRoot s session recognized stored prompt none
  | some at' =>
    match passwordToken at' with
    | none => none
    | some (password, stop) =>
      if ¬ sameLoop password (stop.length + 1) stop then none
      else if isPlaceholder password then settle stateRoot s session recognized stored prompt none
      else
        match replaceSecret prompt password at' stop with
        | none => none
        | some safe => settle stateRoot s session recognized stored safe (some password)

def sessionName (session : Text) : Text :=
  if session = [] then ascii "default" else session

/-- `ssh_session_prepare_prompt`. -/
def preparePrompt (stateRoot : Text) (s : State) (session : Text) (recognized : Text → Parsed) (stored : Bool)
    (prompt : Text) : Option Text :=
  if sshIntent stateRoot (sessionProfileGet s (sessionName session) none).isSome prompt then
    prepareSsh stateRoot s (sessionName session) recognized stored prompt
  else some prompt

/-! ### What a prepared prompt is -/

/-- A labelled password of a prompt: the first, or one behind it; `none` where it is malformed. -/
inductive Labelled : Text → Option Text → Prop where
  | first {prompt at' : Text} :
      passwordAt prompt = some at' → Labelled prompt ((passwordToken at').map Prod.fst)
  | later {prompt at' token stop : Text} {value : Option Text} :
      passwordAt prompt = some at' → passwordToken at' = some (token, stop) → Labelled stop value →
        Labelled prompt value

def extracted (prompt : Text) : Option Text :=
  (((passwordAt prompt).bind passwordToken).map Prod.fst).filter fun password => ¬ isPlaceholder password

def places (between : Text) : List Text → List Nat
  | piece :: next :: rest =>
    piece.length :: (places between (next :: rest)).map fun j => piece.length + between.length + j
  | _ => []

/-- Markers have taken the place of the secret, and wherever the secret still is, it reaches into a marker. -/
def Redacted (secret prompt safe : Text) : Prop :=
  ∃ pieces, prompt = joined secret pieces ∧ safe = joined marker pieces ∧
    ∀ i, OccursAt secret safe i → ∃ j ∈ places marker pieces, i < j + marker.length ∧ j < i + secret.length

def Refused (stateRoot : Text) (s : State) (session : Text) (parsed : Parsed) (stored : Bool) : Prop :=
  stateRoot ≠ [] ∧ (invalidTarget parsed = true ∨ (promptTarget s session parsed).host.isSome = true ∧ stored = false)

def SomeDiffer (prompt : Text) : Prop :=
  ∃ a b, Labelled prompt a ∧ Labelled prompt b ∧ a ≠ b

structure Prepared (prompt : Text) (refused : Prop) (result : Option Text) : Prop where
  redacted : ∀ secret, extracted prompt = some secret → 4 ≤ secret.length → ∀ safe ∈ result, Redacted secret prompt safe
  unambiguous : SomeDiffer prompt → result = none
  wellFormed : Labelled prompt none → result = none
  unchanged : extracted prompt = none →
    result = some prompt ∨ result = none ∧ (SomeDiffer prompt ∨ Labelled prompt none ∨ refused)

/-! ### The labels are found in the text -/

variable {text found label p behind value stop token : Text} {isAscii allowIs : Bool} {rounds : Nat}

theorem findAsciiLoop_spec {word : Text} {before : Option UInt8}
    (search : findAsciiLoop word before text = some found) : found ≠ [] ∧ found <:+ text := by
  induction text generalizing before with
  | nil => cases search
  | cons b rest ih =>
    rw [findAsciiLoop] at search
    split at search
    · cases search
      exact ⟨List.cons_ne_nil _ _, List.suffix_refl _⟩
    · obtain ⟨nonempty, inside⟩ := ih search
      exact ⟨nonempty, inside.trans (List.suffix_cons _ _)⟩

theorem findLabel_spec (nonempty : label ≠ []) (search : findLabel isAscii label text = some found) :
    found ≠ [] ∧ found <:+ text := by
  unfold findLabel at search
  split at search
  · exact findAsciiLoop_spec search
  · obtain ⟨starts, inside⟩ := strstr_spec search
    refine ⟨?_, inside⟩
    rintro rfl
    exact nonempty (List.prefix_nil.mp starts)

theorem length_behind (nonempty : label ≠ []) (search : findLabel isAscii label text = some found) :
    (found.drop label.length).length < text.length := by
  obtain ⟨some', inside⟩ := findLabel_spec nonempty search
  have shorter := inside.length_le
  have first := List.length_pos_iff.mpr some'
  have second := List.length_pos_iff.mpr nonempty
  rw [List.length_drop]
  omega

theorem colon_suffix (found : (colon p).or (wideColon p) = some behind) : behind <:+ p := by
  rcases Option.or_eq_some_iff.mp found with narrow | ⟨-, wide⟩
  · cases p with
    | nil => cases narrow
    | cons b rest =>
      rw [colon] at narrow
      split at narrow
      · cases narrow
        exact (List.dropWhile_suffix _).trans (List.suffix_cons _ _)
      · cases narrow
  · unfold wideColon at wide
    split at wide
    · cases wide
      exact List.drop_suffix _ _
    · cases wide

theorem wordIs_suffix (found : wordIs p = some behind) : behind <:+ p := by
  unfold wordIs at found
  split at found
  · split at found
    · cases found
      exact (List.dropWhile_suffix _).trans ⟨[_, _, _], rfl⟩
    · cases found
  · cases found

theorem separator_suffix {afterLabel : Text} (found : separator isAscii allowIs afterLabel = some behind) :
    behind <:+ afterLabel := by
  have spaces : afterLabel.dropWhile isSpace <:+ afterLabel := List.dropWhile_suffix _
  rw [separator] at found
  split at found
  · rename_i colon
    cases found
    exact (colon_suffix colon).trans spaces
  · split at found
    · cases found
      exact (List.drop_suffix _ _).trans spaces
    · split at found
      · rename_i word
        cases found
        exact (wordIs_suffix word).trans spaces
      · split at found
        · cases found
          exact spaces
        · split at found
          · cases found
            exact spaces
          · cases found

theorem value_suffix (p : Text) :
    (((colon (p.dropWhile isSpace)).or (wideColon (p.dropWhile isSpace))).getD (p.dropWhile isSpace)).dropWhile isSpace
      <:+ p := by
  have spaces : p.dropWhile isSpace <:+ p := List.dropWhile_suffix _
  refine (List.dropWhile_suffix _).trans ?_
  cases found : (colon (p.dropWhile isSpace)).or (wideColon (p.dropWhile isSpace)) with
  | none => exact spaces
  | some behind => exact (colon_suffix found).trans spaces

theorem fieldValueLoop_suffix (nonempty : label ≠ []) {cursor : Text}
    (found : fieldValueLoop label isAscii allowIs rounds cursor = some value) : value <:+ cursor := by
  induction rounds generalizing cursor with
  | zero => cases found
  | succ rounds ih =>
    rw [fieldValueLoop] at found
    split at found
    · cases found
    · rename_i search
      have inside := (List.drop_suffix label.length _).trans (findLabel_spec nonempty search).2
      dsimp only at found
      split at found
      · exact (ih found).trans inside
      · rename_i separated
        split at found
        · cases found
        · cases found
          exact (value_suffix _).trans ((separator_suffix separated).trans inside)

theorem fieldValueLoop_enough (nonempty : label ≠ []) {cursor : Text} (enough : cursor.length < rounds) :
    fieldValueLoop label isAscii allowIs rounds cursor = fieldValueOne cursor label isAscii allowIs := by
  suffices next : ∀ {rounds : Nat} {cursor : Text}, cursor.length < rounds →
      fieldValueLoop label isAscii allowIs (rounds + 1) cursor = fieldValueLoop label isAscii allowIs rounds cursor by
    induction rounds, enough using Nat.le_induction with
    | base => rfl
    | succ rounds enough ih => rw [next enough, ih]
  intro rounds cursor enough
  induction rounds generalizing cursor with
  | zero => cases enough
  | succ rounds ih =>
    rw [fieldValueLoop, fieldValueLoop]
    cases search : findLabel isAscii label cursor with
    | none => rfl
    | some found =>
      have shorter := length_behind nonempty search
      have same := @ih (found.drop label.length) (by omega)
      dsimp only
      rw [same]

theorem sooner_suffix {p v : Option Text} (left : ∀ value, p = some value → value <:+ text)
    (right : ∀ value, v = some value → value <:+ text) (found : sooner p v = some value) : value <:+ text := by
  unfold sooner at found
  split at found
  · split at found
    · exact right _ found
    · exact left _ found
  · exact left _ found
  · exact right _ found

theorem fieldValue_suffix {english chinese : Text} (nonempty : english ≠ [] ∧ chinese ≠ [])
    (found : fieldValue english chinese allowIs text = some value) : value <:+ text := by
  have labels : ∀ label ∈ aliases english, label ≠ [] := by
    unfold aliases
    split
    · decide +kernel
    · split
      · decide +kernel
      · exact nofun
  refine sooner_suffix ?_ (fun _ => fieldValueLoop_suffix nonempty.2) found
  refine List.foldlRecOn (motive := fun p => ∀ value, p = some value → value <:+ text) _ _
    (fun _ => fieldValueLoop_suffix nonempty.1) fun p before label member value => ?_
  exact sooner_suffix before fun _ => fieldValueLoop_suffix (labels label member)

theorem passwordAt_suffix (found : passwordAt text = some value) : value <:+ text :=
  fieldValue_suffix (by decide +kernel) found

theorem tokenBetween_spec {maxLen : Nat} {start : Text}
    (found : tokenBetween maxLen start stop = some (token, behind)) : token ≠ [] ∧ behind.length < start.length := by
  rw [tokenBetween] at found
  split at found
  · cases found
  · rename_i fits
    cases found
    rw [← List.length_pos_iff, List.length_take]
    omega

theorem fieldToken_spec {maxLen : Nat} (found : fieldToken maxLen p = some (token, behind)) :
    token ≠ [] ∧ behind.length < p.length := by
  cases p with
  | nil => cases found
  | cons b rest =>
    rw [fieldToken] at found
    split at found
    · obtain ⟨stop, -, between⟩ := Option.bind_eq_some_iff.mp found
      obtain ⟨nonempty, shorter⟩ := tokenBetween_spec between
      exact ⟨nonempty, Nat.lt_succ_of_lt shorter⟩
    · exact tokenBetween_spec found

/-! ### The labelled passwords -/

variable {prompt at' password : Text}

theorem Labelled.of_token {value : Option Text} (label : passwordAt prompt = some at')
    (token : (passwordToken at').map Prod.fst = value) : Labelled prompt value :=
  token ▸ .first label

theorem not_labelled (none' : passwordAt prompt = none) (value : Option Text) : ¬ Labelled prompt value := by
  intro labelled
  cases labelled with
  | first here => rw [none'] at here; cases here
  | later here => rw [none'] at here; cases here

theorem labelled_iff (label : passwordAt prompt = some at') (between : passwordToken at' = some (token, stop))
    {value : Option Text} : Labelled prompt value ↔ value = some token ∨ Labelled stop value := by
  constructor
  · intro labelled
    cases labelled with
    | first here =>
      obtain rfl := Option.some.inj (label.symm.trans here)
      exact .inl (by rw [between]; rfl)
    | later here between' more =>
      obtain rfl := Option.some.inj (label.symm.trans here)
      obtain ⟨-, rfl⟩ := Prod.mk.inj (Option.some.inj (between.symm.trans between'))
      exact .inr more
  · rintro (rfl | more)
    · exact .of_token label (by rw [between]; rfl)
    · exact .later label between more

theorem sameLoop_iff {next : Text} (enough : next.length < rounds) :
    sameLoop password rounds next = true ↔
      ∀ value, Labelled next value → 4 ≤ password.length ∧ value = some password := by
  induction rounds generalizing next with
  | zero => cases enough
  | succ rounds ih =>
    rw [sameLoop]
    cases label : passwordAt next with
    | none => exact iff_of_true rfl fun value labelled => absurd labelled (not_labelled label value)
    | some at' =>
      have inside := (passwordAt_suffix label).length_le
      dsimp only
      cases token : passwordToken at' with
      | none =>
        refine iff_of_false Bool.false_ne_true fun every => ?_
        cases (every none (.of_token label (by rw [token]; rfl))).2
      | some value =>
        obtain ⟨other, stop⟩ := value
        have shorter := (fieldToken_spec token).2
        rw [decide_eq_true_iff, ih (by omega)]
        constructor
        · rintro ⟨long, rfl, behind⟩ value labelled
          rcases (labelled_iff label token).mp labelled with rfl | more
          · exact ⟨long, rfl⟩
          · exact behind value more
        · intro every
          obtain ⟨long, same⟩ := every _ ((labelled_iff label token).mpr (.inl rfl))
          exact ⟨long, (Option.some.inj same).symm, fun value more =>
            every value ((labelled_iff label token).mpr (.inr more))⟩

/-! ### The replaced password -/

variable {secret : Text}

theorem occursAt_front {front : Text} {i : Nat} (inside : i + secret.length ≤ front.length)
    (occurs : OccursAt secret (front ++ behind) i) : OccursAt secret front i := by
  rw [OccursAt, List.drop_append_of_le_length (by omega)] at occurs
  exact List.prefix_of_prefix_length_le occurs (List.prefix_append _ _) (by rw [List.length_drop]; omega)

theorem occurs_overlaps {between : Text} (nonempty : secret ≠ []) (pieces : List Text)
    (clean : ∀ piece ∈ pieces, ∀ i, ¬ OccursAt secret piece i) {i : Nat}
    (occurs : OccursAt secret (joined between pieces) i) :
    ∃ j ∈ places between pieces, i < j + between.length ∧ j < i + secret.length := by
  induction pieces generalizing i with
  | nil => exact absurd (List.prefix_nil.mp (List.drop_nil ▸ occurs)) nonempty
  | cons piece rest ih =>
    cases rest with
    | nil => exact absurd occurs (clean piece List.mem_cons_self i)
    | cons next rest =>
      rw [FileEdit.joined_cons _ _ (List.cons_ne_nil _ _), List.append_assoc] at occurs
      rcases Nat.lt_or_ge piece.length (i + secret.length) with reaches | inside
      · rcases Nat.lt_or_ge i (piece.length + between.length) with starts | behind
        · exact ⟨piece.length, List.mem_cons_self, starts, reaches⟩
        · -- it starts behind the first piece and what follows it
          obtain ⟨k, rfl⟩ := Nat.exists_eq_add_of_le behind
          rw [← List.append_assoc, ← List.length_append, OccursAt.append_left] at occurs
          obtain ⟨j, place, starts, reaches⟩ :=
            ih (fun piece member => clean piece (List.mem_cons_of_mem _ member)) occurs
          exact ⟨_, List.mem_cons_of_mem _ (List.mem_map_of_mem place), by omega, by omega⟩
      · exact absurd (occursAt_front inside occurs) (clean piece List.mem_cons_self i)

theorem replaceSecret_redacted {spanStart spanEnd safe : Text} (long : 4 ≤ secret.length)
    (replaced : replaceSecret prompt secret spanStart spanEnd = some safe) : Redacted secret prompt safe := by
  have nonempty : secret ≠ [] := List.ne_nil_of_length_pos (by omega)
  obtain ⟨whole, clean⟩ := FileEdit.pieces_spec nonempty prompt (Nat.le_succ prompt.length)
  rw [replaceSecret, if_pos long] at replaced
  dsimp only at replaced
  split at replaced
  · cases replaced
  · cases replaced
    rw [FileEdit.replaceLoop_eq]
    exact ⟨_, whole.symm, rfl, fun i => occurs_overlaps nonempty _ clean⟩

/-! ### Preparing -/

variable {stateRoot session safe result : Text} {s : State} {recognized : Text → Parsed} {stored : Bool}

theorem settle_eq {password : Option Text}
    (settled : settle stateRoot s session recognized stored safe password = some result) : result = safe := by
  rw [settle] at settled
  split at settled
  · split at settled
    · cases settled
    · cases settled
      rfl
  · dsimp only at settled
    split at settled
    · cases settled
    · cases settled
      rfl

theorem settle_none :
    settle stateRoot s session recognized stored safe none = some safe ∨
      settle stateRoot s session recognized stored safe none = none ∧
        Refused stateRoot s session { recognized safe with password := none } stored := by
  rw [settle]
  split
  · exact .inl rfl
  · rename_i root
    dsimp only
    split
    · rename_i refused
      simp only [Option.isSome_none, Bool.false_eq_true, false_and, false_or, Bool.not_eq_true] at refused
      exact .inr ⟨rfl, root, refused⟩
    · exact .inl rfl

theorem extracted_eq (label : passwordAt prompt = some at') (token : passwordToken at' = some (password, stop)) :
    extracted prompt = if isPlaceholder password then none else some password := by
  rw [extracted, label, Option.bind_some, token, Option.map_some, Option.filter_some]
  cases isPlaceholder password <;> rfl

theorem isPlaceholder_long (placeholder : isPlaceholder password = true) : 4 ≤ password.length := by
  rw [isPlaceholder, decide_eq_true_iff] at placeholder
  rcases placeholder with starts | rfl
  · have length := (List.isPrefixOf_iff_prefix.mp starts).length_le
    have ten : (ascii "[REDACTED:").length = 10 := by decide +kernel
    omega
  · decide +kernel

theorem Prepared.rejected {refused : Prop}
    (reason : extracted prompt = none → SomeDiffer prompt ∨ Labelled prompt none ∨ refused) :
    Prepared prompt refused none where
  redacted := nofun
  unambiguous := fun _ => rfl
  wellFormed := fun _ => rfl
  unchanged := fun empty => .inr ⟨rfl, reason empty⟩

theorem Prepared.untouched (empty : extracted prompt = none) (alike : ¬ SomeDiffer prompt)
    (formed : ¬ Labelled prompt none) :
    Prepared prompt (Refused stateRoot s session { recognized prompt with password := none } stored)
      (settle stateRoot s session recognized stored prompt none) where
  redacted := fun secret found => by rw [empty] at found; cases found
  unambiguous := fun differ => absurd differ alike
  wellFormed := fun labelled => absurd labelled formed
  unchanged := fun _ => settle_none.imp_right fun ⟨none', refused⟩ => ⟨none', .inr (.inr refused)⟩

theorem prepareSsh_prepared (stateRoot : Text) (s : State) (session : Text) (recognized : Text → Parsed) (stored : Bool)
    (prompt : Text) :
    Prepared prompt (Refused stateRoot s session { recognized prompt with password := none } stored)
      (prepareSsh stateRoot s session recognized stored prompt) := by
  rw [prepareSsh]
  cases label : passwordAt prompt with
  | none =>
    have empty : extracted prompt = none := by rw [extracted, label]; rfl
    exact .untouched empty (fun ⟨_, _, labelled, _⟩ => not_labelled label _ labelled) (not_labelled label none)
  | some at' =>
    dsimp only
    cases token : passwordToken at' with
    | none => exact .rejected fun _ => .inr (.inl (.of_token label (by rw [token]; rfl)))
    | some value =>
      obtain ⟨password, stop⟩ := value
      have taken := extracted_eq label token
      have loop := @sameLoop_iff _ password _ (Nat.lt_succ_self stop.length)
      dsimp only
      split
      · rename_i differs
        refine .rejected fun empty => .inl ?_
        -- a placeholder is long, so another labelled password is different
        have placeholder : isPlaceholder password = true := by
          rw [taken] at empty
          split at empty
          · assumption
          · cases empty
        rw [loop] at differs
        push Not at differs
        obtain ⟨value, labelled, other⟩ := differs
        exact ⟨some password, value, (labelled_iff label token).mpr (.inl rfl),
          (labelled_iff label token).mpr (.inr labelled), (other (isPlaceholder_long placeholder)).symm⟩
      · rename_i same
        have every : ∀ value, Labelled prompt value → value = some password := fun value labelled =>
          ((labelled_iff label token).mp labelled).elim id fun more => (loop.mp (not_not.mp same) value more).2
        have alike : ¬ SomeDiffer prompt := fun ⟨a, b, left, right, differ⟩ =>
          differ ((every a left).trans (every b right).symm)
        have formed : ¬ Labelled prompt none := fun labelled => nomatch every none labelled
        split
        · rename_i placeholder
          exact .untouched (taken.trans (if_pos placeholder)) alike formed
        · rename_i real
          rw [if_neg real] at taken
          refine
            { redacted := fun secret found long safe prepared => ?_
              unambiguous := fun differ => absurd differ alike
              wellFormed := fun labelled => absurd labelled formed
              unchanged := fun empty => by rw [taken] at empty; cases empty }
          obtain rfl := Option.some.inj (taken.symm.trans found)
          cases replaced : replaceSecret prompt password at' stop with
          | none =>
            rw [replaced] at prepared
            cases prepared
          | some text =>
            rw [replaced] at prepared
            obtain rfl := settle_eq prepared
            exact replaceSecret_redacted long replaced

/-- A prompt that is not about SSH stays as it is. In one that is, a password of at least four bytes is replaced
everywhere, only one may be given, and without one the text stays as it is or is refused. -/
theorem preparePrompt_exact (stateRoot : Text) (s : State) (session : Text) (recognized : Text → Parsed) (stored : Bool)
    (prompt : Text) :
    if sshIntent stateRoot (sessionProfileGet s (sessionName session) none).isSome prompt then
      Prepared prompt (Refused stateRoot s (sessionName session) { recognized prompt with password := none } stored)
        (preparePrompt stateRoot s session recognized stored prompt)
    else preparePrompt stateRoot s session recognized stored prompt = some prompt := by
  rw [preparePrompt]
  split
  · exact prepareSsh_prepared _ _ _ _ _ _
  · rfl

/-- Two passwords stay in a prompt that is not about SSH, and one without its closing quote is rejected. -/
theorem preparePrompt_loose :
    let noTarget : Parsed :=
      { host := none, user := none, environment := none, password := none, port := 22, invalidTarget := false }
    let two := ascii "password: abcd password: efgh"
    let unclosed := ascii "ssh password: 'abcd"
    (SomeDiffer two ∧ preparePrompt (ascii "/s") empty [] (fun _ => noTarget) true two = some two) ∧
      extracted unclosed = none ∧ preparePrompt (ascii "/s") empty [] (fun _ => noTarget) true unclosed = none := by
  refine ⟨⟨?_, by decide +kernel⟩, by decide +kernel, by decide +kernel⟩
  have first : passwordAt (ascii "password: abcd password: efgh") = some (ascii "abcd password: efgh") := by
    decide +kernel
  have token : passwordToken (ascii "abcd password: efgh") = some (ascii "abcd", ascii " password: efgh") := by
    decide +kernel
  have second : passwordAt (ascii " password: efgh") = some (ascii "efgh") := by decide +kernel
  exact ⟨some (ascii "abcd"), some (ascii "efgh"), (labelled_iff first token).mpr (.inl rfl),
    (labelled_iff first token).mpr (.inr (.of_token second (by decide +kernel))), by decide +kernel⟩

end CognitiveOs.Action.Ssh
