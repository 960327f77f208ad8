import CognitiveOs.Infra.Scan
import Mathlib.Data.List.DropRight

/-!
# Capability patterns

The two matchers of capability patterns: `wild_match` of `plugin_runtime/capability.c`, and `cap_covers` of
`action/skill.c` with the gate that uses it.
-/

namespace CognitiveOs.PluginRuntime

open Infra

def star : UInt8 := 42

def dot : UInt8 := 46

def prefixLength (pat : Text) : Nat :=
  let plen := (pat.takeWhile (· ≠ star)).length
  if 0 < plen ∧ pat[plen - 1]? = some dot then plen - 1 else plen

/-- `strncmp(pat, s, n) == 0`, and `s` is long enough. -/
def startsAlike (pat s : Text) (n : Nat) : Bool :=
  if s.length < n then false else pat.take n = s.take n

def wildMatch (pat s : Text) : Bool :=
  if star ∉ pat then pat = s else startsAlike pat s (prefixLength pat)

/-- `capability_match`: one of the granted capabilities matches. -/
def capabilityMatch (caps : List Text) (pattern : Text) : Bool :=
  caps.any (wildMatch pattern)

def capCovers (granted need : Text) : Bool :=
  startsAlike granted need (prefixLength granted)

def required (cmd : Text) : List Text :=
  let has (s : String) := (strstr (ascii s) cmd).isSome
  (if has ">" || has "rm " || has "mv " || has "tee " then [ascii "fs.write"] else []) ++
    if has "curl" || has "wget" || has "http://" || has "https://" then [ascii "net"] else []

def tokens (capsCsv : Text) : List Text :=
  (((capsCsv.splitOn 44).filter fun tok => tok.length < 64).map fun tok =>
    (tok.dropWhile (· = 32)).rdropWhile (· = 32)).filter (· ≠ [])

/-- `caps_allow`: what is denied, if anything is. Without a list everything is allowed. -/
def capsAllow (capsCsv cmd : Option Text) : Option Text :=
  match capsCsv, cmd with
  | some csv, some cmd =>
    if csv = [] then none else (required cmd).find? fun need => !(tokens csv).any fun tok => capCovers tok need
  | _, _ => none

/-! ### What patterns mean -/

def dropDot (s : Text) : Text :=
  if s.getLast? = some dot then s.dropLast else s

def InNamespace (ns name : Text) : Prop :=
  ns = [] ∨ name = ns ∨ ns ++ [dot] <+: name

/-- A pattern without wildcard covers the equal name, and one that ends in its wildcard a namespace. -/
inductive Covers : Text → Text → Prop where
  | equal {name : Text} (plain : star ∉ name) : Covers name name
  | below {ns name : Text} (plain : star ∉ ns) (inside : InNamespace (dropDot ns) name) : Covers (ns ++ [star]) name

structure SameMeaning (pat name : Text) : Prop where
  agree : wildMatch pat name = capCovers pat name
  exact : star ∉ pat → (wildMatch pat name = true ↔ Covers pat name)
  wild : ∀ ns, star ∉ ns → pat = ns ++ [star] → (wildMatch pat name = true ↔ Covers pat name)

def stem (pat : Text) : Text :=
  dropDot (pat.takeWhile (· ≠ star))

/-- A pattern without wildcard is the name or its stem is no prefix of it, and behind the namespace of a pattern
that ends in its wildcard the name goes on with a dot only. -/
structure Strict (pat name : Text) : Prop where
  exact : star ∉ pat → stem pat <+: name → name = pat
  wild : ∀ ns, star ∉ ns → pat = ns ++ [star] → ∀ c rest, name = dropDot ns ++ c :: rest → dropDot ns = [] ∨ c = dot

/-! ### The matchers -/

variable {pat name : Text}

theorem take_prefixLength (pat : Text) : pat.take (prefixLength pat) = stem pat := by
  have whole : pat.take (pat.takeWhile (· ≠ star)).length = pat.takeWhile (· ≠ star) :=
    (List.prefix_iff_eq_take.mp (List.takeWhile_prefix _)).symm
  have last (n : Nat) (some : 0 < n) (within : n ≤ pat.length) : pat[n - 1]? = (pat.take n).getLast? := by
    rw [List.getLast?_eq_getElem?, List.length_take, Nat.min_eq_left within, List.getElem?_take_of_lt (by omega)]
  have within : (pat.takeWhile (· ≠ star)).length ≤ pat.length := (List.takeWhile_prefix _).length_le
  rw [stem, dropDot, ← whole, prefixLength]
  generalize (pat.takeWhile (· ≠ star)).length = n at within
  have final : (0 < n ∧ pat[n - 1]? = some dot) ↔ (pat.take n).getLast? = some dot := by
    rcases Nat.eq_zero_or_pos n with rfl | some
    · simp
    · rw [last n some within, and_iff_right some]
  by_cases dotted : (pat.take n).getLast? = some dot
  · rw [if_pos (final.mpr dotted), if_pos dotted, List.dropLast_eq_take, List.take_take, List.length_take]
    congr 1
    omega
  · rw [if_neg fun is => dotted (final.mp is), if_neg dotted]

theorem prefixLength_le (pat : Text) : prefixLength pat ≤ pat.length := by
  have within : (pat.takeWhile (· ≠ star)).length ≤ pat.length := (List.takeWhile_prefix _).length_le
  rw [prefixLength]
  split <;> omega

theorem startsAlike_iff {n : Nat} (within : n ≤ pat.length) : startsAlike pat name n = true ↔ pat.take n <+: name := by
  rw [startsAlike, List.prefix_iff_eq_take, List.length_take, Nat.min_eq_left within]
  split
  · rename_i short
    constructor
    · nofun
    · intro same
      have := congrArg List.length same
      rw [List.length_take, List.length_take] at this
      omega
  · exact decide_eq_true_iff

theorem capCovers_iff : capCovers pat name = true ↔ stem pat <+: name := by
  rw [capCovers, startsAlike_iff (prefixLength_le pat), take_prefixLength]

theorem wildMatch_plain (plain : star ∉ pat) : wildMatch pat name = true ↔ pat = name := by
  rw [wildMatch, if_pos plain, decide_eq_true_iff]

theorem wildMatch_star (wild : star ∈ pat) : wildMatch pat name = true ↔ stem pat <+: name := by
  rw [wildMatch, if_neg (not_not.mpr wild), startsAlike_iff (prefixLength_le pat), take_prefixLength]

/-! ### What they cover -/

theorem covers_plain (plain : star ∉ pat) : Covers pat name ↔ pat = name := by
  constructor
  · intro covers
    cases covers with
    | equal => rfl
    | below => simp at plain
  · rintro rfl
    exact .equal plain

theorem covers_wild {ns : Text} (plain : star ∉ ns) : Covers (ns ++ [star]) name ↔ InNamespace (dropDot ns) name := by
  constructor
  · intro covers
    generalize patIs : ns ++ [star] = pat at covers
    cases covers with
    | equal other => simp [← patIs] at other
    | below _ inside =>
      obtain rfl := List.append_cancel_right patIs
      exact inside
  · exact .below plain

theorem stem_wild {ns : Text} (plain : star ∉ ns) : stem (ns ++ [star]) = dropDot ns := by
  have before : ∀ c ∈ ns, (decide (c ≠ star)) = true := fun c inside =>
    decide_eq_true fun is => plain (is ▸ inside)
  rw [stem, List.takeWhile_append_of_pos before]
  simp

theorem inNamespace_iff {ns : Text} :
    (ns <+: name → InNamespace ns name) ↔ ∀ c rest, name = ns ++ c :: rest → ns = [] ∨ c = dot := by
  constructor
  · rintro inside c rest rfl
    rcases inside (List.prefix_append _ _) with root | itself | below
    · exact .inl root
    · simp at itself
    · right
      rw [List.prefix_append_right_inj] at below
      obtain ⟨rest', eq⟩ := below
      simpa using congrArg List.head? eq.symm
  · rintro strict ⟨rest, rfl⟩
    cases rest with
    | nil => exact .inr (.inl (List.append_nil _))
    | cons c rest =>
      rcases strict c rest rfl with root | rfl
      · exact .inl root
      · exact .inr (.inr ⟨rest, by simp⟩)

theorem Covers.stem_starts (covers : Covers pat name) : stem pat <+: name := by
  cases covers with
  | equal =>
    rw [← take_prefixLength]
    exact List.take_prefix _ _
  | below plain inside =>
    rw [stem_wild plain]
    rcases inside with root | rfl | below
    · rw [root]
      exact List.nil_prefix
    · exact List.prefix_rfl
    · exact (List.prefix_append _ _).trans below

theorem sameMeaning_iff (pat name : Text) : SameMeaning pat name ↔ Strict pat name := by
  constructor
  · intro same
    constructor
    · intro plain alike
      have covered := same.agree.trans (capCovers_iff.mpr alike)
      exact ((wildMatch_plain plain).mp covered).symm
    · rintro ns plain rfl
      have means := same.wild ns plain rfl
      rw [wildMatch_star (by simp), stem_wild plain, covers_wild plain] at means
      exact inNamespace_iff.mp means.mp
  · intro strict
    constructor
    · rw [Bool.eq_iff_iff, capCovers_iff]
      by_cases plain : star ∈ pat
      · rw [wildMatch_star plain]
      · rw [wildMatch_plain plain]
        constructor
        · rintro rfl
          rw [← take_prefixLength]
          exact List.take_prefix _ _
        · exact fun alike => (strict.exact plain alike).symm
    · intro plain
      rw [wildMatch_plain plain, covers_plain plain]
    · rintro ns plain rfl
      rw [wildMatch_star (by simp), stem_wild plain, covers_wild plain]
      refine ⟨inNamespace_iff.mpr (strict.wild ns plain rfl), fun inside => ?_⟩
      exact stem_wild plain ▸ (Covers.below plain inside).stem_starts

/-! ### The gates -/

theorem capsAllow_iff {csv cmd : Text} (listed : csv ≠ []) :
    capsAllow (some csv) (some cmd) = none ↔ ∀ need ∈ required cmd, ∃ tok ∈ tokens csv, stem tok <+: need := by
  simp only [capsAllow, if_neg listed, List.find?_eq_none, Bool.not_eq_true, Bool.not_eq_false', List.any_eq_true,
    capCovers_iff]

theorem capabilityMatch_iff {caps : List Text} :
    capabilityMatch caps pat = true ↔ ∃ cap ∈ caps, wildMatch pat cap = true := by
  rw [capabilityMatch, List.any_eq_true]

/-- The matchers agree on what a pattern means exactly where it is strict about the name; a command with a list is
allowed only what a pattern covers exactly when a pattern covers all it needs or no stem begins some of it; and
a pattern matches a granted capability only if it covers one exactly when it covers one, has no wildcard, or its
stem begins none. -/
theorem patterns_exact (pat name csv cmd : Text) (caps : List Text) :
    (SameMeaning pat name ↔ Strict pat name) ∧
      (csv ≠ [] →
        ((capsAllow (some csv) (some cmd) = none → ∀ need ∈ required cmd, ∃ tok ∈ tokens csv, Covers tok need) ↔
          (∀ need ∈ required cmd, ∃ tok ∈ tokens csv, Covers tok need) ∨
            ∃ need ∈ required cmd, ∀ tok ∈ tokens csv, ¬ stem tok <+: need)) ∧
      ((capabilityMatch caps pat = true → ∃ cap ∈ caps, Covers pat cap) ↔
        (∃ cap ∈ caps, Covers pat cap) ∨ star ∉ pat ∨ ∀ cap ∈ caps, ¬ stem pat <+: cap) := by
  refine ⟨sameMeaning_iff pat name, fun listed => ?_, ?_⟩
  · rw [capsAllow_iff listed]
    constructor
    · intro sound
      by_cases allowed : ∀ need ∈ required cmd, ∃ tok ∈ tokens csv, stem tok <+: need
      · exact .inl (sound allowed)
      · right
        push Not at allowed
        exact allowed
    · rintro (covered | ⟨need, needed, none⟩) allowed
      · exact covered
      · obtain ⟨tok, granted, alike⟩ := allowed need needed
        exact absurd alike (none tok granted)
  · rw [capabilityMatch_iff]
    by_cases plain : star ∈ pat
    · simp only [wildMatch_star plain, plain, not_true_eq_false, false_or]
      constructor
      · intro sound
        by_cases alike : ∃ cap ∈ caps, stem pat <+: cap
        · exact .inl (sound alike)
        · right
          push Not at alike
          exact alike
      · rintro (covered | none) ⟨cap, granted, alike⟩
        · exact covered
        · exact absurd alike (none cap granted)
    · simp only [wildMatch_plain plain, covers_plain plain, plain, not_false_eq_true, true_or, or_true, iff_true]
      exact id

/-- The skill layer takes "net" for a pattern of "network", both take "net.*" for one, and with "n" alone a
command may use the network. -/
theorem patterns_stray :
    ¬ SameMeaning (ascii "net") (ascii "network") ∧ ¬ SameMeaning (ascii "net.*") (ascii "network") ∧
      capsAllow (some (ascii "n")) (some (ascii "curl x")) = none ∧
      ¬ ∃ tok ∈ tokens (ascii "n"), Covers tok (ascii "net") := by
  refine ⟨fun same => ?_, fun same => ?_, by decide, ?_⟩
  · exact absurd same.agree (by decide)
  · have means := same.wild (ascii "net.") (by decide) rfl
    rw [show ascii "net.*" = ascii "net." ++ [star] from rfl, covers_wild (by decide)] at means
    rcases means.mp (by decide) with root | itself | below
    · exact absurd root (by decide)
    · exact absurd itself (by decide)
    · exact absurd below (by decide)
  · rintro ⟨tok, granted, covers⟩
    have only : tokens (ascii "n") = [ascii "n"] := by decide
    rw [only, List.mem_singleton] at granted
    rw [granted, covers_plain (by decide)] at covers
    exact absurd covers (by decide)

end CognitiveOs.PluginRuntime
