import Anodizer.Git.Spelling
import Anodizer.Lib.Lines

/-! # The bump of a release

The messages of the commits since the previous tag ask for a bump. A token in
a subject comes first, then the type of the commit, then the default.
-/

namespace Anodizer.Tag

open Template (Text CharTables)
open Git

/-! ### Commits -/

inductive ConventionalLevel
  | patch
  | minor
  | major
  deriving DecidableEq, Repr

namespace ConventionalLevel

def rank : ConventionalLevel → ℕ
  | patch => 0
  | minor => 1
  | major => 2

instance : Max ConventionalLevel := ⟨fun a b => if a.rank ≤ b.rank then b else a⟩

end ConventionalLevel

/-- The text before the first such character, and the text after it. -/
def splitOnce (c : Char) (s : Text) : Option (Text × Text) :=
  if c ∈ s then some (s.takeWhile (· ≠ c), (s.dropWhile (· ≠ c)).tail) else none

def subject (msg : Text) : Text := (Lines.lines msg).head?.getD []

/-- The type of a commit before its scope, and what follows the scope. -/
def cutScope (ty : Text) : Text × Text :=
  match splitOnce '(' ty with
  | none => (ty, [])
  | some (h, scope) => (h, ((splitOnce ')' scope).map Prod.snd).getD [])

/-- The release level that a commit message implies. -/
def classifyCommit (msg : Text) : Option ConventionalLevel :=
  if Template.contains msg "BREAKING CHANGE".toList ||
      Template.contains msg "BREAKING-CHANGE".toList then
    some .major
  else
    (splitOnce ':' (Template.trimStart (subject msg))).bind fun (ty, _) =>
      let (head, marker) := cutScope ty
      if marker.head? = some '!' || ty.getLast? = some '!' then some .major
      else if Template.trim head = "feat".toList then some .minor
      else if Template.trim head ∈ ["fix".toList, "perf".toList, "revert".toList] then some .patch
      else none

example : classifyCommit "refactor(core)!: drop the shim".toList = some .major := by decide +kernel
example : classifyCommit "chore(release): bump core".toList = none := by decide +kernel

/-! ### The bump -/

/-- The tag configuration with its defaults, for one tagging unit. -/
structure ResolvedConfig where
  defaultBump : Text
  bumpMinorPreMajor : Bool
  bumpPatchForMinorPreMajor : Bool
  tagPrefix : Text
  tagContext : Text
  branchHistory : Text
  initialVersion : Text
  prerelease : Bool
  prereleaseSuffix : Text
  majorStringToken : Text
  minorStringToken : Text
  patchStringToken : Text
  noneStringToken : Text
  expandSquashMerges : Bool
  deriving DecidableEq, Repr

/-- The configuration of a project that sets nothing. -/
def ResolvedConfig.default : ResolvedConfig where
  defaultBump := "none".toList
  bumpMinorPreMajor := false
  bumpPatchForMinorPreMajor := false
  tagPrefix := ['v']
  tagContext := "repo".toList
  branchHistory := "compare".toList
  initialVersion := "0.0.0".toList
  prerelease := false
  prereleaseSuffix := "beta".toList
  majorStringToken := "#major".toList
  minorStringToken := "#minor".toList
  patchStringToken := "#patch".toList
  noneStringToken := "#none".toList
  expandSquashMerges := false

inductive BumpKind
  | major
  | minor
  | patch
  | none
  deriving DecidableEq, Repr

/-- The token is a word of the subject. -/
def messageHasToken (msg token : Text) : Bool :=
  ((subject msg).splitOnP Template.isWhitespace).any (· = token)

/-- The strongest level of the messages. -/
def detectConventionalBump (messages : List Text) : Option BumpKind :=
  (messages.filterMap classifyCommit).max?.map fun
    | .major => .major
    | .minor => .minor
    | .patch => .patch

def detectBump (messages : List Text) (cfg : ResolvedConfig) : BumpKind :=
  let has token := messages.any (messageHasToken · token)
  if has cfg.majorStringToken then .major
  else if has cfg.minorStringToken then .minor
  else if has cfg.patchStringToken then .patch
  else if has cfg.noneStringToken then .none
  else (detectConventionalBump messages).getD <|
    if cfg.defaultBump = "major".toList then .major
    else if cfg.defaultBump = "minor".toList then .minor
    else if cfg.defaultBump = "patch".toList then .patch
    else .none

def hasExplicitBumpToken (messages : List Text) (cfg : ResolvedConfig) : Bool :=
  let has token := messages.any (messageHasToken · token)
  has cfg.majorStringToken || has cfg.minorStringToken || has cfg.patchStringToken

/-- Before the first major release an inferred bump may weigh less. -/
def demotePreMajor (bump : BumpKind) (baseMajor : ℕ)
    (bumpMinorPreMajor bumpPatchForMinorPreMajor : Bool) : BumpKind :=
  if baseMajor ≠ 0 then bump
  else match bump with
    | .major => if bumpMinorPreMajor then .minor else .major
    | .minor => if bumpPatchForMinorPreMajor then .patch else .minor
    | other => other

def detectBumpDemoted (u : CharTables) (messages : List Text) (cfg : ResolvedConfig)
    (prevTag : Option Text) : BumpKind :=
  if hasExplicitBumpToken messages cfg then detectBump messages cfg
  else demotePreMajor (detectBump messages cfg)
    (((prevTag.bind (parseSemverTag u)).map SemVer.major).getD 0)
    cfg.bumpMinorPreMajor cfg.bumpPatchForMinorPreMajor

/-! ### The bumped version -/

/-- The version without its prerelease and build metadata. -/
def release (v : SemVer) : SemVer := ⟨v.major, v.minor, v.patch, none, none⟩

/-- The next number, in the machine's integers. -/
def next (n : ℕ) : ℕ := (n + 1) % 2 ^ 64

/-- The next release. A number past the largest one wraps to zero. -/
def applyBump (v : SemVer) : BumpKind → SemVer
  | .major => ⟨next v.major, 0, 0, none, none⟩
  | .minor => ⟨v.major, next v.minor, 0, none, none⟩
  | .patch => ⟨v.major, v.minor, next v.patch, none, none⟩
  | .none => release v

section Order

variable {v w : SemVer} {bump : BumpKind}

theorem release_release (v : SemVer) : release (release v) = release v := rfl

theorem key_release_lt : (release v).key < (release w).key ↔
    v.major < w.major ∨ v.major = w.major ∧ (v.minor < w.minor ∨ v.minor = w.minor ∧
      v.patch < w.patch) := by
  simp [SemVer.key, release, Prod.Lex.toLex_lt_toLex]

/-- Versions of different releases are in the order of the releases. -/
theorem key_lt_of_release (h : (release v).key < (release w).key) : v.key < w.key := by
  rw [key_release_lt] at h
  simp only [SemVer.key, Prod.Lex.toLex_lt_toLex]
  rcases h with h | ⟨h₁, h | ⟨h₂, h₃⟩⟩
  · exact .inl h
  · exact .inr ⟨h₁, .inl h⟩
  · exact .inr ⟨h₁, .inr ⟨h₂, .inl h₃⟩⟩

theorem release_key_le (h : v.key ≤ w.key) : (release v).key ≤ (release w).key := by
  by_contra hlt
  exact absurd (key_lt_of_release (not_le.mp hlt)) (not_lt.mpr h)

/-- No number of the version is the largest one. -/
structure Bumpable (v : SemVer) : Prop where
  major : v.major + 1 < 2 ^ 64
  minor : v.minor + 1 < 2 ^ 64
  patch : v.patch + 1 < 2 ^ 64

theorem release_applyBump : release (applyBump v bump) = applyBump v bump := by
  cases bump <;> rfl

theorem lt_next {n : ℕ} (h : n + 1 < 2 ^ 64) : n < next n := by
  rw [next, Nat.mod_eq_of_lt h]
  exact Nat.lt_succ_self n

/-- A bump leads to a later release. -/
theorem lt_applyBump (h : Bumpable v) (hbump : bump ≠ .none) :
    (release v).key < (release (applyBump v bump)).key := by
  rw [key_release_lt]
  cases bump with
  | major => exact .inl (lt_next h.major)
  | minor => exact .inr ⟨rfl, .inl (lt_next h.minor)⟩
  | patch => exact .inr ⟨rfl, .inr ⟨rfl, lt_next h.patch⟩⟩
  | none => exact absurd rfl hbump

/-- The numbers of the version are machine integers. -/
structure InRange (v : SemVer) : Prop where
  major : v.major < 2 ^ 64
  minor : v.minor < 2 ^ 64
  patch : v.patch < 2 ^ 64

theorem InRange.applyBump (h : InRange v) : InRange (applyBump v bump) := by
  have hnext : ∀ n, next n < 2 ^ 64 := fun n => Nat.mod_lt _ (by decide)
  cases bump with
  | major => exact ⟨hnext _, Nat.two_pow_pos 64, Nat.two_pow_pos 64⟩
  | minor => exact ⟨h.major, hnext _, Nat.two_pow_pos 64⟩
  | patch => exact ⟨h.major, h.minor, hnext _⟩
  | none => exact ⟨h.major, h.minor, h.patch⟩

end Order

/-! ### Reading the version back -/

variable {u : CharTables} {v w : SemVer} {s : Text}

theorem parseSemverTag_inRange (h : parseSemverTag u s = some v) : InRange v := by
  have hparse : ∃ t, parseSemver u t = some v := by
    unfold parseSemverTag at h
    split at h
    · next hv => exact ⟨s, hv.trans h⟩
    · obtain ⟨caps, -, hcaps⟩ := Option.bind_eq_some_iff.mp h
      exact ⟨_, hcaps⟩
  obtain ⟨t, ht⟩ := hparse
  have hread := readable_of_parse ht
  exact ⟨hread.major, hread.minor, hread.patch⟩

/-- What follows the three numbers of a version is its prerelease and its build metadata. -/
theorem parseSemver_raw_append (hrange : InRange v) (hs : s.head?.all (· = '-')) :
    parseSemver u (v.rawVersionString ++ s) = some w ↔ ∃ pre build,
      s = SemVer.suffix '-' pre ++ SemVer.suffix '+' build ∧
      (∀ t ∈ pre, t ≠ [] ∧ ∀ c ∈ t, c ≠ '+') ∧ (∀ t ∈ build, t ≠ [] ∧ ∀ c ∈ t, c ≠ '\n') ∧
      w = ⟨v.major, v.minor, v.patch, pre, build⟩ := by
  constructor
  · intro h
    obtain ⟨lead, ⟨a, b, c, pre, build⟩, hlead, hvalid, htext, hvalue⟩ := parseSemver_eq_some.mp h
    have hmajor := isNumber_toDigits u v.major
    obtain rfl : lead = [] := by
      refine hlead.resolve_left ?_
      rintro rfl
      rw [SemVer.rawVersionString, List.append_assoc] at htext
      exact hmajor.append_ne (CharTables.not_digit u (by decide) (by decide)) htext
    have hhead : ∀ d ∈ s.head?, u.digit d = false := by
      intro d hd
      obtain rfl : d = '-' := by simpa [Option.mem_def.mp hd] using hs
      exact CharTables.not_digit u (by decide) (by decide)
    obtain ⟨rfl, rfl, rfl, rfl⟩ := Spelling.numbers_unique hmajor (isNumber_toDigits u v.minor)
      (isNumber_toDigits u v.patch) hvalid.major hvalid.minor hvalid.patch hhead
      (Spelling.suffixes_not_digit u pre build)
      (by simpa [SemVer.rawVersionString, Spelling.text] using htext)
    simp only [Spelling.value, parseU64_toDigits hrange.major, parseU64_toDigits hrange.minor,
      parseU64_toDigits hrange.patch, Option.bind_eq_bind, Option.bind_some, Option.some.injEq]
      at hvalue
    exact ⟨pre, build, rfl, hvalid.prerelease, hvalid.build, hvalue.symm⟩
  · rintro ⟨pre, build, rfl, hpre, hbuild, rfl⟩
    rw [← List.append_assoc]
    exact SemVer.Readable.parse (v := ⟨v.major, v.minor, v.patch, pre, build⟩)
      ⟨hrange.major, hrange.minor, hrange.patch, hpre, hbuild⟩

/-- A text that starts with three numbers is a version of that release. -/
theorem release_of_raw (hrange : InRange v) (hs : s.head?.all (· = '-'))
    (h : parseSemver u (v.rawVersionString ++ s) = some w) : release w = release v := by
  obtain ⟨pre, build, -, -, -, rfl⟩ := (parseSemver_raw_append hrange hs).mp h
  rfl

theorem parseSemver_raw (hrange : InRange v) :
    parseSemver u v.rawVersionString = some (release v) := by
  have hread : (release v).Readable := ⟨hrange.major, hrange.minor, hrange.patch, by simp [release],
    by simp [release]⟩
  simpa [SemVer.versionString, release, SemVer.suffix, SemVer.rawVersionString] using
    hread.parse (u := u)

end Anodizer.Tag
