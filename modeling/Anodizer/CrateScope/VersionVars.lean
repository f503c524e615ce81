import Anodizer.CrateScope.TemplateVars
import Anodizer.PublishOnly.PerCrate

/-! # The version of a context

Nine variables spell out the tag and the version of a release. A context gets
them from its git information, from the version a template is rendered for, or
from the preserved manifest and the tag of a crate.
-/

namespace Anodizer.CrateScope

open Template (Text CharTables)
open Git

variable {J : Type}

/-! ### Contexts -/

structure GitInfo extends Tag.GitInfo where
  commit : Text
  shortCommit : Text
  branch : Text
  dirty : Bool
  semver : SemVer
  commitDate : Text
  commitTimestamp : Text
  previousTag : Option Text
  remoteUrl : Text
  summary : Text
  tagSubject : Text
  tagContents : Text
  tagBody : Text
  firstCommit : Option Text

structure Options where
  dryRun : Bool
  snapshot : Bool
  nightly : Bool
  merge : Bool
  singleTarget : Option Text
  selectedCrates : List Text
  allowSnapshotPublish : Bool

structure Context (J : Type) where
  vars : TemplateVars J
  config : Tag.Config
  tagPrefix : Option Text
  releaseDraft : Option Bool
  gitInfo : Option GitInfo
  plannedCrateVersions : Text → Option Text
  options : Options
  inDeterminismHarness : Bool

/-! ### Setters -/

/-- The tag and the version as texts. -/
def versionEntries (semver : SemVer) (tag : Text) : List (Text × Text) :=
  [("Tag".toList, tag), ("Version".toList, semver.versionString),
    ("RawVersion".toList, semver.rawVersionString), ("Base".toList, semver.rawVersionString),
    ("Major".toList, Nat.toDigits 10 semver.major), ("Minor".toList, Nat.toDigits 10 semver.minor),
    ("Patch".toList, Nat.toDigits 10 semver.patch),
    ("Prerelease".toList, semver.prerelease.getD []),
    ("BuildMetadata".toList, semver.buildMetadata.getD [])]

def setVersionVars (v : TemplateVars J) (semver : SemVer) (tag : Text) : TemplateVars J :=
  v.setAll (versionEntries semver tag)

/-- The variables that a template is rendered with for a version. -/
def varsForVersion (u : CharTables) (v : TemplateVars J) (version tag : Text) : TemplateVars J :=
  match parseSemver u version with
  | some semver => setVersionVars v semver tag
  | none =>
    v.setAll [("Version".toList, version), ("Tag".toList, tag), ("RawVersion".toList, []),
      ("Base".toList, []), ("Major".toList, []), ("Minor".toList, []), ("Patch".toList, []),
      ("Prerelease".toList, []), ("BuildMetadata".toList, [])]

def renderTemplateForVersion (u : CharTables) (render : TemplateVars J → Text → Except Text Text)
    (v : TemplateVars J) (template version tag : Text) : Except Text Text :=
  render (varsForVersion u v version tag) template

namespace Context

variable (ctx : Context J)

def gitEntries (info : GitInfo) : List (Text × Value J) :=
  [("FullCommit".toList, .text info.commit), ("Commit".toList, .text info.commit),
    ("ShortCommit".toList, .text info.shortCommit), ("Branch".toList, .text info.branch),
    ("CommitDate".toList, .text info.commitDate),
    ("CommitTimestamp".toList, .text info.commitTimestamp),
    ("IsGitDirty".toList, .bool info.dirty), ("IsGitClean".toList, .bool !info.dirty),
    ("GitTreeState".toList, .text (if info.dirty then "dirty".toList else "clean".toList)),
    ("GitURL".toList, .text info.remoteUrl), ("Summary".toList, .text info.summary),
    ("TagSubject".toList, .text info.tagSubject), ("TagContents".toList, .text info.tagContents),
    ("TagBody".toList, .text info.tagBody),
    ("PreviousTag".toList, .text (info.previousTag.getD [])),
    ("FirstCommit".toList, .text (info.firstCommit.getD []))]

/-- The tag in a monorepo, with and without the namespace. -/
def monorepoEntries (info : GitInfo) (p : Text) : List (Text × Value J) :=
  [("PrefixedTag".toList, .text info.tag), ("Tag".toList, .text (stripMonorepoPrefix info.tag p)),
    ("Version".toList, .text info.semver.versionString),
    ("PrefixedPreviousTag".toList, .text (info.previousTag.getD [])),
    ("PreviousTag".toList, .text (stripMonorepoPrefix (info.previousTag.getD []) p)),
    ("PrefixedSummary".toList, .text info.summary),
    ("Summary".toList, .text (stripMonorepoPrefix info.summary p))]

/-- The tag outside a monorepo, with the configured prefix. -/
def prefixedEntries (info : GitInfo) : List (Text × Value J) :=
  let tagPrefix := ctx.tagPrefix.getD []
  let prevTag := info.previousTag.getD []
  [("PrefixedTag".toList, .text (composePrefix tagPrefix info.tag)),
    ("PrefixedPreviousTag".toList,
      .text (if prevTag = [] then [] else composePrefix tagPrefix prevTag)),
    ("PrefixedSummary".toList, .text (composePrefix tagPrefix info.summary))]

def modeEntries (nightlyBuild : ℕ) : List (Text × Value J) :=
  [("NightlyBuild".toList, .number nightlyBuild), ("IsSnapshot".toList, .bool ctx.options.snapshot),
    ("IsNightly".toList, .bool ctx.options.nightly),
    ("IsHarness".toList, .bool ctx.inDeterminismHarness),
    ("IsDraft".toList, .bool (ctx.releaseDraft.getD false)),
    ("IsSingleTarget".toList, .bool ctx.options.singleTarget.isSome),
    ("IsRelease".toList, .bool (!ctx.options.snapshot && !ctx.options.nightly)),
    ("IsMerging".toList, .bool ctx.options.merge)]

/-- Set the variables that follow from the git information. A failed count of the commits since
the last tag counts none. -/
def populateGitVars (countCommitsSinceLastTag : Option Text → Option ℕ) : Context J :=
  let monorepoPrefix := ctx.config.monorepoTagPrefix
  let v :=
    match ctx.gitInfo with
    | none => ctx.vars
    | some info =>
      let v := (setVersionVars ctx.vars info.semver info.tag).writeAll (gitEntries info)
      match monorepoPrefix with
      | some p => v.writeAll (monorepoEntries info p)
      | none => v.writeAll (ctx.prefixedEntries info)
  let nightlyBuild :=
    if ctx.gitInfo.isSome then (countCommitsSinceLastTag monorepoPrefix).getD 0 else 0
  { ctx with vars := v.writeAll (ctx.modeEntries nightlyBuild) }

end Context

/-- Anchor the version of the first preserved manifest that records one. -/
def applyPerCrateVersion (env : PublishOnly.Env) (crateDist : Text) (v : TemplateVars J) :
    TemplateVars J :=
  match (env.peekPreservedVersion crateDist).bind (parseSemver env.tables) with
  | none => v
  | some semver =>
    v.setAll [("Version".toList, semver.versionString),
      ("RawVersion".toList, semver.rawVersionString), ("Base".toList, semver.rawVersionString),
      ("Major".toList, Nat.toDigits 10 semver.major),
      ("Minor".toList, Nat.toDigits 10 semver.minor),
      ("Patch".toList, Nat.toDigits 10 semver.patch),
      ("Prerelease".toList, semver.prerelease.getD []),
      ("BuildMetadata".toList, semver.buildMetadata.getD [])]

/-- Anchor a tag and the tag before it in its family. -/
def anchorCrateTag (findPreviousTag : Text → TemplateVars J → Option Text) (tag : Text)
    (v : TemplateVars J) : TemplateVars J :=
  (v.set PublishOnly.tagVar tag).put PublishOnly.previousTagVar (findPreviousTag tag v)

/-! ### Publishing crate by crate

The publish-only run manages the texts of the variables.
-/

theorem get_set {v : TemplateVars J} {key value : Text} (h : key ≠ targetVar) :
    (v.set key value).get = PublishOnly.Vars.set v.get key value := by
  ext k : 1
  rw [TemplateVars.set_eq h, TemplateVars.get, PublishOnly.Vars.set_apply]
  by_cases hk : k = key
  · subst hk
    rw [Function.update_self, if_pos rfl]
    rfl
  · rw [Function.update_of_ne hk, if_neg hk]
    rfl

theorem get_setAll {v : TemplateVars J} {entries : List (Text × Text)}
    (h : targetVar ∉ entries.map Prod.fst) : (v.setAll entries).get =
      entries.foldl (fun v e => PublishOnly.Vars.set v e.1 e.2) v.get := by
  induction entries generalizing v with
  | nil => rfl
  | cons e entries ih =>
    rw [List.map_cons, List.mem_cons, not_or] at h
    rw [TemplateVars.setAll, List.foldl_cons, ← TemplateVars.setAll, ih h.2, List.foldl_cons,
      get_set (Ne.symm h.1)]

theorem get_applyPerCrateVersion {env : PublishOnly.Env} {crateDist : Text} {v : TemplateVars J} :
    (applyPerCrateVersion env crateDist v).get = env.applyPerCrateVersion crateDist v.get := by
  rw [applyPerCrateVersion, PublishOnly.Env.applyPerCrateVersion]
  cases (env.peekPreservedVersion crateDist).bind (parseSemver env.tables) with
  | none => rfl
  | some semver =>
    have htarget : targetVar ∉ PublishOnly.versionTemplateVars := by decide
    exact get_setAll htarget

/-! ### What the setters leave behind -/

/-- The nine variables hold the texts of the tag and the version. -/
def Anchors (v : TemplateVars J) (semver : SemVer) (tag : Text) : Prop :=
  ∀ e ∈ versionEntries semver tag, v e.1 = some (.text e.2)

def versionVars : List Text :=
  ["Tag", "Version", "RawVersion", "Base", "Major", "Minor", "Patch", "Prerelease",
    "BuildMetadata"].map String.toList

variable {v : TemplateVars J} {semver : SemVer} {tag key : Text}

theorem keys_versionEntries (semver : SemVer) (tag : Text) :
    (versionEntries semver tag).map Prod.fst = versionVars := rfl

theorem nodup_versionVars : versionVars.Nodup := by decide

theorem targetVar_notMem_versionVars : targetVar ∉ versionVars := by decide

theorem anchors_setVersionVars : Anchors (setVersionVars v semver tag) semver tag := fun _ he =>
  TemplateVars.setAll_of_mem versionVars rfl targetVar_notMem_versionVars nodup_versionVars he

/-- A version is anchored wherever its variables agree with those of a context that anchors it. -/
theorem Anchors.congr_iff {w : TemplateVars J} (h : Anchors w semver tag) :
    Anchors v semver tag ↔ ∀ key ∈ versionVars, v key = w key := by
  constructor
  · intro hv key hkey
    rw [← keys_versionEntries semver tag] at hkey
    obtain ⟨e, he, rfl⟩ := List.mem_map.mp hkey
    rw [hv e he, h e he]
  · intro hv e he
    have hkey : e.1 ∈ versionVars := List.mem_map_of_mem (f := Prod.fst) he
    rw [hv e.1 hkey, h e he]

/-- The variables of a context that follow from its git information and spell out no version. -/
def gitVars : List Text :=
  ["FullCommit", "Commit", "ShortCommit", "Branch", "CommitDate", "CommitTimestamp", "IsGitDirty",
    "IsGitClean", "GitTreeState", "GitURL", "Summary", "TagSubject", "TagContents", "TagBody",
    "PreviousTag", "FirstCommit"].map String.toList

def prefixedVars : List Text :=
  ["PrefixedTag", "PrefixedPreviousTag", "PrefixedSummary"].map String.toList

def modeVars : List Text :=
  ["NightlyBuild", "IsSnapshot", "IsNightly", "IsHarness", "IsDraft", "IsSingleTarget",
    "IsRelease", "IsMerging"].map String.toList

/-- Writing other variables keeps a version anchored. -/
theorem Anchors.writeAll (hv : Anchors v semver tag) (entries : List (Text × Value J))
    (keys : List Text) (hkeys : entries.map Prod.fst = keys)
    (h : ∀ key ∈ targetVar :: versionVars, key ∉ keys) :
    Anchors (v.writeAll entries) semver tag := fun e he => by
  subst hkeys
  have hkey : e.1 ∈ versionVars := List.mem_map_of_mem (f := Prod.fst) he
  rw [TemplateVars.writeAll_of_notMem (h targetVar List.mem_cons_self)
    (h e.1 (List.mem_cons_of_mem _ hkey)), hv e he]

theorem anchors_populateGitVars {ctx : Context J} {info : GitInfo} (hinfo : ctx.gitInfo = some info)
    (hmonorepo : ctx.config.monorepoTagPrefix = none)
    {countCommitsSinceLastTag : Option Text → Option ℕ} :
    Anchors (ctx.populateGitVars countCommitsSinceLastTag).vars info.semver info.tag := by
  rw [Context.populateGitVars, hinfo, hmonorepo]
  have hset : Anchors (setVersionVars ctx.vars info.semver info.tag) info.semver info.tag :=
    anchors_setVersionVars
  have hgit := hset.writeAll (Context.gitEntries info) gitVars rfl (by decide)
  have hprefixed := hgit.writeAll (ctx.prefixedEntries info) prefixedVars rfl (by decide)
  exact hprefixed.writeAll _ modeVars rfl (by decide)

theorem anchors_varsForVersion {u : CharTables} (h : semver.Readable) :
    Anchors (varsForVersion u v semver.versionString tag) semver tag := by
  rw [varsForVersion, h.parse]
  exact anchors_setVersionVars

/-- The tag is set after the version, which leaves it alone. -/
theorem anchors_anchorCrateTag {env : PublishOnly.Env} {crateDist : Text} (h : semver.Readable)
    (hpeek : env.peekPreservedVersion crateDist = some semver.versionString)
    {findPreviousTag : Text → TemplateVars J → Option Text} :
    Anchors (anchorCrateTag findPreviousTag tag (applyPerCrateVersion env crateDist v)) semver
      tag := by
  intro e he
  have hkey : e.1 ∈ versionVars := List.mem_map_of_mem (f := Prod.fst) he
  have hprevious : e.1 ≠ PublishOnly.previousTagVar := by
    rintro heq
    exact absurd (heq ▸ hkey) (by decide)
  have hversion : versionVars = PublishOnly.tagVar :: PublishOnly.versionTemplateVars := rfl
  rw [anchorCrateTag, TemplateVars.put_eq (by decide), TemplateVars.set_eq (by decide),
    Function.update_of_ne hprevious]
  rcases List.mem_cons.mp he with rfl | he
  · exact Function.update_self ..
  · have hmem : e.1 ∈ PublishOnly.versionTemplateVars := List.mem_map_of_mem (f := Prod.fst) he
    have htag : e.1 ≠ PublishOnly.tagVar := by
      rintro heq
      exact absurd (heq ▸ hmem) (by decide)
    rw [Function.update_of_ne htag, applyPerCrateVersion, hpeek, Option.bind_some, h.parse]
    exact TemplateVars.setAll_of_mem PublishOnly.versionTemplateVars rfl (by decide)
      (by decide) he

end Anodizer.CrateScope
