import Anodizer.CrateScope.VersionVars
import Anodizer.Git.TagSplit
import Anodizer.PublishOnly.Isolation

/-! # The scope of a crate

The work on a crate runs with the tag, the version and the name of the crate in
the variables of the context. Afterwards the variables hold what they held
before.
-/

namespace Anodizer.CrateScope

open Template (Text CharTables)
open Git
open Assign

variable {J T : Type}

/-- The variables that a scope saves and restores. -/
def perCrateScopedVars : List Text :=
  ["Version", "RawVersion", "Tag", "ProjectName", "Name"].map String.toList

/-- What the variables of a crate hold. -/
def overrides (name tag : Text) (semver : SemVer) : List (Text × Text) :=
  [("RawVersion".toList, semver.rawVersionString), ("Version".toList, semver.versionString),
    ("Tag".toList, tag), ("ProjectName".toList, name), ("Name".toList, name)]

def crateTemplateOverrides (u : CharTables) (name tag : Text) : Except Text (List (Text × Text)) :=
  match parseSemverTag u tag with
  | none =>
    .error ("crate '".toList ++ name ++ "': release tag '".toList ++ tag ++
      "' is not a parseable semver version".toList)
  | some semver => .ok (overrides name tag semver)

/-- What to tell when no tag belongs to a crate, by the tags that there are. -/
def noMatchingTagError (existing : List Text) (crateCfg : Tag.CrateConfig) (selectedFor : Text) :
    Text :=
  let lead := "crate '".toList ++ crateCfg.name ++ "' is selected for ".toList ++ selectedFor ++
    " but has no release tag matching its tag_template '".toList ++ crateCfg.tagFamilyTemplate
  if existing = [] then
    lead ++ "': the repository has no git tags at all (likely a fresh clone with ".toList ++
      "no tags fetched, a shallow checkout, or tags deleted by a rollback/re-cut); ".toList ++
      "run `git fetch --tags`, create a release tag, or use --snapshot (local build) ".toList ++
      "or --nightly (synthesized version) which need no tag".toList
  else
    lead ++ "'; cannot derive its version (nearest existing tags: ".toList ++
      ", ".toList.intercalate (existing.take 5) ++ ")".toList

/-- Set the overrides, and remember the texts that the scoped variables had. -/
def applyVarOverrides (v : TemplateVars J) (overrides : List (Text × Text)) :
    TemplateVars J × List (Text × Option Text) :=
  (v.setAll overrides, perCrateScopedVars.map fun key => (key, v.get key))

def restoreVarOverrides (v : TemplateVars J) (saved : List (Text × Option Text)) :
    TemplateVars J :=
  v.putAll saved

/-- The context that the work on a crate starts in, with what is restored after it. -/
def enterCrateScope (u : CharTables) (existing : List Text) (ctx : Context J)
    (crateCfg : Tag.CrateConfig) (resolveTag : Context J → Tag.CrateConfig → Option Text) :
    Except Text (Context J × List (Text × Option Text)) :=
  match resolveTag ctx crateCfg with
  | none => .error (noMatchingTagError existing crateCfg "a per-crate emission".toList)
  | some tag =>
    match crateTemplateOverrides u crateCfg.name tag with
    | .error e => .error e
    | .ok overrides =>
      let (vars, saved) := applyVarOverrides ctx.vars overrides
      .ok ({ ctx with vars := vars }, saved)

/-- Run the work on a crate in the scope of the crate. -/
def withCrateScope (u : CharTables) (existing : List Text) (ctx : Context J)
    (crateCfg : Tag.CrateConfig) (resolveTag : Context J → Tag.CrateConfig → Option Text)
    (body : Context J → Except Text T × Context J) : Except Text T × Context J :=
  match enterCrateScope u existing ctx crateCfg resolveTag with
  | .error e => (.error e, ctx)
  | .ok (inner, saved) =>
    let (result, after) := body inner
    (result, { after with vars := restoreVarOverrides after.vars saved })

variable {u : CharTables} {existing : List Text} {ctx : Context J} {crateCfg : Tag.CrateConfig}
  {resolveTag : Context J → Tag.CrateConfig → Option Text} {semver : SemVer} {tag key name : Text}
  {v w : TemplateVars J}

/-! ### Inside the scope -/

def overriddenVars : List Text :=
  ["RawVersion", "Version", "Tag", "ProjectName", "Name"].map String.toList

/-- What a version spells out and the scope of a crate leaves alone. -/
def versionParts (semver : SemVer) : List (Text × Text) :=
  [("Base".toList, semver.rawVersionString), ("Major".toList, Nat.toDigits 10 semver.major),
    ("Minor".toList, Nat.toDigits 10 semver.minor), ("Patch".toList, Nat.toDigits 10 semver.patch),
    ("Prerelease".toList, semver.prerelease.getD []),
    ("BuildMetadata".toList, semver.buildMetadata.getD [])]

def partVars : List Text :=
  ["Base", "Major", "Minor", "Patch", "Prerelease", "BuildMetadata"].map String.toList

theorem enterCrateScope_eq (htag : resolveTag ctx crateCfg = some tag)
    (hsemver : parseSemverTag u tag = some semver) :
    enterCrateScope u existing ctx crateCfg resolveTag =
      .ok ({ ctx with vars := ctx.vars.setAll (overrides crateCfg.name tag semver) },
        perCrateScopedVars.map fun key => (key, ctx.vars.get key)) := by
  rw [enterCrateScope, htag]
  simp only [crateTemplateOverrides, hsemver]
  rfl

/-- A scope is entered with the tag of the crate, and saves the texts from before. -/
theorem enterCrateScope_ok {inner : Context J} {saved : List (Text × Option Text)}
    (h : enterCrateScope u existing ctx crateCfg resolveTag = .ok (inner, saved)) :
    ∃ tag semver, inner = { ctx with
        vars := ctx.vars.setAll (overrides crateCfg.name tag semver) } ∧
      saved = perCrateScopedVars.map fun key => (key, ctx.vars.get key) := by
  cases htag : resolveTag ctx crateCfg with
  | none =>
    rw [enterCrateScope, htag] at h
    exact nomatch h
  | some tag =>
    cases hsemver : parseSemverTag u tag with
    | none =>
      rw [enterCrateScope, htag] at h
      simp only [crateTemplateOverrides, hsemver] at h
      exact nomatch h
    | some semver =>
      rw [enterCrateScope_eq htag hsemver, Except.ok.injEq, Prod.mk.injEq] at h
      exact ⟨tag, semver, h.1.symm, h.2.symm⟩

theorem setAll_overrides_of_notMem (h : key ∉ overriddenVars) :
    v.setAll (overrides name tag semver) key = v key := by
  have htarget : targetVar ∉ overriddenVars := by decide
  exact TemplateVars.setAll_of_notMem htarget h

theorem partVars_notMem : ∀ key ∈ partVars, key ∉ overriddenVars := by decide

/-- The scope anchors the version if the rest of it is there already. -/
theorem anchors_overrides_iff : Anchors (v.setAll (overrides name tag semver)) semver tag ↔
    ∀ e ∈ versionParts semver, v e.1 = some (.text e.2) := by
  have hparts : ∀ e ∈ versionParts semver, v.setAll (overrides name tag semver) e.1 = v e.1 := by
    intro e he
    have hkey : e.1 ∈ partVars := List.mem_map_of_mem (f := Prod.fst) he
    exact setAll_overrides_of_notMem (partVars_notMem e.1 hkey)
  have hset : ∀ e ∈ overrides name tag semver,
      v.setAll (overrides name tag semver) e.1 = some (.text e.2) := fun e he =>
    TemplateVars.setAll_of_mem overriddenVars rfl (by decide) (by decide) he
  have hentries : versionEntries semver tag = ("Tag".toList, tag) ::
    ("Version".toList, semver.versionString) :: ("RawVersion".toList, semver.rawVersionString) ::
      versionParts semver := rfl
  rw [Anchors, hentries]
  simp only [List.forall_mem_cons]
  constructor
  · rintro ⟨-, -, -, h⟩ e he
    rw [← hparts e he]
    exact h e he
  · intro h
    refine ⟨hset _ (.tail _ (.tail _ (.head _))), hset _ (.tail _ (.head _)), hset _ (.head _), ?_⟩
    intro e he
    rw [hparts e he]
    exact h e he

/-! ### After the scope -/

/-- The variable has no structured value. -/
def PlainAt (v : TemplateVars J) (key : Text) : Prop := v key = (v.get key).map .text

theorem restoreVarOverrides_eq :
    restoreVarOverrides w (perCrateScopedVars.map fun key => (key, v.get key)) =
      assignAll w (save (fun key => (v.get key).map .text) perCrateScopedVars) := by
  have htarget : targetVar ∉ perCrateScopedVars := by decide
  have hkeys : (perCrateScopedVars.map fun key => (key, v.get key)).map Prod.fst =
      perCrateScopedVars := rfl
  rw [restoreVarOverrides, TemplateVars.putAll_eq (hkeys ▸ htarget), List.map_map]
  rfl

/-- The work leaves a variable alone in every scope that it is entered in. -/
def LeavesAlone (u : CharTables) (existing : List Text) (ctx : Context J)
    (crateCfg : Tag.CrateConfig) (resolveTag : Context J → Tag.CrateConfig → Option Text)
    (body : Context J → Except Text T × Context J) (key : Text) : Prop :=
  ∀ inner saved, enterCrateScope u existing ctx crateCfg resolveTag = .ok (inner, saved) →
    (body inner).2.vars key = inner.vars key

/-- What the work leaves alone has its earlier value afterwards, whether or not the scope could
be entered and however the work ended. -/
theorem withCrateScope_apply {body : Context J → Except Text T × Context J}
    (hplain : key ∈ perCrateScopedVars → PlainAt ctx.vars key)
    (hbody : LeavesAlone u existing ctx crateCfg resolveTag body key) :
    (withCrateScope u existing ctx crateCfg resolveTag body).2.vars key = ctx.vars key := by
  rw [withCrateScope]
  split
  · rfl
  · next inner saved henter =>
    have hkeep := hbody inner saved henter
    obtain ⟨tag, semver, rfl, rfl⟩ := enterCrateScope_ok henter
    dsimp only at hkeep ⊢
    rw [restoreVarOverrides_eq]
    by_cases hkey : key ∈ perCrateScopedVars
    · rw [assignAll_save_of_mem hkey, ← hplain hkey]
    · have hscoped : ∀ key ∈ overriddenVars, key ∈ perCrateScopedVars := by decide
      rw [assignAll_save_of_notMem hkey, hkeep, setAll_overrides_of_notMem fun h => hkey (hscoped key h)]

/-! ### The ways to scope a context -/

/-- Variables, once in the scope of a crate, once for a template that is rendered for the version,
once in a publish-only visit, and once from git information, show the same version. -/
def SameVersion (inner rendered visited populated : TemplateVars J) : Prop :=
  ∀ key ∈ versionVars, inner key = rendered key ∧ rendered key = visited key ∧
    visited key = populated key

/-- Whatever work leaves alone is what it was before the scope. -/
def Restores (u : CharTables) (existing : List Text) (ctx : Context J) (crateCfg : Tag.CrateConfig)
    (resolveTag : Context J → Tag.CrateConfig → Option Text) : Prop :=
  ∀ (T : Type) (body : Context J → Except Text T × Context J) (key : Text),
    LeavesAlone u existing ctx crateCfg resolveTag body key →
      (withCrateScope u existing ctx crateCfg resolveTag body).2.vars key = ctx.vars key

/-- The context shows the version in the variables that a scope leaves alone, and no structured
value in those that it restores. -/
def Scopable (ctx : Context J) (semver : SemVer) : Prop :=
  (∀ e ∈ versionParts semver, ctx.vars e.1 = some (.text e.2)) ∧
    ∀ key ∈ perCrateScopedVars, PlainAt ctx.vars key

theorem restores_iff (htag : resolveTag ctx crateCfg = some tag)
    (hsemver : parseSemverTag u tag = some semver) :
    Restores u existing ctx crateCfg resolveTag ↔
      ∀ key ∈ perCrateScopedVars, PlainAt ctx.vars key := by
  constructor
  · intro h key hkey
    have hidle := h Unit (fun c => (.ok (), c)) key fun _ _ _ => rfl
    rw [withCrateScope, enterCrateScope_eq htag hsemver] at hidle
    dsimp only at hidle
    rw [restoreVarOverrides_eq, assignAll_save_of_mem hkey] at hidle
    exact hidle.symm
  · intro h T body key hbody
    exact withCrateScope_apply (h key) hbody

theorem SameVersion.inner_iff {inner rendered visited populated : TemplateVars J}
    (hrendered : Anchors rendered semver tag) (hvisited : Anchors visited semver tag)
    (hpopulated : Anchors populated semver tag) :
    SameVersion inner rendered visited populated ↔ Anchors inner semver tag := by
  rw [hrendered.congr_iff]
  constructor
  · exact fun h key hkey => (h key hkey).1
  · intro h key hkey
    exact ⟨h key hkey, hvisited.congr_iff.mp hrendered key hkey,
      hpopulated.congr_iff.mp hvisited key hkey⟩

/-- All ways to scope a context to a crate show one version, and the scope of the crate is undone,
exactly for the contexts that can be scoped. -/
theorem scoped_iff (env : PublishOnly.Env) (existing : List Text) (ctx git : Context J)
    (crateCfg : Tag.CrateConfig) (resolveTag : Context J → Tag.CrateConfig → Option Text)
    (crateDist : Text) (findPreviousTag : Text → TemplateVars J → Option Text)
    (countCommitsSinceLastTag : Option Text → Option ℕ) (info : GitInfo) (tag : Text)
    (semver : SemVer) (htag : resolveTag ctx crateCfg = some tag)
    (hsemver : parseSemverTag env.tables tag = some semver)
    (hpeek : env.peekPreservedVersion crateDist = some semver.versionString)
    (hgit : git.gitInfo = some info)
    (hmonorepo : git.config.monorepoTagPrefix = none) (hinfo : info.tag = tag)
    (hinfoSemver : info.semver = semver) :
    (∃ inner saved,
      enterCrateScope env.tables existing ctx crateCfg resolveTag = .ok (inner, saved) ∧
      SameVersion inner.vars (varsForVersion env.tables ctx.vars semver.versionString tag)
        (anchorCrateTag findPreviousTag tag (applyPerCrateVersion env crateDist ctx.vars))
        (git.populateGitVars countCommitsSinceLastTag).vars) ∧
      Restores env.tables existing ctx crateCfg resolveTag ↔ Scopable ctx semver := by
  obtain ⟨r, hr⟩ := exists_parseReads hsemver
  have hreadable : semver.Readable := readable_of_parse (hr.parse ▸ hsemver)
  subst hinfo hinfoSemver
  have hanchors : Anchors (ctx.vars.setAll (overrides crateCfg.name info.tag info.semver))
      info.semver info.tag ↔ _ := anchors_overrides_iff
  rw [restores_iff htag hsemver, Scopable, ← hanchors, enterCrateScope_eq htag hsemver]
  refine and_congr_left' ?_
  rw [← SameVersion.inner_iff (anchors_varsForVersion hreadable)
    (anchors_anchorCrateTag hreadable hpeek) (anchors_populateGitVars hgit hmonorepo)]
  constructor
  · rintro ⟨inner, saved, heq, h⟩
    rw [Except.ok.injEq, Prod.mk.injEq] at heq
    obtain ⟨rfl, -⟩ := heq
    exact h
  · exact fun h => ⟨_, _, rfl, h⟩

/-! ### A crate behind another one -/

def laterTag : Text := "b-v2.3.4".toList

def laterVersion : SemVer := ⟨2, 3, 4, none, none⟩

def laterCrate : Tag.CrateConfig :=
  ⟨"b".toList, "b".toList, some "b-v\x7b\x7b Version \x7d\x7d".toList, none, none⟩

/-- The manifests of the crate record its version. -/
def laterEnv : PublishOnly.Env :=
  { PublishOnly.bareEnv with preservedVersions := fun _ => some ["2.3.4".toList] }

def laterInfo : GitInfo where
  tag := laterTag
  tagSource := .inferred
  commit := "c0ffee".toList
  shortCommit := "c0f".toList
  branch := "main".toList
  dirty := false
  semver := laterVersion
  commitDate := []
  commitTimestamp := []
  previousTag := none
  remoteUrl := []
  summary := laterTag
  tagSubject := []
  tagContents := []
  tagBody := []
  firstCommit := none

/-- A context that shows a version, and is in the repository of the crate. -/
def contextOf (semver : SemVer) (tag : Text) : Context Unit where
  vars := setVersionVars (fun _ => none) semver tag
  config := ⟨"app".toList, [laterCrate], [], none, none, none⟩
  tagPrefix := none
  releaseDraft := none
  gitInfo := some laterInfo
  plannedCrateVersions _ := none
  options := ⟨false, false, false, false, none, [], false⟩
  inDeterminismHarness := false

theorem parse_laterTag : parseSemverTag .ascii laterTag = some laterVersion := by decide

theorem scopable_laterVersion : Scopable (contextOf laterVersion laterTag) laterVersion := by
  have hanchors : Anchors (contextOf laterVersion laterTag).vars laterVersion laterTag :=
    anchors_setVersionVars
  refine ⟨fun e he => hanchors e (.tail _ (.tail _ (.tail _ he))), ?_⟩
  unfold PlainAt
  decide

/-- The scope of the crate `b` shows the major version of the crate before it. -/
theorem staleMajor : ¬∃ inner saved,
    enterCrateScope .ascii [] (contextOf ⟨1, 0, 0, none, none⟩ "v1.0.0".toList) laterCrate
      (fun _ _ => some laterTag) = .ok (inner, saved) ∧
    SameVersion inner.vars
      (varsForVersion .ascii (contextOf ⟨1, 0, 0, none, none⟩ "v1.0.0".toList).vars
        laterVersion.versionString laterTag)
      (anchorCrateTag (fun _ _ => none) laterTag (applyPerCrateVersion laterEnv "dist/b".toList
        (contextOf ⟨1, 0, 0, none, none⟩ "v1.0.0".toList).vars))
      ((contextOf ⟨1, 0, 0, none, none⟩ "v1.0.0".toList).populateGitVars fun _ => none).vars := by
  rintro ⟨inner, saved, henter, h⟩
  rw [enterCrateScope_eq rfl parse_laterTag, Except.ok.injEq, Prod.mk.injEq] at henter
  obtain ⟨rfl, -⟩ := henter
  have hmajor := (h "Major".toList (by decide)).1
  exact absurd hmajor (by decide)

/-- Where the context shows the version of the crate, the scope of the crate shows it too. -/
theorem scoped_iff_later : (∃ inner saved,
    enterCrateScope laterEnv.tables [] (contextOf laterVersion laterTag) laterCrate
      (fun _ _ => some laterTag) = .ok (inner, saved) ∧
    SameVersion inner.vars
      (varsForVersion laterEnv.tables (contextOf laterVersion laterTag).vars
        laterVersion.versionString laterTag)
      (anchorCrateTag (fun _ _ => none) laterTag (applyPerCrateVersion laterEnv "dist/b".toList
        (contextOf laterVersion laterTag).vars))
      ((contextOf laterVersion laterTag).populateGitVars fun _ => none).vars) ∧
    Restores laterEnv.tables [] (contextOf laterVersion laterTag) laterCrate
      fun _ _ => some laterTag :=
  (scoped_iff laterEnv [] (contextOf laterVersion laterTag) (contextOf laterVersion laterTag)
    laterCrate (fun _ _ => some laterTag) "dist/b".toList (fun _ _ => none) (fun _ => none)
    laterInfo laterTag laterVersion rfl parse_laterTag (by decide) rfl rfl rfl rfl).mpr
    scopable_laterVersion

end Anodizer.CrateScope
