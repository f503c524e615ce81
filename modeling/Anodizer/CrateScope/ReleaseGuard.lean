import Anodizer.CrateScope.ReleaseVersion
import Anodizer.CrateScope.VersionVars
import Anodizer.Git.TagQueries

/-! # The guard of a release

Before a stage reaches an external channel, the version of the run and the tag
of every crate in scope are judged. A tag is judged as a whole, so what stands
in front of its version counts too.
-/

namespace Anodizer.CrateScope

open Template (Text CharTables)
open Git

variable {J : Type}

/-- What a run reads of its repository and does not change: the template engine, and the tags with
the rules for them. A listing that fails is none. -/
structure Repo (J : Type) where
  tables : CharTables
  render : TemplateVars J → Text → Except Text Text
  listTagsWithPrefix : Text → Option (List Text)
  tagListing : Option (Bool → Text)
  tagSort : TagSort
  ignored : TemplateVars J → Ignore

/-! ### The tag of a crate -/

section Resolve

variable (repo : Repo J) (ctx : Context J) (crateCfg : Tag.CrateConfig)

/-- The tag for the version of the context, if there is such a tag. -/
def tagForCurrentVersion : Option Text :=
  let template := crateCfg.tagFamilyTemplate
  match repo.render ctx.vars template with
  | .error _ => none
  | .ok rendered =>
    if rendered = template then none
    else
      let candidate := ctx.config.monorepoTagPrefix.getD [] ++ rendered
      match repo.listTagsWithPrefix candidate with
      | none => none
      | some tags => if candidate ∈ tags then some rendered else none

/-- The newest tag of the family, without the namespace. -/
def latestTag : Option Text :=
  let monorepoPrefix := ctx.config.monorepoTagPrefix
  let found := repo.tagListing.bind
    (findLatestTagMatching repo.tables crateCfg.tagFamilyTemplate repo.tagSort
      (repo.ignored ctx.vars) monorepoPrefix)
  found.map fun tag =>
    match monorepoPrefix with
    | some p => stripMonorepoPrefix tag p
    | none => tag

/-- The tag that a crate is released under: the planned one, the one for the version of the
context, or the newest of its family. -/
def resolveCrateTag : Option Text :=
  match ctx.plannedCrateVersions crateCfg.name with
  | some version =>
    let template := crateCfg.tagFamilyTemplate
    match renderTemplateForVersion repo.tables repo.render ctx.vars template version [] with
    | .error _ => none
    | .ok rendered => if rendered = template then none else some rendered
  | none => (tagForCurrentVersion repo ctx crateCfg).or (latestTag repo ctx crateCfg)

end Resolve

/-! ### The guard -/

section Guard

variable (repo : Repo J) (ctx : Context J)

def crateIsSelected (selected : List Text) (name : Text) : Bool := selected = [] || name ∈ selected

/-- The crates of the configuration that the run acts on. A crate of a workspace gives way to
another one of its name. -/
def selectedCrates (config : Tag.Config) (selected : List Text) : List Tag.CrateConfig :=
  (config.workspaces.flatten.foldl Tag.addCrate config.crates).filter fun c =>
    crateIsSelected selected c.name

def Context.version : Text := (ctx.vars.get "Version".toList).getD []

/-- A version or tag that may not be released, with the reason. -/
def refused (version : Text) : Option (Text × Text) :=
  (nonReleaseReason version).map fun reason => (version, reason)

def firstNonReleaseVersion : Option (Text × Text) :=
  (refused ctx.version).or
    ((selectedCrates ctx.config ctx.options.selectedCrates).findSome? fun crateCfg =>
      (resolveCrateTag repo ctx crateCfg).bind refused)

def refusal (stage version reason dests : Text) : Text :=
  stage ++ ": refusing to release non-release version '".toList ++ version ++ "' (".toList ++
    reason ++ ") to: ".toList ++ dests ++
    ". These destinations include one-way-door / external channels; ".toList ++
    "shipping a snapshot / 0.0.0 version is almost always a mistake (e.g. a ".toList ++
    "missing base Version rendered as '0.0.0~SNAPSHOT-<sha>'). Cut a real release ".toList ++
    "with a semver tag, or pass --allow-snapshot-publish to override (intended ".toList ++
    "only for a private/test channel).".toList

def allowedWarning (stage version reason dests : Text) : Text :=
  stage ++ ": releasing non-release version '".toList ++ version ++ "' (".toList ++ reason ++
    ") to: ".toList ++ dests ++
    " — proceeding because --allow-snapshot-publish was set. This version is ".toList ++
    "NOT a real release; only do this for a private/test channel.".toList

/-- Refuse to release a version that is none. The result is the warning that is logged. -/
def guardReleaseVersion (stage : Text) (targets : List Text) : Except Text (Option Text) :=
  if ctx.options.dryRun || ctx.options.snapshot then .ok none
  else
    match firstNonReleaseVersion repo ctx with
    | none => .ok none
    | some (version, reason) =>
      let dests := if targets = [] then "(none configured)".toList
        else ", ".toList.intercalate targets
      if ctx.options.allowSnapshotPublish then .ok (some (allowedWarning stage version reason dests))
      else .error (refusal stage version reason dests)

end Guard

variable {repo : Repo J} {ctx : Context J} {stage : Text} {targets : List Text}

/-- A tag that a crate in scope is released under. -/
def InScope (repo : Repo J) (ctx : Context J) (tag : Text) : Prop :=
  ∃ crateCfg ∈ selectedCrates ctx.config ctx.options.selectedCrates,
    resolveCrateTag repo ctx crateCfg = some tag

theorem refused_eq_none {version : Text} : refused version = none ↔ isReleaseVersion version := by
  rw [refused, Option.map_eq_none_iff, isReleaseVersion, Option.isNone_iff_eq_none]

theorem firstNonReleaseVersion_eq_none : firstNonReleaseVersion repo ctx = none ↔
    isReleaseVersion ctx.version ∧ ∀ tag, InScope repo ctx tag → isReleaseVersion tag := by
  rw [firstNonReleaseVersion, Option.or_eq_none_iff, refused_eq_none, List.findSome?_eq_none_iff]
  refine and_congr_right' ?_
  constructor
  · rintro h tag ⟨crateCfg, hmem, htag⟩
    have hnone := h crateCfg hmem
    rw [htag, Option.bind_some] at hnone
    exact refused_eq_none.mp hnone
  · intro h crateCfg hmem
    cases htag : resolveCrateTag repo ctx crateCfg with
    | none => rfl
    | some tag => exact refused_eq_none.mpr (h tag ⟨crateCfg, hmem, htag⟩)

/-- Where it acts at all, the guard passes if every text that it judges may be released. -/
theorem guardReleaseVersion_isOk (hdry : ctx.options.dryRun = false)
    (hsnapshot : ctx.options.snapshot = false) (hallow : ctx.options.allowSnapshotPublish = false) :
    (guardReleaseVersion repo ctx stage targets).isOk ↔
      isReleaseVersion ctx.version ∧ ∀ tag, InScope repo ctx tag → isReleaseVersion tag := by
  rw [← firstNonReleaseVersion_eq_none, guardReleaseVersion, hdry, hsnapshot, hallow]
  cases firstNonReleaseVersion repo ctx with
  | none => exact iff_of_true rfl rfl
  | some found => exact iff_of_false Bool.false_ne_true nofun

/-! ### Tags and their versions -/

section Tags

variable {u : CharTables} {tag : Text}

/-- The version of the tag may be released. A tag without one has none to refuse. -/
def VersionPasses (u : CharTables) (tag : Text) : Prop :=
  ∀ version, Tag.versionFromTag u tag = some version → isReleaseVersion version

/-- The version of the tag may not be released, by its numbers or by what follows them. -/
def VersionFails (u : CharTables) (tag : Text) : Prop :=
  ∃ v, parseSemverTag u tag = some v ∧ (IsZero v ∨ Marked (suffixText v))

/-- A zero version in a tag that does not begin with it and carries no mark. -/
def HiddenSentinel (u : CharTables) (tag : Text) : Prop :=
  isReleaseVersion tag ∧ ∃ v, parseSemverTag u tag = some v ∧ IsZero v

/-- A tag that is refused, though neither the numbers of its version nor what follows them are
the reason. -/
def RefusedByName (u : CharTables) (tag : Text) : Prop :=
  ¬isReleaseVersion tag ∧
    ∀ v, parseSemverTag u tag = some v → ¬IsZero v ∧ ¬Marked (suffixText v)

theorem versionFromTag_eq (u : CharTables) (tag : Text) :
    Tag.versionFromTag u tag = (parseSemverTag u tag).map SemVer.versionString := by
  rw [Tag.versionFromTag]
  split
  · next h =>
    subst h
    cases hv : parseSemverTag u [] with
    | none => rfl
    | some v =>
      obtain ⟨r, hr⟩ := exists_parseReads hv
      obtain ⟨lead, w, -, -, rfl, -⟩ := parseSemver_eq_some.mp (hr.parse ▸ hv)
      have htext : lead ++ w.text ≠ [] := by simp [Spelling.text]
      rcases hr with ⟨-, hr⟩ | ⟨-, x, hsep, -⟩
      · exact absurd hr.symm htext
      · exact absurd (List.append_eq_nil_iff.mp hsep.tag_eq.symm).2 htext
  · rfl

theorem versionPasses_iff : VersionPasses u tag ↔
    ∀ v, parseSemverTag u tag = some v → ¬IsZero v ∧ ¬Marked (suffixText v) := by
  rw [VersionPasses, versionFromTag_eq]
  constructor
  · intro h v hv
    exact (isReleaseVersion_versionString v).mp (h _ (by rw [hv]; rfl))
  · intro h version hversion
    obtain ⟨v, hv, rfl⟩ := Option.map_eq_some_iff.mp hversion
    exact (isReleaseVersion_versionString v).mpr (h v hv)

theorem not_versionPasses : ¬VersionPasses u tag ↔ VersionFails u tag := by
  rw [versionPasses_iff]
  simp only [VersionFails, not_forall, exists_prop, not_and_or, not_not]

/-- The marks of a version are in its tag, so only the zero version hides behind a prefix. -/
theorem hiddenSentinel_iff : HiddenSentinel u tag ↔ isReleaseVersion tag ∧ ¬VersionPasses u tag := by
  rw [not_versionPasses]
  refine and_congr_right fun hpass => exists_congr fun v => and_congr_right fun hv => ?_
  refine (or_iff_left fun hmarked => ?_).symm
  exact (isReleaseVersion_iff.mp hpass).2.2 (hmarked.mono (suffixText_suffix hv).isInfix)

theorem refusedByName_iff : RefusedByName u tag ↔ ¬isReleaseVersion tag ∧ VersionPasses u tag := by
  rw [versionPasses_iff, RefusedByName]

end Tags

/-- Two properties hold throughout together, unless each fails somewhere, or one fails where the
other holds and not the other way around. -/
theorem forall_iff_forall_iff {α : Type*} {t p q : α → Prop} :
    ((∀ x, t x → p x) ↔ ∀ x, t x → q x) ↔
      (∃ x, t x ∧ ¬p x ∧ ¬q x) ∨ ((∃ x, t x ∧ p x ∧ ¬q x) ↔ ∃ x, t x ∧ ¬p x ∧ q x) := by
  by_cases hboth : ∃ x, t x ∧ ¬p x ∧ ¬q x
  · obtain ⟨x, hx, hp, hq⟩ := hboth
    have hall : (∀ x, t x → p x) ↔ ∀ x, t x → q x :=
      iff_of_false (fun h => hp (h x hx)) fun h => hq (h x hx)
    exact iff_of_true hall (.inl ⟨x, hx, hp, hq⟩)
  · have hone : ∀ x, t x → p x ∨ q x := fun x hx => by
      by_contra h
      exact hboth ⟨x, hx, not_or.mp h⟩
    have hp : (∀ x, t x → p x) ↔ ¬∃ x, t x ∧ ¬p x ∧ q x :=
      ⟨fun h ⟨x, hx, hnp, _⟩ => hnp (h x hx), fun h x hx => by
        by_contra hnp
        exact h ⟨x, hx, hnp, (hone x hx).resolve_left hnp⟩⟩
    have hq : (∀ x, t x → q x) ↔ ¬∃ x, t x ∧ p x ∧ ¬q x :=
      ⟨fun h ⟨x, hx, _, hnq⟩ => hnq (h x hx), fun h x hx => by
        by_contra hnq
        exact h ⟨x, hx, (hone x hx).resolve_right hnq, hnq⟩⟩
    rw [or_iff_right hboth, hp, hq, not_iff_not]
    exact Iff.comm

/-- The guard judges the versions in scope, and nothing else. -/
def JudgesVersions (repo : Repo J) (ctx : Context J) (stage : Text) (targets : List Text) : Prop :=
  (guardReleaseVersion repo ctx stage targets).isOk ↔
    isReleaseVersion ctx.version ∧
      ∀ tag, InScope repo ctx tag → VersionPasses repo.tables tag

/-- The guard judges the versions exactly if the version of the run is refused, or some tag is
refused along with its version, or tags that hide a zero version come with tags that are refused
by their name. -/
theorem judgesVersions_iff (repo : Repo J) (ctx : Context J) (stage : Text) (targets : List Text)
    (hdry : ctx.options.dryRun = false) (hsnapshot : ctx.options.snapshot = false)
    (hallow : ctx.options.allowSnapshotPublish = false) :
    JudgesVersions repo ctx stage targets ↔
      ¬isReleaseVersion ctx.version ∨
        (∃ tag, InScope repo ctx tag ∧ ¬isReleaseVersion tag ∧ VersionFails repo.tables tag) ∨
          ((∃ tag, InScope repo ctx tag ∧ HiddenSentinel repo.tables tag) ↔
            ∃ tag, InScope repo ctx tag ∧ RefusedByName repo.tables tag) := by
  simp only [hiddenSentinel_iff, refusedByName_iff, ← not_versionPasses]
  rw [JudgesVersions, guardReleaseVersion_isOk hdry hsnapshot hallow, ← forall_iff_forall_iff]
  exact and_congr_right_iff.trans imp_iff_not_or

/-! ### A zero version behind a prefix -/

/-- A repository with one tag, whose templates know the version. -/
def repoOf (tag : Text) : Repo Unit where
  tables := .ascii
  render v template :=
    .ok (replaceText "\x7b\x7b Version \x7d\x7d".toList ((v.get "Version".toList).getD []) template)
  listTagsWithPrefix p := some ([tag].filter p.isPrefixOf)
  tagListing := some fun _ => tag
  tagSort := ⟨none, none⟩
  ignored _ := ⟨[], []⟩

/-- A real release of the version 1.2.3, with one crate. -/
def releaseOf (name : Text) : Context Unit where
  vars := setVersionVars (fun _ => none) ⟨1, 2, 3, none, none⟩ "v1.2.3".toList
  config := ⟨"app".toList, [⟨name, ".".toList, none, none, none⟩], [], none, none, none⟩
  tagPrefix := none
  releaseDraft := none
  gitInfo := none
  plannedCrateVersions _ := none
  options := ⟨false, false, false, false, none, [], false⟩
  inDeterminismHarness := false

theorem inScope_releaseOf {name tag t : Text} : InScope (repoOf tag) (releaseOf name) t ↔
    resolveCrateTag (repoOf tag) (releaseOf name) ⟨name, ".".toList, none, none, none⟩ = some t := by
  have hselected : selectedCrates (releaseOf name).config (releaseOf name).options.selectedCrates =
      [⟨name, ".".toList, none, none, none⟩] := rfl
  simp only [InScope, hselected, List.mem_singleton, exists_eq_left]

/-- The guard passes the version 0.0.0 of the crate `b`, and refuses the version 1.2.3 of the crate
`snapshot-tool`. -/
theorem not_judgesVersions :
    ¬JudgesVersions (repoOf "b-v0.0.0".toList) (releaseOf ['b']) "publish".toList [] ∧
      ¬JudgesVersions (repoOf "snapshot-tool-v1.2.3".toList) (releaseOf "snapshot-tool".toList)
        "publish".toList [] := by
  constructor
  · intro h
    have hok : (guardReleaseVersion (repoOf "b-v0.0.0".toList) (releaseOf ['b']) "publish".toList
        []).isOk := by decide +kernel
    have htag : InScope (repoOf "b-v0.0.0".toList) (releaseOf ['b']) "b-v0.0.0".toList :=
      inScope_releaseOf.mpr (by decide +kernel)
    have hversion : Tag.versionFromTag .ascii "b-v0.0.0".toList = some "0.0.0".toList := by
      decide +kernel
    exact absurd ((h.mp hok).2 _ htag _ hversion) (by decide +kernel)
  · intro h
    have hfails : (guardReleaseVersion (repoOf "snapshot-tool-v1.2.3".toList)
        (releaseOf "snapshot-tool".toList) "publish".toList []).isOk = false := by decide +kernel
    have htag : resolveCrateTag (repoOf "snapshot-tool-v1.2.3".toList)
        (releaseOf "snapshot-tool".toList) ⟨"snapshot-tool".toList, ".".toList, none, none, none⟩ =
          some "snapshot-tool-v1.2.3".toList := by decide +kernel
    have hversion : Tag.versionFromTag .ascii "snapshot-tool-v1.2.3".toList =
        some "1.2.3".toList := by decide +kernel
    refine Bool.false_ne_true (hfails.symm.trans (h.mpr ⟨by decide +kernel, ?_⟩))
    intro tag hscope version hv
    obtain rfl := Option.some.inj (htag.symm.trans (inScope_releaseOf.mp hscope))
    obtain rfl := Option.some.inj (hversion.symm.trans hv)
    decide +kernel

/-- A release of the version 1.2.3 from its own tag is judged by its version. -/
theorem judgesVersions_iff_app : JudgesVersions (repoOf "app-v1.2.3".toList)
    (releaseOf "app".toList) "publish".toList [] := by
  have htag : resolveCrateTag (repoOf "app-v1.2.3".toList) (releaseOf "app".toList)
      ⟨"app".toList, ".".toList, none, none, none⟩ = some "app-v1.2.3".toList := by decide +kernel
  have hparse : parseSemverTag .ascii "app-v1.2.3".toList = some ⟨1, 2, 3, none, none⟩ := by
    decide +kernel
  have hpass : isReleaseVersion "app-v1.2.3".toList := by decide +kernel
  refine (judgesVersions_iff (repoOf "app-v1.2.3".toList) (releaseOf "app".toList) "publish".toList
    [] rfl rfl rfl).mpr (.inr (.inr (iff_of_false ?_ ?_)))
  · rintro ⟨tag, hscope, -, v, hv, hzero⟩
    obtain rfl := Option.some.inj (htag.symm.trans (inScope_releaseOf.mp hscope))
    obtain rfl := Option.some.inj (hparse.symm.trans hv)
    exact absurd hzero.1 (by decide)
  · rintro ⟨tag, hscope, hrefused, -⟩
    obtain rfl := Option.some.inj (htag.symm.trans (inScope_releaseOf.mp hscope))
    exact hrefused hpass

end Anodizer.CrateScope
