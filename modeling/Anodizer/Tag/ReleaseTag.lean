import Anodizer.Git.FamilyMembership
import Anodizer.Lib.FirstOfEach
import Anodizer.Tag.Config

/-! # The tag of a release

One tag is resolved for the release of a crate. A literal nightly name or the
tag declared for the run is taken before the template of the crate, and has to
stay inside the family of the crate.
-/

namespace Anodizer.Tag

open Template (Text)
open Git
open FirstOfEach

/-! ### Families of a configuration -/

namespace Config

def tagFamilies (config : Config) : List Text :=
  config.crateUniverse.crates.map CrateConfig.tagFamilyTemplate

def mintsMultipleTagFamilies (config : Config) : Bool :=
  1 < (firstOfEach id [] config.tagFamilies).length

/-- The families other than `ownTemplate`. -/
def siblingTagFamiliesOf (config : Config) (ownTemplate : Text) : List Text :=
  firstOfEach id [] (config.tagFamilies.filter (· ≠ ownTemplate))

/-- The configuration of a run that is scoped to one workspace. -/
def applyWorkspaceOverlay (config : Config) (ws : List CrateConfig) : Config :=
  { config with crates := ws, workspaces := [] }

variable {config : Config} {ownTemplate t : Text}

theorem mem_siblingTagFamiliesOf : t ∈ config.siblingTagFamiliesOf ownTemplate ↔
    (∃ c ∈ config.crateUniverse.crates, c.tagFamilyTemplate = t) ∧ t ≠ ownTemplate := by
  have hmem : t ∈ config.tagFamilies.filter (· ≠ ownTemplate) ↔
      (∃ c ∈ config.crateUniverse.crates, c.tagFamilyTemplate = t) ∧ t ≠ ownTemplate := by
    rw [List.mem_filter, tagFamilies, List.mem_map, decide_eq_true_eq]
  rw [← hmem]
  constructor
  · exact fun h => subset_firstOfEach h
  · intro h
    obtain ⟨b, hb, heq⟩ := exists_firstOfEach id h
    obtain rfl : b = t := heq
    exact hb

end Config

/-! ### Resolution -/

inductive TagSource
  | inferred
  | declared
  deriving DecidableEq, Repr

structure GitInfo where
  tag : Text
  tagSource : TagSource
  deriving DecidableEq, Repr

/-- What the resolution of a tag reads of the run. -/
structure ReleaseContext where
  config : Config
  nightly : Bool
  nightlyTagName : Option Text
  gitInfo : Option GitInfo
  render : Text → Except Text Text

namespace ReleaseContext

def declaredTag (ctx : ReleaseContext) : Option Text :=
  ((ctx.gitInfo.filter (·.tagSource = .declared)).map (·.tag)).filter (· ≠ [])

def declaredTagForCrate (ctx : ReleaseContext) (crateCfg : CrateConfig) : Option Text :=
  let family := crateCfg.tagFamilyTemplate
  let siblings := ctx.config.siblingTagFamiliesOf family
  ctx.declaredTag.filter fun t =>
    tagInFamilyExcludingSiblings t family ctx.config.monorepoTagPrefix siblings

/-- Put a literal name inside the family of the crate when there are several. -/
def scopeToTagFamily (ctx : ReleaseContext) (crateCfg : CrateConfig) (rendered : Text) : Text :=
  if rendered = [] || !ctx.config.mintsMultipleTagFamilies then rendered
  else
    match tagFamilyPrefix crateCfg.tagFamilyTemplate ctx.config.monorepoTagPrefix with
    | some p => composePrefix p rendered
    | none => rendered

end ReleaseContext

/-- What the tag is taken from. -/
inductive Rung
  | nightly (template : Text)
  | override (template : Text)
  | declared (tag : Text)
  | family (template : Text)
  deriving DecidableEq, Repr

def Rung.source : Rung → Text
  | nightly _ => "nightly.tag_name".toList
  | override _ => "the release.tag override".toList
  | declared _ => "the declared current tag".toList
  | family _ => "tag_template".toList

inductive ReleaseTagError
  | render (source crateName cause : Text)
  | empty (source crateName : Text)
  deriving DecidableEq, Repr

def emptyReleaseTagHelp : Text :=
  ("A release cannot be created, downloaded or installed without a tag: the " ++
    "GitHub / GitLab / Gitea Releases REST API rejects an empty `tag_name` with " ++
    "a confusing 422 (`tag_name is too short`) that hides the real cause. Check " ++
    "that `release.tag:` is not set to an empty string, and that the template it " ++
    "or the crate's `tag_template` uses references a variable that is populated " ++
    "on this run (`\x7b\x7b Tag \x7d\x7d` is unset under `--snapshot` with no `tag_template` " ++
    "fallback).").toList

def ReleaseTagError.message : ReleaseTagError → Text
  | render source crateName _ =>
    "release: render ".toList ++ source ++ " for crate '".toList ++ crateName ++ "'".toList
  | empty source crateName =>
    "release: ".toList ++ source ++ " for crate '".toList ++ crateName ++
      "' rendered to an empty tag. ".toList ++ emptyReleaseTagHelp

namespace ReleaseContext

def resolveRung (ctx : ReleaseContext) (crateCfg : CrateConfig)
    (releaseTagOverride : Option Text) : Rung :=
  let nightlyTagName :=
    if ctx.nightly then ctx.nightlyTagName.filter (Template.trim · ≠ []) else none
  match nightlyTagName with
  | some template => .nightly template
  | none =>
    match releaseTagOverride with
    | some template => .override template
    | none =>
      match ctx.declaredTagForCrate crateCfg with
      | some declared => .declared declared
      | none => .family crateCfg.tagFamilyTemplate

def renderFor (ctx : ReleaseContext) (crateCfg : CrateConfig) (source template : Text) :
    Except ReleaseTagError Text :=
  match ctx.render template with
  | .ok rendered => .ok rendered
  | .error cause => .error (.render source crateCfg.name cause)

def renderRung (ctx : ReleaseContext) (crateCfg : CrateConfig) (rung : Rung) :
    Except ReleaseTagError Text :=
  match rung with
  | .nightly template =>
    (ctx.renderFor crateCfg rung.source template).map fun rendered =>
      ctx.scopeToTagFamily crateCfg (Template.trim rendered)
  | .override template => ctx.renderFor crateCfg rung.source template
  | .declared tag => .ok tag
  | .family template => ctx.renderFor crateCfg rung.source template

def resolveReleaseTag (ctx : ReleaseContext) (crateCfg : CrateConfig)
    (releaseTagOverride : Option Text) : Except ReleaseTagError Text :=
  let rung := ctx.resolveRung crateCfg releaseTagOverride
  match ctx.renderRung crateCfg rung with
  | .ok rendered =>
    if rendered = [] then .error (.empty rung.source crateCfg.name) else .ok rendered
  | .error e => .error e

variable {ctx : ReleaseContext} {crateCfg : CrateConfig} {override : Option Text}
  {template tag d : Text}

/-- The tag of a literal nightly name. -/
theorem resolve_nightly_iff (h : ctx.resolveRung crateCfg override = .nightly template) :
    ctx.resolveReleaseTag crateCfg override = .ok tag ↔
      ∃ r, ctx.render template = .ok r ∧ Template.trim r ≠ [] ∧
        ctx.scopeToTagFamily crateCfg (Template.trim r) = tag := by
  have hnil : ∀ r, ctx.scopeToTagFamily crateCfg r = [] ↔ r = [] := by
    intro r
    unfold scopeToTagFamily
    split
    · rfl
    · next hr =>
      simp only [Bool.or_eq_true, decide_eq_true_eq, not_or] at hr
      split
      · rw [composePrefix]
        split
        · rfl
        · simp [hr.1]
      · rfl
  unfold resolveReleaseTag renderRung renderFor
  rw [h]
  dsimp only
  cases ctx.render template with
  | error cause => simp [Except.map]
  | ok r =>
    simp only [Except.map, hnil]
    by_cases hr : Template.trim r = []
    · simp [hr]
    · simp [hr]

/-- A declared tag is taken as it is, when the view says it is of the family. -/
theorem resolve_declared_iff (h : ctx.resolveRung crateCfg override = .declared d) :
    (∀ tag, ctx.resolveReleaseTag crateCfg override = .ok tag ↔ tag = d) ∧
      tagInFamilyExcludingSiblings d crateCfg.tagFamilyTemplate ctx.config.monorepoTagPrefix
        (ctx.config.siblingTagFamiliesOf crateCfg.tagFamilyTemplate) = true := by
  have hfor : ctx.declaredTagForCrate crateCfg = some d := by
    unfold resolveRung at h
    dsimp only at h
    split at h
    · cases h
    split at h
    · cases h
    split at h
    · next heq =>
      obtain rfl := Rung.declared.inj h
      exact heq
    · cases h
  obtain ⟨hdecl, hin⟩ := Option.filter_eq_some_iff.mp hfor
  refine ⟨fun tag => ?_, hin⟩
  have hne : d ≠ [] := by
    have hd := (Option.filter_eq_some_iff.mp hdecl).2
    simpa using hd
  unfold resolveReleaseTag renderRung
  rw [h]
  simp [hne, eq_comm]

end ReleaseContext

end Anodizer.Tag
