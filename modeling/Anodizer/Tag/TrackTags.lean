import Anodizer.Tag.ReleaseTag

/-! # Tags of distinct tracks

Every crate of a configuration releases on its own track. A literal nightly
name and a declared tag stay on the track of their crate exactly when the run
sees what it needs of the other tracks.
-/

namespace Anodizer.Tag

open Template (Text)
open Git

variable {config : Config} {tag d x : Text}

/-- The tag is of the family of the crate, and no family of the configuration takes it away. -/
def InOwnFamily (config : Config) (crateCfg : CrateConfig) (tag : Text) : Prop :=
  tagInFamilyExcludingSiblings tag crateCfg.tagFamilyTemplate config.monorepoTagPrefix
    (config.siblingTagFamiliesOf crateCfg.tagFamilyTemplate) = true

/-- A crate resolves the tag of its release, in a run that sees the whole configuration or the
crate's workspace. -/
structure TrackRelease (config : Config) where
  ctx : ReleaseContext
  crateCfg : CrateConfig
  override : Option Text
  mem : crateCfg ∈ config.crateUniverse.crates
  view : ctx.config = config ∨
    ∃ ws ∈ config.workspaces, crateCfg ∈ ws ∧ ctx.config = config.applyWorkspaceOverlay ws

namespace TrackRelease

variable {r r' : TrackRelease config}

def rung (r : TrackRelease config) : Rung := r.ctx.resolveRung r.crateCfg r.override

/-- The tag is resolved from a literal nightly name or from the tag of the run. -/
def Resolves (r : TrackRelease config) (tag : Text) : Prop :=
  r.ctx.resolveReleaseTag r.crateCfg r.override = .ok tag ∧
    ((∃ template, r.rung = .nightly template) ∨ ∃ d, r.rung = .declared d)

theorem monorepoTagPrefix_eq (r : TrackRelease config) :
    r.ctx.config.monorepoTagPrefix = config.monorepoTagPrefix := by
  rcases r.view with h | ⟨ws, -, -, h⟩
  · rw [h]
  · rw [h, Config.applyWorkspaceOverlay]

end TrackRelease

/-- Releases stay on their tracks, and no two tracks share a tag. -/
structure TracksApart (releases : List (TrackRelease config)) : Prop where
  own : ∀ r ∈ releases, ∀ tag, r.Resolves tag → InOwnFamily config r.crateCfg tag
  apart : ∀ r ∈ releases, ∀ r' ∈ releases,
    tagFamilyPrefix r.crateCfg.tagFamilyTemplate config.monorepoTagPrefix ≠
      tagFamilyPrefix r'.crateCfg.tagFamilyTemplate config.monorepoTagPrefix →
    ∀ tag, r.Resolves tag → ¬r'.Resolves tag

/-- A literal name fits the track: the family of the crate has a prefix, or is bare and the name
starts with a digit; the run sees several families, or the name spells the prefix out; and no
family of the configuration continues the prefix as the name does. -/
def NameFits (config view : Config) (crateCfg : CrateConfig) (name : Text) : Prop :=
  ∃ scope, tagFamilyScope crateCfg.tagFamilyTemplate config.monorepoTagPrefix = some scope ∧
    (scope = .bareVersion → name.head?.any Char.isDigit = true) ∧
    (view.mintsMultipleTagFamilies = true ∨ scope.lead <+: name) ∧
    ∀ s ∈ config.siblingTagFamiliesOf crateCfg.tagFamilyTemplate, ∀ x, x ≠ [] →
      tagFamilyPrefix s config.monorepoTagPrefix = some (scope.lead ++ x) →
        ¬x <+: stripMonorepoPrefix name scope.lead

/-- No family that the run does not see takes the declared tag. -/
def SeenByView (config view : Config) (crateCfg : CrateConfig) (d : Text) : Prop :=
  ∀ s ∈ config.siblingTagFamiliesOf crateCfg.tagFamilyTemplate,
    s ∉ view.siblingTagFamiliesOf crateCfg.tagFamilyTemplate →
      ∀ p q, tagFamilyPrefix crateCfg.tagFamilyTemplate config.monorepoTagPrefix = some p →
        tagFamilyPrefix s config.monorepoTagPrefix = some q → byteLength p < byteLength q →
          ¬q <+: d

/-- What the tag of a release is taken from fits the track of its crate. -/
def TrackRelease.Fits (r : TrackRelease config) : Prop :=
  match r.rung with
  | .nightly template => ∀ name, r.ctx.render template = .ok name → Template.trim name ≠ [] →
    NameFits config r.ctx.config r.crateCfg (Template.trim name)
  | .declared d => SeenByView config r.ctx.config r.crateCfg d
  | .override _ => True
  | .family _ => True

/-! ### One release -/

variable {view : Config} {crateCfg : CrateConfig} {name : Text} {scope : TagFamilyScope}

theorem inOwnFamily_iff : InOwnFamily config crateCfg tag ↔
    ∃ scope, tagFamilyScope crateCfg.tagFamilyTemplate config.monorepoTagPrefix = some scope ∧
      scope.contains tag = true ∧
      ¬Takes config.monorepoTagPrefix (config.siblingTagFamiliesOf crateCfg.tagFamilyTemplate)
        scope.lead tag :=
  tagInFamilyExcludingSiblings_iff

/-- The tag of a literal name: the prefix is glued on when the run sees several families. -/
theorem scopeToTagFamily_eq {ctx : ReleaseContext}
    (hns : ctx.config.monorepoTagPrefix = config.monorepoTagPrefix) (hname : name ≠ [])
    (hscope : tagFamilyScope crateCfg.tagFamilyTemplate config.monorepoTagPrefix = some scope) :
    ctx.scopeToTagFamily crateCfg name =
      if ctx.config.mintsMultipleTagFamilies then
        scope.lead ++ stripMonorepoPrefix name scope.lead
      else name := by
  rw [ReleaseContext.scopeToTagFamily, hns, tagFamilyPrefix_of_scope hscope]
  dsimp only
  rw [composePrefix_strip]
  cases ctx.config.mintsMultipleTagFamilies <;> simp [hname]

theorem append_stripped {p : Text} (h : p <+: name) :
    p ++ stripMonorepoPrefix name p = name := by
  obtain ⟨x, rfl⟩ := h
  simp [stripMonorepoPrefix]

/-- A literal name stays on the track exactly when it fits. -/
theorem inOwnFamily_scopeToTagFamily_iff {ctx : ReleaseContext}
    (hns : ctx.config.monorepoTagPrefix = config.monorepoTagPrefix) (hname : name ≠ []) :
    InOwnFamily config crateCfg (ctx.scopeToTagFamily crateCfg name) ↔
      NameFits config ctx.config crateCfg name := by
  rw [inOwnFamily_iff, NameFits]
  refine exists_congr fun scope => and_congr_right fun hscope => ?_
  rw [scopeToTagFamily_eq hns hname hscope]
  have htakes : ∀ rest, Takes config.monorepoTagPrefix
      (config.siblingTagFamiliesOf crateCfg.tagFamilyTemplate) scope.lead (scope.lead ++ rest) ↔
      ∃ s ∈ config.siblingTagFamiliesOf crateCfg.tagFamilyTemplate, ∃ x, x ≠ [] ∧
        tagFamilyPrefix s config.monorepoTagPrefix = some (scope.lead ++ x) ∧ x <+: rest := by
    intro rest
    simp only [Takes, List.prefix_append_right_inj]
  -- the tag is the prefix of the family and the rest of the name
  have hglued : (scope.contains (scope.lead ++ stripMonorepoPrefix name scope.lead) = true ∧
      ¬Takes config.monorepoTagPrefix
        (config.siblingTagFamiliesOf crateCfg.tagFamilyTemplate) scope.lead
        (scope.lead ++ stripMonorepoPrefix name scope.lead)) ↔
      (scope = .bareVersion → name.head?.any Char.isDigit = true) ∧
      ∀ s ∈ config.siblingTagFamiliesOf crateCfg.tagFamilyTemplate, ∀ x, x ≠ [] →
        tagFamilyPrefix s config.monorepoTagPrefix = some (scope.lead ++ x) →
          ¬x <+: stripMonorepoPrefix name scope.lead := by
    rw [htakes, TagFamilyScope.contains_iff]
    refine and_congr ?_ (by simp only [not_exists, not_and])
    constructor
    · rintro ⟨-, h⟩ rfl
      simpa [TagFamilyScope.lead, stripMonorepoPrefix] using h rfl
    · refine fun h => ⟨List.prefix_append _ _, ?_⟩
      rintro rfl
      simpa [TagFamilyScope.lead, stripMonorepoPrefix] using h rfl
  by_cases hmints : ctx.config.mintsMultipleTagFamilies = true
  · rw [if_pos hmints, hglued]
    simp only [hmints, true_or, true_and]
  · rw [if_neg hmints]
    simp only [hmints, Bool.false_eq_true, false_or]
    by_cases hpre : scope.lead <+: name
    · rw [append_stripped hpre] at hglued
      rw [hglued]
      simp only [hpre, true_and]
    · constructor
      · exact fun h => absurd (TagFamilyScope.contains_iff.mp h.1).1 hpre
      · exact fun h => absurd h.2.1 hpre

/-- A declared tag stays on the track exactly when the run sees the families that take it. -/
theorem inOwnFamily_declared_iff
    (hns : view.monorepoTagPrefix = config.monorepoTagPrefix)
    (hin : tagInFamilyExcludingSiblings d crateCfg.tagFamilyTemplate view.monorepoTagPrefix
      (view.siblingTagFamiliesOf crateCfg.tagFamilyTemplate) = true) :
    InOwnFamily config crateCfg d ↔ SeenByView config view crateCfg d := by
  rw [hns] at hin
  obtain ⟨scope, hscope, hd, hfree⟩ := tagInFamilyExcludingSiblings_iff.mp hin
  have hlead := (TagFamilyScope.contains_iff.mp hd).1
  rw [inOwnFamily_iff, SeenByView, tagFamilyPrefix_of_scope hscope]
  simp only [hscope, Option.some.injEq, exists_eq_left', hd, true_and]
  constructor
  · rintro h s hs - p q rfl hq hlt hpre
    obtain ⟨x, hx, rfl, hx'⟩ := (longer_prefix_iff hlead).mp ⟨hlt, hpre⟩
    exact h ⟨s, hs, x, hx, hq, hx'⟩
  · rintro h ⟨s, hs, x, hx, hq, hpre⟩
    obtain ⟨hlt, hpre'⟩ := (longer_prefix_iff hlead).mpr ⟨x, hx, rfl, hpre⟩
    by_cases hview : s ∈ view.siblingTagFamiliesOf crateCfg.tagFamilyTemplate
    · exact hfree ⟨s, hview, x, hx, hq, hpre⟩
    · exact h s hs hview _ _ rfl hq hlt hpre'

/-- A release stays on its track exactly when what its tag is taken from fits. -/
theorem TrackRelease.fits_iff (r : TrackRelease config) :
    (∀ tag, r.Resolves tag → InOwnFamily config r.crateCfg tag) ↔ r.Fits := by
  have hns := r.monorepoTagPrefix_eq
  unfold Fits Resolves
  cases hr : r.rung with
  | nightly template =>
    simp only [ReleaseContext.resolve_nightly_iff hr]
    constructor
    · intro h name hname hne
      exact (inOwnFamily_scopeToTagFamily_iff hns hne).mp
        (h _ ⟨⟨name, hname, hne, rfl⟩, .inl ⟨template, rfl⟩⟩)
    · rintro h tag ⟨⟨name, hname, hne, rfl⟩, -⟩
      exact (inOwnFamily_scopeToTagFamily_iff hns hne).mpr (h name hname hne)
  | declared d =>
    obtain ⟨hok, hin⟩ := ReleaseContext.resolve_declared_iff hr
    simp only [hok]
    rw [← inOwnFamily_declared_iff hns hin]
    constructor
    · exact fun h => h d ⟨rfl, .inr ⟨d, rfl⟩⟩
    · rintro h tag ⟨rfl, -⟩
      exact h
  | override template => simp
  | family template => simp

/-! ### All releases -/

theorem inOwnFamily_disjoint {c c' : CrateConfig} (hc : c ∈ config.crateUniverse.crates)
    (hc' : c' ∈ config.crateUniverse.crates)
    (hne : tagFamilyPrefix c.tagFamilyTemplate config.monorepoTagPrefix ≠
      tagFamilyPrefix c'.tagFamilyTemplate config.monorepoTagPrefix)
    (h : InOwnFamily config c tag) : ¬InOwnFamily config c' tag := by
  have htmpl : c.tagFamilyTemplate ≠ c'.tagFamilyTemplate := fun heq => hne (by rw [heq])
  have hdisj := tagInFamilyExcludingSiblings_disjoint hne
    (Config.mem_siblingTagFamiliesOf.mpr ⟨⟨c', hc', rfl⟩, htmpl.symm⟩)
    (Config.mem_siblingTagFamiliesOf.mpr ⟨⟨c, hc, rfl⟩, htmpl⟩) h
  rw [InOwnFamily, hdisj]
  exact Bool.false_ne_true

/-- Tracks stay apart exactly when every release fits the track of its crate. -/
theorem tracksApart_iff (releases : List (TrackRelease config)) :
    TracksApart releases ↔ ∀ r ∈ releases, r.Fits := by
  constructor
  · exact fun h r hr => r.fits_iff.mp (h.own r hr)
  · intro h
    have hown : ∀ r ∈ releases, ∀ tag, r.Resolves tag → InOwnFamily config r.crateCfg tag :=
      fun r hr => r.fits_iff.mpr (h r hr)
    refine ⟨hown, fun r hr r' hr' hne tag ht ht' => ?_⟩
    exact inOwnFamily_disjoint r.mem r'.mem hne (hown r hr tag ht) (hown r' hr' tag ht')

/-- A declared tag never leaves its track in a run that sees the whole configuration. -/
theorem declared_fits {r : TrackRelease config} (hview : r.ctx.config = config)
    (hr : r.rung = .declared d) : r.Fits := by
  rw [TrackRelease.Fits, hr]
  intro s hs hnot
  rw [hview] at hnot
  exact absurd hs hnot

/-! ### A run that sees one workspace -/

def track (name template : String) : CrateConfig :=
  ⟨name.toList, name.toList, some template.toList, none, none⟩

/-- Two workspaces, each with a track of its own. -/
def twoWorkspaces : Config where
  projectName := "app".toList
  crates := []
  workspaces := [[track "app" "v\x7b\x7b Version \x7d\x7d"],
    [track "operator" "operator-v\x7b\x7b Version \x7d\x7d"]]
  monorepoTagPrefix := none
  npms := none
  pypis := none

/-- A nightly of one workspace, whose name is `edge`. -/
def edgeNightly (ws : List CrateConfig) (c : CrateConfig)
    (hmem : c ∈ twoWorkspaces.crateUniverse.crates)
    (hws : ws ∈ twoWorkspaces.workspaces ∧ c ∈ ws) : TrackRelease twoWorkspaces where
  ctx := ⟨twoWorkspaces.applyWorkspaceOverlay ws, true, some "edge".toList, none, .ok⟩
  crateCfg := c
  override := none
  mem := hmem
  view := .inr ⟨ws, hws.1, hws.2, rfl⟩

def appNightly : TrackRelease twoWorkspaces :=
  edgeNightly [track "app" "v\x7b\x7b Version \x7d\x7d"]
    (track "app" "v\x7b\x7b Version \x7d\x7d") (by decide) (by decide)

def operatorNightly : TrackRelease twoWorkspaces :=
  edgeNightly [track "operator" "operator-v\x7b\x7b Version \x7d\x7d"]
    (track "operator" "operator-v\x7b\x7b Version \x7d\x7d") (by decide) (by decide)

theorem not_tracksApart : twoWorkspaces.mintsMultipleTagFamilies = true ∧
    ¬TracksApart [appNightly, operatorNightly] := by
  have happ : appNightly.Resolves "edge".toList := ⟨rfl, .inl ⟨"edge".toList, rfl⟩⟩
  have hoperator : operatorNightly.Resolves "edge".toList := ⟨rfl, .inl ⟨"edge".toList, rfl⟩⟩
  refine ⟨by decide, fun h => ?_⟩
  exact h.apart appNightly (by simp) operatorNightly (by simp) (by decide) _ happ hoperator

end Anodizer.Tag
