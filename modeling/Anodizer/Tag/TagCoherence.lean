import Anodizer.Tag.PerCrateTags

/-! # Coherent tags

Top-level crates that spell one prefix are tagged with one version, and a
planned version is later than the tags of the prefix it is planned from.
Groups that merely share a prefix, and crates with a family of their own, have
no such promise.
-/

namespace Anodizer.Tag

open Template (Text CharTables)
open Git

section Coherent

variable (u : CharTables) (git : GitView) (gc : GitConfig) (cfg : ResolvedConfig)

/-- A counted tag that the search may take as the previous one, with its version. -/
structure Candidate (pfx t : Text) (w : SemVer) : Prop where
  counts : Counts git gc cfg pfx t
  parse : parseSemverTag u t = some w
  stable : gc.smartsemver → cfg.prerelease = false → w.isPrerelease = false

/-- What the planned groups of a configuration promise. -/
structure Coherent (config : Config) (planned : List (List CrateConfig × TagPlan)) : Prop where
  oneVersion : ∀ p ∈ planned, ∀ q ∈ planned, ∀ c ∈ p.1, ∀ d ∈ q.1, c ∈ topLevelCrates config →
    d ∈ topLevelCrates config → ∀ k, explicitPrefix c = some k → explicitPrefix d = some k →
    p.2.newVersion = q.2.newVersion
  readable : cfg.prerelease = false → ∀ p ∈ planned, (parseSemver u p.2.newVersion).isSome
  later : ∀ p ∈ planned, ∀ first ∈ p.1.head?, ∀ c ∈ p.1, c.tagPrefix = first.tagPrefix →
    (∀ t w, Counts git gc cfg c.tagPrefix t → parseSemverTag u t = some w → Bumpable w) →
    ∀ t w, Candidate u git gc cfg c.tagPrefix t w → ∀ v, parseSemver u p.2.newVersion = some v →
    w.key < v.key

variable {u git gc cfg} {manifestVersion : Text → Option Text} {changedNames : List Text}
  {config : Config} {lockstep : Bool}

theorem planGroup_later {group : List CrateConfig} {plan : TagPlan} {first : CrateConfig} {t : Text}
    {w v : SemVer}
    (h : planGroup u git gc cfg manifestVersion changedNames group = some (some plan))
    (hfirst : first ∈ group.head?)
    (hbump : ∀ t w, Counts git gc cfg first.tagPrefix t → parseSemverTag u t = some w → Bumpable w)
    (ht : Candidate u git gc cfg first.tagPrefix t w)
    (hv : parseSemver u plan.newVersion = some v) : w.key < v.key := by
  obtain ⟨first', rest, bump, rfl, hplan⟩ := planGroup_some h
  obtain rfl : first' = first := by simpa using hfirst
  obtain ⟨prev, pv, hprev, hcounts, hpv, hle⟩ :=
    findPreviousTag_newest (groupConfig cfg first') u (t := t)
      ⟨ht.counts.listed, ht.counts.survives, ht.counts.pfx, ht.counts.remote⟩ ht.parse ht.stable
  rw [hprev] at hplan
  have hcounts' : Counts git gc cfg first'.tagPrefix prev :=
    ⟨hcounts.listed, hcounts.survives, hcounts.pfx, hcounts.remote⟩
  have hlater := plannedVersion_later hpv (hbump prev pv hcounts' hpv) hplan hv
  exact key_lt_of_release ((release_key_le hle).trans_lt hlater)

/-- The tags that a run plans for its groups are coherent. -/
theorem computePerCrateTags_coherent {results : List GroupTagResult}
    (h : computePerCrateTags u git gc cfg manifestVersion changedNames
      (detectRepoShape config lockstep).groups = some results) :
    ∃ planned : List (List CrateConfig × TagPlan),
      results = planned.map (fun gp => groupTagResult u gp.1 gp.2) ∧
      (planned.map (·.1)).Sublist (detectRepoShape config lockstep).groups ∧
      Coherent u git gc cfg config planned := by
  unfold computePerCrateTags at h
  split at h
  · exact ⟨[], (Option.some.inj h).symm, by simp, by simp, by simp, by simp⟩
  · obtain ⟨planned, hplanned, rfl⟩ := Option.map_eq_some_iff.mp h
    obtain ⟨hsub, hplan⟩ := planGroups_some hplanned
    refine ⟨planned, rfl, hsub, ?_, ?_, ?_⟩
    · intro p hp q hq c hc d hd htop htop' k hk hk'
      have hgroup : p.1 = q.1 := groups_topLevel (hsub.subset (List.mem_map_of_mem hp))
        (hsub.subset (List.mem_map_of_mem hq)) hc hd htop htop' hk hk'
      have hpq := hplan p hp
      rw [hgroup, hplan q hq] at hpq
      rw [Option.some.inj (Option.some.inj hpq)]
    · intro hpre p hp
      obtain ⟨first, rest, bump, -, hplan⟩ := planGroup_some (hplan p hp)
      exact plannedVersion_readable (groupConfig cfg first) hpre hplan
    · intro p hp first hfirst c hc heq hbump t w ht v hv
      rw [heq] at hbump ht
      exact planGroup_later (hplan p hp) hfirst hbump ht hv

end Coherent

/-! ### Two crates of one prefix -/

def vTemplate : Text := "v\x7b\x7b Version \x7d\x7d".toList

/-- Crates in their own directories. -/
def crateOf (name : Text) (tagTemplate : Option Text) : CrateConfig :=
  ⟨name, name, tagTemplate, none, none⟩

def projectOf (crates : List CrateConfig) (workspaces : List (List CrateConfig)) : Config :=
  ⟨['p'], crates, workspaces, none, none, none⟩

/-- The first crate has a feature since its previous tag, and the others a fix. -/
def viewOf (tags : List Text) (remote : Option (List Text)) : GitView where
  allTags := tags
  mergedTags := tags
  remoteTags := remote
  lastMessages _ _ path := some [if path = ['a'] then "feat: x".toList else "fix: x".toList]
  messagesSince _ _ path := some [if path = ['a'] then "feat: x".toList else "fix: x".toList]

def plainGit : GitConfig := ⟨none, ⟨[], []⟩⟩

/-- A crate that releases in the `v` family. -/
def onTrack (name : Text) : CrateConfig := crateOf name (some vTemplate)

def twoCratesOneTrack : Config := projectOf [onTrack ['a'], onTrack ['b']] []

/-- A flat list of two crates releases them under one tag. -/
theorem one_track_coherent : ∃ planned : List (List CrateConfig × TagPlan),
    [⟨[['a'], ['b']], [("v1.1.0".toList, "Release v1.1.0".toList),
      ("v1.1.0".toList, "Release v1.1.0".toList)], [(['a'], "1.1.0".toList),
      (['b'], "1.1.0".toList)], some "1.0.0".toList, some "v1.0.0".toList⟩] =
      planned.map (fun gp => groupTagResult .ascii gp.1 gp.2) ∧
    (planned.map (·.1)).Sublist (detectRepoShape twoCratesOneTrack false).groups ∧
    Coherent .ascii (viewOf ["v1.0.0".toList] none) plainGit .default twoCratesOneTrack planned := by
  have h : computePerCrateTags .ascii (viewOf ["v1.0.0".toList] none) plainGit .default
      (fun _ => some "1.0.0".toList) [['b']] (detectRepoShape twoCratesOneTrack false).groups =
      some [⟨[['a'], ['b']], [("v1.1.0".toList, "Release v1.1.0".toList),
        ("v1.1.0".toList, "Release v1.1.0".toList)], [(['a'], "1.1.0".toList),
        (['b'], "1.1.0".toList)], some "1.0.0".toList, some "v1.0.0".toList⟩] := by
    decide +kernel
  exact computePerCrateTags_coherent h

/-- Crates of one prefix get one version, and it is later than all the tags of the prefix. -/
structure NeverConflicts (u : CharTables) (git : GitView) (gc : GitConfig)
    (planned : List (List CrateConfig × TagPlan)) : Prop where
  oneVersion : ∀ p ∈ planned, ∀ q ∈ planned, ∀ c ∈ p.1, ∀ d ∈ q.1, c.tagPrefix = d.tagPrefix →
    p.2.newVersion = q.2.newVersion
  later : ∀ p ∈ planned, ∀ c ∈ p.1, ∀ t ∈ git.allTags, Survives gc.ignore t → c.tagPrefix <+: t →
    ∀ w, parseSemverTag u t = some w → ∃ v, parseSemver u p.2.newVersion = some v ∧ w.key < v.key

/-- The manifests of both crates are at 1.0.0, and both crates changed. -/
def runOf (config : Config) (git : GitView) (gc : GitConfig) (cfg : ResolvedConfig) :
    Option (List GroupTagResult) :=
  computePerCrateTags .ascii git gc cfg (fun _ => some "1.0.0".toList) [['a'], ['b']]
    (detectRepoShape config false).groups

/-- The guard accepts the configuration, and the planned tags conflict. -/
def Conflicts (config : Config) (git : GitView) (gc : GitConfig) (cfg : ResolvedConfig) : Prop :=
  guardFlatAggregateCoherence (fun _ => some "1.0.0".toList) none config false = .ok () ∧
  ∃ planned, runOf config git gc cfg =
      some (planned.map fun gp => groupTagResult .ascii gp.1 gp.2) ∧
    ¬ NeverConflicts .ascii git gc planned

def planOf (pfx version oldTag : String) : TagPlan :=
  ⟨pfx.toList ++ version.toList, version.toList, oldTag.toList⟩

section Scenarios

variable {config : Config} {git : GitView} {gc : GitConfig} {cfg : ResolvedConfig}
  {planned : List (List CrateConfig × TagPlan)} {p q : List CrateConfig × TagPlan}
  {c d : CrateConfig} {t : Text} {w v : SemVer}

variable (planned) in
theorem conflicts_of_versions
    (hguard : guardFlatAggregateCoherence (fun _ => some "1.0.0".toList) none config false = .ok ())
    (hrun : runOf config git gc cfg =
      some (planned.map fun gp => groupTagResult .ascii gp.1 gp.2))
    (hp : p ∈ planned) (hq : q ∈ planned) (hc : c ∈ p.1) (hd : d ∈ q.1)
    (hpfx : c.tagPrefix = d.tagPrefix) (hne : p.2.newVersion ≠ q.2.newVersion) :
    Conflicts config git gc cfg :=
  ⟨hguard, planned, hrun, fun h => hne (h.oneVersion p hp q hq c hc d hd hpfx)⟩

variable (planned) in
theorem conflicts_of_older
    (hguard : guardFlatAggregateCoherence (fun _ => some "1.0.0".toList) none config false = .ok ())
    (hrun : runOf config git gc cfg =
      some (planned.map fun gp => groupTagResult .ascii gp.1 gp.2))
    (hp : p ∈ planned) (hc : c ∈ p.1) (ht : t ∈ git.allTags) (hsurv : Survives gc.ignore t)
    (hpfx : c.tagPrefix <+: t) (hw : parseSemverTag .ascii t = some w)
    (hv : (parseSemver .ascii p.2.newVersion).all (·.compare w ≠ .gt)) :
    Conflicts config git gc cfg := by
  refine ⟨hguard, planned, hrun, fun h => ?_⟩
  obtain ⟨v, hparse, hlt⟩ := h.later p hp c hc t ht hsurv hpfx w hw
  rw [hparse, Option.all_some, decide_eq_true_eq] at hv
  exact hv (SemVer.compare_eq_gt.mpr hlt)

end Scenarios

/-- Two workspaces share a prefix; a template spells the family of another crate. A workspace has
a crate with a newer family of its own; the newer tag is on no remote, off the branch, or a
prerelease; the number to raise is the largest; the prerelease suffix is empty. -/
theorem planned_tags_conflict :
    Conflicts (projectOf [] [[onTrack ['a']], [onTrack ['b']]])
      (viewOf ["v1.0.0".toList] none) plainGit .default ∧
    Conflicts (projectOf [crateOf ['a'] (some "b-v\x7b\x7b Version \x7d\x7d".toList),
      crateOf ['b'] none] []) (viewOf ["b-v1.0.0".toList] none) plainGit .default ∧
    Conflicts (projectOf [] [[onTrack ['a'], crateOf ['b'] none]])
      (viewOf ["v1.0.0".toList, "b-v2.0.0".toList] none) plainGit .default ∧
    Conflicts twoCratesOneTrack (viewOf ["v5.0.0".toList] (some [])) plainGit .default ∧
    Conflicts twoCratesOneTrack { viewOf ["v5.0.0".toList] none with mergedTags := [] } plainGit
      { ResolvedConfig.default with tagContext := "branch".toList } ∧
    Conflicts twoCratesOneTrack (viewOf ["v2.0.0-rc.1".toList] none)
      ⟨some "smartsemver".toList, ⟨[], []⟩⟩ .default ∧
    Conflicts twoCratesOneTrack (viewOf ["v1.18446744073709551615.0".toList] none) plainGit
      .default ∧
    Conflicts twoCratesOneTrack (viewOf ["v1.0.0".toList] none) plainGit
      { ResolvedConfig.default with prerelease := true, prereleaseSuffix := [] } := by
  have hsurv : ∀ t, isNightlyTag t = false → Survives ⟨[], []⟩ t := fun t h => ⟨h, rfl, rfl⟩
  refine ⟨?_, ?_, ?_, ?_, ?_, ?_, ?_, ?_⟩
  · exact conflicts_of_versions (c := onTrack ['a']) (d := onTrack ['b'])
      [([onTrack ['a']], planOf "v" "1.1.0" "v1.0.0"),
        ([onTrack ['b']], planOf "v" "1.0.1" "v1.0.0")] rfl (by decide +kernel)
      (.head _) (.tail _ (.head _)) (.head _) (.head _) rfl (by decide)
  · exact conflicts_of_versions
      (c := crateOf ['a'] (some "b-v\x7b\x7b Version \x7d\x7d".toList)) (d := crateOf ['b'] none)
      [([crateOf ['a'] (some "b-v\x7b\x7b Version \x7d\x7d".toList)],
        planOf "b-v" "1.1.0" "b-v1.0.0"), ([crateOf ['b'] none], planOf "b-v" "1.0.1" "b-v1.0.0")] rfl
      (by decide +kernel) (.head _) (.tail _ (.head _)) (.head _) (.head _) (by decide +kernel)
      (by decide)
  · exact conflicts_of_older (c := crateOf ['b'] none) (t := "b-v2.0.0".toList)
      [([onTrack ['a'], crateOf ['b'] none], planOf "v" "1.1.0" "v1.0.0")] rfl
      (by decide +kernel) (.head _) (.tail _ (.head _)) (.tail _ (.head _)) (hsurv _ (by decide))
      (List.isPrefixOf_iff_prefix.mp (by decide +kernel)) (w := ⟨2, 0, 0, none, none⟩)
      (by decide +kernel) (by decide +kernel)
  · exact conflicts_of_older (c := onTrack ['a']) (t := "v5.0.0".toList)
      [([onTrack ['a'], onTrack ['b']], planOf "v" "1.0.0" "")] rfl (by decide +kernel)
      (.head _) (.head _) (.head _) (hsurv _ (by decide))
      (List.isPrefixOf_iff_prefix.mp (by decide +kernel)) (w := ⟨5, 0, 0, none, none⟩)
      (by decide +kernel) (by decide +kernel)
  · exact conflicts_of_older (c := onTrack ['a']) (t := "v5.0.0".toList)
      [([onTrack ['a'], onTrack ['b']], planOf "v" "1.0.0" "")] rfl (by decide +kernel)
      (.head _) (.head _) (.head _) (hsurv _ (by decide))
      (List.isPrefixOf_iff_prefix.mp (by decide +kernel)) (w := ⟨5, 0, 0, none, none⟩)
      (by decide +kernel) (by decide +kernel)
  · exact conflicts_of_older (c := onTrack ['a']) (t := "v2.0.0-rc.1".toList)
      [([onTrack ['a'], onTrack ['b']], planOf "v" "1.0.0" "")] rfl (by decide +kernel)
      (.head _) (.head _) (.head _) (hsurv _ (by decide))
      (List.isPrefixOf_iff_prefix.mp (by decide +kernel))
      (w := ⟨2, 0, 0, some "rc.1".toList, none⟩) (by decide +kernel) (by decide +kernel)
  · exact conflicts_of_older (c := onTrack ['a']) (t := "v1.18446744073709551615.0".toList)
      [([onTrack ['a'], onTrack ['b']],
        planOf "v" "1.0.0" "v1.18446744073709551615.0")] rfl (by decide +kernel)
      (.head _) (.head _) (.head _) (hsurv _ (by decide))
      (List.isPrefixOf_iff_prefix.mp (by decide +kernel))
      (w := ⟨1, 18446744073709551615, 0, none, none⟩) (by decide +kernel) (by decide +kernel)
  · exact conflicts_of_older (c := onTrack ['a']) (t := "v1.0.0".toList)
      [([onTrack ['a'], onTrack ['b']], planOf "v" "1.1.0-" "v1.0.0")] rfl
      (by decide +kernel) (.head _) (.head _) (.head _) (hsurv _ (by decide))
      (List.isPrefixOf_iff_prefix.mp (by decide +kernel)) (w := ⟨1, 0, 0, none, none⟩)
      (by decide +kernel) (by decide +kernel)

end Anodizer.Tag
