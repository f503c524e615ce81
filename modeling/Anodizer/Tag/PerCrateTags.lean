import Anodizer.Tag.BumpDetect
import Anodizer.Tag.RepoShape

/-! # Per-crate tags

A group is tagged with one version, planned from the tags of its first crate
and the manifest that is furthest ahead. Every crate of the group puts it in
its own family.
-/

namespace Anodizer.Tag

open Template (Text CharTables)
open Git

/-! ### What the plan reads -/

/-- The tags and the commits of the repository, as git answers for them. -/
structure GitView where
  allTags : List Text
  mergedTags : List Text
  remoteTags : Option (List Text)
  lastMessages : Bool → ℕ → Text → Option (List Text)
  messagesSince : Bool → Text → Text → Option (List Text)

/-- The tag options of the git configuration. -/
structure GitConfig where
  tagSort : Option Text
  ignore : Ignore

def GitConfig.smartsemver (gc : GitConfig) : Bool := gc.tagSort = some "smartsemver".toList

section Plan

variable (u : CharTables) (git : GitView) (gc : GitConfig) (cfg : ResolvedConfig)

def GitView.scopedTags (git : GitView) (cfg : ResolvedConfig) : List Text :=
  if cfg.tagContext = "branch".toList then git.mergedTags else git.allTags

/-- The newest tag of the prefix, of those the remote still has. -/
def findPreviousTag : Option Text :=
  let tags := collectSemverTags u (git.scopedTags cfg) cfg.tagPrefix gc.ignore
  let tags := match git.remoteTags with
    | some remote => tags.filter (· ∈ remote)
    | none => tags
  if gc.smartsemver && !cfg.prerelease then
    tags.find? fun t => (parseSemverTag u t).any (!·.isPrerelease)
  else tags.head?

def getMessagesForBump (prevTag : Option Text) (path : Text) : Option (List Text) :=
  if cfg.branchHistory = "last".toList then git.lastMessages cfg.expandSquashMerges 1 path
  else if cfg.branchHistory ∈ ["full".toList, "compare".toList] then
    match prevTag with
    | some tag => git.messagesSince cfg.expandSquashMerges tag path
    | none => git.lastMessages cfg.expandSquashMerges 500 path
  else none

/-- The manifest is of a later release than the baseline. -/
def manifestVersionAhead (candidate : Option Text) (baseline : Option SemVer) : Bool :=
  match candidate.bind (parseSemver u), baseline with
  | some c, some b => (release c).compare (release b) = .gt
  | _, _ => false

structure TagPlan where
  newTag : Text
  newVersion : Text
  oldTag : Text
  deriving DecidableEq, Repr

/-- The release that the tags alone ask for, and the tag it comes from. -/
def tagDerived (prevTag : Option Text) (bump : BumpKind) : Option (SemVer × Text) :=
  match prevTag with
  | some prev => (parseSemverTag u prev).map fun base => (applyBump base bump, prev)
  | none => some (release ((parseSemverTag u (cfg.tagPrefix ++ cfg.initialVersion)).getD
      ⟨0, 1, 0, none, none⟩), [])

def derivedVersion (new : SemVer) : Text :=
  new.rawVersionString ++ if cfg.prerelease then '-' :: cfg.prereleaseSuffix else []

/-- The next version, or nothing when nothing asks for a release. -/
def plannedVersion (prevTag : Option Text) (bump : BumpKind)
    (cargoCurrentVer versionOverride : Option Text) : Option (Option TagPlan) :=
  let cargoAhead := manifestVersionAhead u cargoCurrentVer (prevTag.bind (parseSemverTag u))
  if bump = .none && !cargoAhead && versionOverride.isNone then some none
  else (tagDerived u cfg prevTag bump).map fun (new, oldTag) =>
    let ahead := cargoCurrentVer.filter fun v => manifestVersionAhead u (some v) (some new)
    let newVersion := versionOverride.getD (ahead.getD (derivedVersion cfg new))
    some ⟨cfg.tagPrefix ++ newVersion, newVersion, oldTag⟩

end Plan

/-! ### Groups -/

/-- Keep the version of the later release, the later one of equal releases. -/
def furthest (best : Option (Text × SemVer)) (v : Text × SemVer) : Option (Text × SemVer) :=
  match best with
  | none => some v
  | some b => if (release b.2).compare (release v.2) = .gt then some b else some v

section Compute

variable (u : CharTables) (git : GitView) (gc : GitConfig) (cfg : ResolvedConfig)
  (manifestVersion : Text → Option Text)

def groupManifestVersion (group : List CrateConfig) : Option Text :=
  (((group.filterMap fun c => manifestVersion c.path).filterMap fun v =>
    (parseSemver u v).map fun sv => (v, sv)).foldl furthest none).map (·.1)

def versionFromTag (tag : Text) : Option Text :=
  if tag = [] then none else (parseSemverTag u tag).map SemVer.versionString

structure GroupTagResult where
  crateNames : List Text
  newTags : List (Text × Text)
  versionUpdates : List (Text × Text)
  oldVersion : Option Text
  prevTag : Option Text
  deriving DecidableEq, Repr

/-- The tags and the version updates of a group, one of each for every crate. -/
def groupTagResult (group : List CrateConfig) (plan : TagPlan) : GroupTagResult where
  crateNames := group.map CrateConfig.name
  newTags := group.map fun c =>
    (c.tagPrefix ++ plan.newVersion, "Release ".toList ++ (c.tagPrefix ++ plan.newVersion))
  versionUpdates := group.map fun c => (c.path, plan.newVersion)
  oldVersion := versionFromTag u plan.oldTag
  prevTag := if plan.oldTag = [] then none else some plan.oldTag

/-- The configuration with the prefix of the first crate. -/
def groupConfig (first : CrateConfig) : ResolvedConfig := { cfg with tagPrefix := first.tagPrefix }

/-- The plan of a group that holds a changed crate, if a release is asked for. -/
def planGroup (changedNames : List Text) (group : List CrateConfig) : Option (Option TagPlan) :=
  match group with
  | [] => some none
  | first :: rest =>
    if (first :: rest).any (·.name ∈ changedNames) then
      let groupCfg := groupConfig cfg first
      let prevTag := findPreviousTag u git gc groupCfg
      ((first :: rest).mapM fun c => getMessagesForBump git groupCfg prevTag c.path).bind
        fun messages =>
          plannedVersion u groupCfg prevTag
            (detectBumpDemoted u messages.flatten groupCfg prevTag)
            (groupManifestVersion u manifestVersion (first :: rest)) none
    else some none

/-- The groups that are tagged, each with its plan. -/
def planGroups (changedNames : List Text) (groups : List (List CrateConfig)) :
    Option (List (List CrateConfig × TagPlan)) :=
  groups.foldlM (fun planned g => (planGroup u git gc cfg manifestVersion changedNames g).map
    fun plan => planned ++ (plan.map fun p => (g, p)).toList) []

/-- The tags of the groups that hold a changed crate. -/
def computePerCrateTags (changedNames : List Text) (groups : List (List CrateConfig)) :
    Option (List GroupTagResult) :=
  if changedNames = [] then some []
  else (planGroups u git gc cfg manifestVersion changedNames groups).map fun planned =>
    planned.map fun gp => groupTagResult u gp.1 gp.2

end Compute

/-! ### The previous tag -/

section Previous

variable (git : GitView) (gc : GitConfig) (cfg : ResolvedConfig)

/-- A tag that the search for the previous tag of the prefix takes into account. -/
structure Counts (pfx t : Text) : Prop where
  listed : t ∈ git.scopedTags cfg
  survives : Survives gc.ignore t
  pfx : pfx <+: t
  remote : ∀ remote, git.remoteTags = some remote → t ∈ remote

variable {u : CharTables} {git gc cfg} {t : Text} {v w : SemVer}

theorem mem_collectSemverTags {tags : List Text} {p : Text} {ign : Ignore} :
    t ∈ collectSemverTags u tags p ign ↔
      t ∈ tags ∧ Survives ign t ∧ p <+: t ∧ (parseSemverTag u t).isSome := by
  rw [← mem_planner, collectSemverTags]
  simp [List.mem_mergeSort]

/-- The planner lists the tags from the newest to the oldest. -/
theorem pairwise_collectSemverTags (tags : List Text) (p : Text) (ign : Ignore) :
    (collectSemverTags u tags p ign).Pairwise fun s t =>
      ∀ v w, parseSemverTag u s = some v → parseSemverTag u t = some w → w.key ≤ v.key := by
  have hparse : ∀ vt ∈ (plannerMatching u tags p ign).mergeSort fun a b =>
      b.1.compare a.1 != .gt, parseSemverTag u vt.2 = some vt.1 := by
    intro vt hvt
    obtain ⟨s, -, hs⟩ := List.mem_filterMap.mp (List.mem_mergeSort.mp hvt)
    obtain ⟨v, hv, rfl⟩ := Option.map_eq_some_iff.mp hs
    exact hv
  have hle : ∀ a b : SemVer × Text, (b.1.compare a.1 != .gt) = true ↔ b.1.key ≤ a.1.key := by
    intro a b
    rw [bne_iff_ne, ne_eq, SemVer.compare_eq_gt, not_lt]
  rw [collectSemverTags, List.pairwise_map]
  have hsorted := List.pairwise_mergeSort
    (fun a b c hab hbc => (hle a c).mpr (((hle b c).mp hbc).trans ((hle a b).mp hab)))
    (fun a b => by
      rw [Bool.or_eq_true, hle, hle]
      exact le_total _ _)
    (plannerMatching u tags p ign)
  refine hsorted.imp_of_mem fun ha hb hab v w hv hw => ?_
  obtain rfl := Option.some.inj ((hparse _ ha).symm.trans hv)
  obtain rfl := Option.some.inj ((hparse _ hb).symm.trans hw)
  exact (hle _ _).mp hab

/-- The first tag of a kind, in a list from the newest to the oldest, is the newest of its kind. -/
theorem find?_newest {tags : List Text} {q : Text → Bool} (hmem : t ∈ tags) (hq : q t)
    (hw : parseSemverTag u t = some w)
    (hsorted : tags.Pairwise fun s t => ∀ v w, parseSemverTag u s = some v →
      parseSemverTag u t = some w → w.key ≤ v.key)
    (hsome : ∀ s ∈ tags, (parseSemverTag u s).isSome) :
    ∃ prev v, tags.find? q = some prev ∧ parseSemverTag u prev = some v ∧ w.key ≤ v.key := by
  induction tags with
  | nil => exact absurd hmem (by simp)
  | cons s tags ih =>
    obtain ⟨hhead, htail⟩ := List.pairwise_cons.mp hsorted
    obtain ⟨v, hv⟩ := Option.isSome_iff_exists.mp (hsome s List.mem_cons_self)
    rw [List.find?_cons]
    rcases List.mem_cons.mp hmem with rfl | hmem
    · obtain rfl := Option.some.inj (hw.symm.trans hv)
      exact ⟨t, w, by rw [hq], hw, le_rfl⟩
    · split
      · exact ⟨s, v, rfl, hv, hhead t hmem v w hv hw⟩
      · exact ih hmem htail fun s hs => hsome s (List.mem_cons_of_mem _ hs)

variable (u cfg) in
/-- The previous tag is the newest that counts, and under smartsemver the newest release. -/
theorem findPreviousTag_newest (ht : Counts git gc cfg cfg.tagPrefix t)
    (hw : parseSemverTag u t = some w)
    (hstable : gc.smartsemver → cfg.prerelease = false → w.isPrerelease = false) :
    ∃ prev v, findPreviousTag u git gc cfg = some prev ∧ Counts git gc cfg cfg.tagPrefix prev ∧
      parseSemverTag u prev = some v ∧ w.key ≤ v.key := by
  have hlisted : t ∈ collectSemverTags u (git.scopedTags cfg) cfg.tagPrefix gc.ignore :=
    mem_collectSemverTags.mpr ⟨ht.listed, ht.survives, ht.pfx, by rw [hw]; rfl⟩
  have hsorted := pairwise_collectSemverTags (u := u) (git.scopedTags cfg) cfg.tagPrefix gc.ignore
  obtain ⟨tags, htags, hmem, hpair, hsome⟩ : ∃ tags : List Text,
      (match git.remoteTags with
        | some remote => (collectSemverTags u (git.scopedTags cfg) cfg.tagPrefix gc.ignore).filter
            (· ∈ remote)
        | none => collectSemverTags u (git.scopedTags cfg) cfg.tagPrefix gc.ignore) = tags ∧
      t ∈ tags ∧ tags.Pairwise (fun s t => ∀ v w, parseSemverTag u s = some v →
        parseSemverTag u t = some w → w.key ≤ v.key) ∧
      ∀ s ∈ tags, Counts git gc cfg cfg.tagPrefix s ∧ (parseSemverTag u s).isSome := by
    cases hremote : git.remoteTags with
    | none =>
      refine ⟨_, rfl, hlisted, hsorted, fun s hs => ?_⟩
      obtain ⟨hs, hsurv, hpfx, hparse⟩ := mem_collectSemverTags.mp hs
      exact ⟨⟨hs, hsurv, hpfx, by simp [hremote]⟩, hparse⟩
    | some remote =>
      refine ⟨_, rfl, ?_, hsorted.filter _, fun s hs => ?_⟩
      · simpa using ⟨hlisted, ht.remote remote hremote⟩
      · obtain ⟨hs, hin⟩ := List.mem_filter.mp hs
        obtain ⟨hs, hsurv, hpfx, hparse⟩ := mem_collectSemverTags.mp hs
        refine ⟨⟨hs, hsurv, hpfx, ?_⟩, hparse⟩
        rintro r hr
        obtain rfl := Option.some.inj (hremote.symm.trans hr)
        exact of_decide_eq_true hin
  have hhead : tags.head? = tags.find? fun _ => true := by cases tags <;> rfl
  unfold findPreviousTag
  simp only [htags, hhead]
  have hparse : ∀ s ∈ tags, (parseSemverTag u s).isSome := fun s hs => (hsome s hs).2
  split
  · next hsmart =>
    obtain ⟨hsmart, hpre⟩ := Bool.and_eq_true_iff.mp hsmart
    have hrelease := hstable hsmart (by simpa using hpre)
    obtain ⟨prev, v, hprev, hv, hle⟩ :=
      find?_newest (q := fun t => (parseSemverTag u t).any (!·.isPrerelease)) hmem
        (by rw [hw, Option.any_some, hrelease]; rfl) hw hpair hparse
    exact ⟨prev, v, hprev, (hsome prev (List.mem_of_find?_eq_some hprev)).1, hv, hle⟩
  · obtain ⟨prev, v, hprev, hv, hle⟩ := find?_newest (q := fun _ => true) hmem rfl hw hpair hparse
    exact ⟨prev, v, hprev, (hsome prev (List.mem_of_find?_eq_some hprev)).1, hv, hle⟩

end Previous

/-! ### The planned version -/

section Planned

variable {u : CharTables} {cfg : ResolvedConfig} {prev : Text} {v w : SemVer} {bump : BumpKind}
  {cargo : Option Text} {plan : TagPlan}

theorem manifestVersionAhead_release (m : Option Text) (v : SemVer) :
    manifestVersionAhead u m (some (release v)) = manifestVersionAhead u m (some v) := by
  unfold manifestVersionAhead
  cases m.bind (parseSemver u) <;> rfl

theorem manifestVersionAhead_some {m : Text} (h : manifestVersionAhead u (some m) (some v)) :
    ∃ c, parseSemver u m = some c ∧ (release v).key < (release c).key := by
  cases hm : parseSemver u m with
  | none => simp [manifestVersionAhead, hm] at h
  | some c =>
    simp only [manifestVersionAhead, Option.bind_some, hm] at h
    exact ⟨c, rfl, SemVer.compare_eq_gt.mp (of_decide_eq_true h)⟩

theorem derivedVersion_release (hrange : InRange v)
    (h : parseSemver u (derivedVersion cfg v) = some w) : release w = release v := by
  refine release_of_raw hrange ?_ h
  split <;> simp

/-- A plan takes the manifest when it is ahead, else the release that the tags ask for. -/
theorem plannedVersion_some {prevTag : Option Text}
    (h : plannedVersion u cfg prevTag bump cargo none = some (some plan)) :
    ∃ new, tagDerived u cfg prevTag bump = some (new, plan.oldTag) ∧
      plan.newTag = cfg.tagPrefix ++ plan.newVersion ∧
      (bump ≠ .none ∨ manifestVersionAhead u cargo (prevTag.bind (parseSemverTag u))) ∧
      ((∃ m, cargo = some m ∧ manifestVersionAhead u (some m) (some new) ∧ plan.newVersion = m) ∨
        manifestVersionAhead u cargo (some new) = false ∧
          plan.newVersion = derivedVersion cfg new) := by
  simp only [plannedVersion, Option.isNone_none, Bool.and_true, Option.getD_none] at h
  split at h
  · simp at h
  · next hasks =>
    obtain ⟨⟨new, oldTag⟩, hderived, heq⟩ := Option.map_eq_some_iff.mp h
    obtain rfl := Option.some.inj heq
    refine ⟨new, hderived, rfl, ?_, ?_⟩
    · by_cases hbump : bump = .none
      · refine .inr ?_
        simpa [hbump] using hasks
      · exact .inl hbump
    · cases hahead : cargo.filter fun m => manifestVersionAhead u (some m) (some new) with
      | some m =>
        obtain ⟨hm, hgt⟩ := Option.filter_eq_some_iff.mp hahead
        exact .inl ⟨m, hm, hgt, rfl⟩
      | none =>
        refine .inr ⟨?_, rfl⟩
        cases cargo with
        | none => rfl
        | some m => exact Bool.eq_false_iff.mpr (Option.filter_eq_none_iff.mp hahead m rfl)

/-- The planned version is of a later release than the previous tag. -/
theorem plannedVersion_later (hv : parseSemverTag u prev = some v) (hbump : Bumpable v)
    (h : plannedVersion u cfg (some prev) bump cargo none = some (some plan))
    (hw : parseSemver u plan.newVersion = some w) : (release v).key < (release w).key := by
  have hle : (release v).key ≤ (release (applyBump v bump)).key := by
    by_cases hnone : bump = .none
    · rw [hnone]
      exact le_rfl
    · exact (lt_applyBump hbump hnone).le
  obtain ⟨new, hderived, -, hasks, hnew⟩ := plannedVersion_some h
  obtain ⟨rfl, -⟩ : applyBump v bump = new ∧ prev = plan.oldTag := by
    simpa [tagDerived, hv] using hderived
  rcases hnew with ⟨m, -, hgt, hnew⟩ | ⟨hbehind, hnew⟩
  · obtain ⟨c, hc, hlt⟩ := manifestVersionAhead_some hgt
    rw [hnew] at hw
    obtain rfl := Option.some.inj (hc.symm.trans hw)
    exact hle.trans_lt hlt
  · rw [hnew] at hw
    rw [derivedVersion_release (parseSemverTag_inRange hv).applyBump hw]
    apply lt_applyBump hbump
    rintro rfl
    rw [applyBump, manifestVersionAhead_release] at hbehind
    simp [hv, hbehind] at hasks

variable (cfg) in
/-- Without a prerelease suffix the planned version reads as a version. -/
theorem plannedVersion_readable {prevTag : Option Text} (hpre : cfg.prerelease = false)
    (h : plannedVersion u cfg prevTag bump cargo none = some (some plan)) :
    (parseSemver u plan.newVersion).isSome := by
  obtain ⟨new, hderived, -, -, ⟨m, -, hgt, hnew⟩ | ⟨-, hnew⟩⟩ := plannedVersion_some h
  · obtain ⟨c, hc, -⟩ := manifestVersionAhead_some hgt
    rw [hnew, hc]
    rfl
  · have hrange : InRange new := by
      cases prevTag with
      | none =>
        obtain ⟨rfl, -⟩ : release _ = new ∧ [] = plan.oldTag := by
          simpa [tagDerived] using hderived
        cases hinit : parseSemverTag u (cfg.tagPrefix ++ cfg.initialVersion) with
        | none => exact ⟨Nat.two_pow_pos 64, Nat.one_lt_two_pow (by decide), Nat.two_pow_pos 64⟩
        | some base =>
          have hbase := parseSemverTag_inRange hinit
          exact ⟨hbase.major, hbase.minor, hbase.patch⟩
      | some prev =>
        obtain ⟨base, hbase, heq⟩ := Option.map_eq_some_iff.mp hderived
        obtain ⟨rfl, -⟩ := Prod.mk.inj heq
        exact (parseSemverTag_inRange hbase).applyBump
    rw [hnew, derivedVersion, if_neg (by simp [hpre]), List.append_nil, parseSemver_raw hrange]
    rfl

end Planned

/-! ### The planned groups -/

section Planned

variable {u : CharTables} {git : GitView} {gc : GitConfig} {cfg : ResolvedConfig}
  {manifestVersion : Text → Option Text} {changedNames : List Text}
  {groups : List (List CrateConfig)} {planned : List (List CrateConfig × TagPlan)}

/-- The planned groups are groups, in their order, with the plans that they get. -/
theorem planGroups_some
    (h : planGroups u git gc cfg manifestVersion changedNames groups = some planned) :
    (planned.map (·.1)).Sublist groups ∧ ∀ gp ∈ planned,
      planGroup u git gc cfg manifestVersion changedNames gp.1 = some (some gp.2) := by
  suffices hrun : ∀ out planned, groups.foldlM (fun planned g =>
      (planGroup u git gc cfg manifestVersion changedNames g).map
        fun plan => planned ++ (plan.map fun p => (g, p)).toList) out = some planned →
      ∃ new, planned = out ++ new ∧ (new.map (·.1)).Sublist groups ∧ ∀ gp ∈ new,
        planGroup u git gc cfg manifestVersion changedNames gp.1 = some (some gp.2) by
    obtain ⟨new, rfl, hnew⟩ := hrun [] planned h
    exact hnew
  clear h
  induction groups with
  | nil =>
    intro out planned h
    exact ⟨[], by simpa using (Option.some.inj h).symm, by simp, by simp⟩
  | cons g groups ih =>
    intro out planned h
    rw [List.foldlM_cons, Option.bind_eq_bind, Option.bind_eq_some_iff] at h
    obtain ⟨out', hg, hrest⟩ := h
    obtain ⟨plan, hplan, rfl⟩ := Option.map_eq_some_iff.mp hg
    obtain ⟨new, rfl, hsub, hnew⟩ := ih _ _ hrest
    cases plan with
    | none => exact ⟨new, by simp, hsub.cons g, hnew⟩
    | some p =>
      refine ⟨(g, p) :: new, by simp, by simpa using hsub, ?_⟩
      rintro gp hgp
      rcases List.mem_cons.mp hgp with rfl | hgp
      · exact hplan
      · exact hnew gp hgp

/-- A group gets its plan from the tags of its first crate. -/
theorem planGroup_some {group : List CrateConfig} {plan : TagPlan}
    (h : planGroup u git gc cfg manifestVersion changedNames group = some (some plan)) :
    ∃ first rest bump, group = first :: rest ∧
      plannedVersion u (groupConfig cfg first) (findPreviousTag u git gc (groupConfig cfg first))
        bump (groupManifestVersion u manifestVersion group) none = some (some plan) := by
  cases group with
  | nil => simp [planGroup] at h
  | cons first rest =>
    rw [planGroup] at h
    split at h
    · obtain ⟨messages, -, hplan⟩ := Option.bind_eq_some_iff.mp h
      exact ⟨first, rest, _, rfl, hplan⟩
    · simp at h

end Planned

end Anodizer.Tag
