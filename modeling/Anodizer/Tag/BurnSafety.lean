import Mathlib.Data.List.Dedup
import Anodizer.Tag.BurnGuard

/-! # What the guard of a tag rollback protects

The registries are asked about the crates of a tag through its own prefix,
without the namespace of the monorepo. A crate whose template spells the
namespace out itself issues tags that are never mapped back to it.
-/

namespace Anodizer.Tag

open Template (Text CharTables)
open Git FirstOfEach

variable {u : CharTables} {config : Config} {tags : List Text} {t v : Text} {c : CrateConfig}
  {ev : Evidence}

/-! ### Tags and crates -/

variable (u config) in
/-- The family of the crate, inside the namespace, issues the tag at the version. -/
def IssuesAt (c : CrateConfig) (t v : Text) : Prop :=
  ∃ p w sv, tagFamilyPrefix c.tagFamilyTemplate config.monorepoTagPrefix = some p ∧
    parseSemver u w = some sv ∧ v = sv.versionString ∧ t = p ++ v

variable (config) in
/-- Less the namespace, the tag is the prefix of the crate and the version. -/
def Carries (t : Text) (c : CrateConfig) (v : Text) : Prop :=
  stripNamespace config t = c.tagPrefix ++ v

theorem IssuesAt.parse (h : IssuesAt u config c t v) : (parseSemver u v).isSome := by
  obtain ⟨p, w, sv, -, hw, rfl, -⟩ := h
  rw [(readable_of_parse hw).parse]
  rfl

theorem mem_cratesVersionedByTag : (c, v) ∈ cratesVersionedByTag u config t ↔
    c ∈ config.crateUniverse.crates ∧ Carries config t c v ∧ (parseSemver u v).isSome := by
  simp only [cratesVersionedByTag, List.mem_filterMap, Option.map_eq_some_iff, Prod.mk.injEq,
    versionOf, List.isPrefixOf_iff_prefix, Carries]
  constructor
  · rintro ⟨c, hc, v, hv, rfl, rfl⟩
    split at hv
    · next hpre =>
      obtain ⟨r, hr⟩ := hpre
      rw [← hr, List.drop_left] at hv
      split at hv
      · next hparse =>
        obtain rfl := Option.some.inj hv
        exact ⟨hc, hr.symm, hparse⟩
      · cases hv
    · cases hv
  · rintro ⟨hc, hcarries, hparse⟩
    refine ⟨c, hc, v, ?_, rfl, rfl⟩
    rw [hcarries, if_pos (List.prefix_append _ _), List.drop_left, if_pos hparse]

theorem composePrefix_eq {ns p : Text} (h : ns <+: p → ns = []) :
    composePrefix ns p = ns ++ p := by
  unfold composePrefix
  by_cases hns : ns = []
  · simp [hns]
  · have : ns.isPrefixOf p = false :=
      Bool.eq_false_iff.mpr fun hpre => hns (h (List.isPrefixOf_iff_prefix.mp hpre))
    simp [hns, this]

theorem tagFamilyPrefix_eq {template p : Text} {ns : Option Text}
    (hp : extractTagPrefix template = some p) (h : ns.getD [] <+: p → ns.getD [] = []) :
    tagFamilyPrefix template ns = some (ns.getD [] ++ p) := by
  rw [tagFamilyPrefix, tagFamilyScope, hp]
  by_cases hnil : p = []
  · by_cases hns : ns.getD [] = [] <;> simp [hnil, hns]
  · simp [hnil, composePrefix_eq h]

/-- A crate whose template has a version and does not spell the namespace out is mapped back. -/
theorem IssuesAt.carries {p : Text} (h : IssuesAt u config c t v)
    (hp : extractTagPrefix c.tagFamilyTemplate = some p)
    (hns : config.monorepoTagPrefix.getD [] <+: p → config.monorepoTagPrefix.getD [] = []) :
    Carries config t c v := by
  obtain ⟨q, w, sv, hq, -, -, rfl⟩ := h
  rw [tagFamilyPrefix_eq hp hns] at hq
  obtain rfl := Option.some.inj hq
  have htag : c.tagPrefix = p := by rw [CrateConfig.tagPrefix, perCrateTagPrefix, hp]; rfl
  rw [Carries, stripNamespace, htag]
  cases config.monorepoTagPrefix with
  | none => rfl
  | some ns =>
    rw [Option.getD_some, List.append_assoc]
    exact strip_append ns (p ++ v)

/-! ### What the guard checks -/

@[simp] theorem refuseIf_ok {α : Type} {l : List α} {refusal : Refusal} :
    refuseIf l refusal = .ok () ↔ l = [] := by
  cases l <;> simp [refuseIf]

/-- A check passes, then the rest does. -/
@[simp] theorem check_ok {α : Type} {x : Except Refusal Unit} {f : Unit → Except Refusal α}
    {a : α} : (x >>= f) = .ok a ↔ x = .ok () ∧ f () = .ok a := by
  cases x with
  | error e => simp [bind, Except.bind]
  | ok b => simp [bind, Except.bind]

theorem answered_iff {α : Type} {l : List α} {f : α → Option Bool} :
    l.filter (f · = some true) = [] ∧ l.filter (f · = none) = [] ↔
      ∀ p ∈ l, f p = some false := by
  simp only [List.filter_eq_nil_iff, decide_eq_true_eq]
  constructor
  · rintro ⟨htrue, hnone⟩ p hp
    cases h : f p with
    | none => exact absurd h (hnone p hp)
    | some b =>
      cases b with
      | false => rfl
      | true => exact absurd h (htrue p hp)
  · exact fun h => ⟨fun p hp => by simp [h p hp], fun p hp => by simp [h p hp]⟩

theorem checkNotBurnedOnCratesIo_ok {unsummarized : List Text} :
    checkNotBurnedOnCratesIo u config ev unsummarized tags = .ok () ↔
      (∃ c ∈ config.crateUniverse.crates, c.targetsCratesIo) →
        (∀ p ∈ cratesIoPending u config tags, ev.probes.cratesIo p.name p.version = some false) ∧
        cratesIoUnmapped u config tags = [] := by
  have hanswered := answered_iff (l := cratesIoPending u config tags)
    (f := fun p => ev.probes.cratesIo p.name p.version)
  rw [← hanswered]
  unfold checkNotBurnedOnCratesIo
  by_cases h : ∃ c ∈ config.crateUniverse.crates, c.targetsCratesIo
  · have hany : config.crateUniverse.crates.any (·.targetsCratesIo) := List.any_eq_true.mpr h
    simp only [hany, Bool.not_true, Bool.false_eq_true, if_false, check_ok, refuseIf_ok, h,
      true_imp_iff, and_assoc]
  · have hany : config.crateUniverse.crates.any (·.targetsCratesIo) = false := by
      simpa using h
    simp [hany, h, pure, Except.pure]

theorem checkNotBurnedOnNpmPypi_ok :
    checkNotBurnedOnNpmPypi u config ev tags = .ok () ↔
      (∀ p ∈ immutablePending u config tags, ev.probes.immutable p = some false) ∧
        immutableUnresolvable u config tags = [] := by
  rw [← answered_iff (f := ev.probes.immutable), checkNotBurnedOnNpmPypi]
  simp only [check_ok, refuseIf_ok, and_assoc]

/-- The guard passes when every layer does. -/
theorem checkNotIrreversiblyPublished_ok {unsummarized : List Text} :
    checkNotIrreversiblyPublished u config ev tags = .ok unsummarized ↔
      unsummarized = tags.filter (fun t => (ev.matching t).isEmpty) ∧
      tags.filterMap (summaryBurned ev) = [] ∧
      checkNotBurnedOnCratesIo u config ev unsummarized tags = .ok () ∧
      checkNotBurnedOnNpmPypi u config ev tags = .ok () ∧
      checkNotBurnedOnModeratedRegistries u config ev tags = .ok () ∧
      (unsummarized = [] ∨ checkNoPublishedReleases ev unsummarized = .ok ()) := by
  simp only [checkNotIrreversiblyPublished, check_ok, refuseIf_ok]
  constructor
  · rintro ⟨hsummary, hcargo, hnpm, hmoderated, h⟩
    split at h
    · next hempty =>
      obtain rfl := Except.ok.inj h
      exact ⟨rfl, hsummary, hcargo, hnpm, hmoderated, .inl (List.isEmpty_iff.mp hempty)⟩
    · obtain ⟨hreleases, h⟩ := check_ok.mp h
      obtain rfl := Except.ok.inj h
      exact ⟨rfl, hsummary, hcargo, hnpm, hmoderated, .inr hreleases⟩
  · rintro ⟨rfl, hsummary, hcargo, hnpm, hmoderated, h⟩
    refine ⟨hsummary, hcargo, hnpm, hmoderated, ?_⟩
    split
    · rfl
    · next hne => exact check_ok.mpr ⟨h.resolve_left (by simpa using hne), rfl⟩

/-! ### The condition -/

variable (u config) in
/-- Nothing says that a version of one of the tags is published for good. -/
structure NotBurned (ev : Evidence) (tags : List Text) : Prop where
  summaries : ∀ t ∈ tags, ∀ s ∈ ev.summaries, s.tag = t →
    s.irreversiblyPublished = false ∧ s.burnedSubmitterNames = []
  cratesIo : ∀ t ∈ tags, ∀ c ∈ config.crateUniverse.crates, ∀ v, IssuesAt u config c t v →
    c.targetsCratesIo → ∃ p ∈ cratesIoPending u config tags, p.name = c.name ∧ p.version = v ∧
      ev.probes.cratesIo c.name v = some false
  immutable : ∀ t ∈ tags, ∀ c ∈ config.crateUniverse.crates, ∀ v, IssuesAt u config c t v →
    ∀ e ∈ entries config, e.crateName = c.name → ∃ p ∈ immutablePending u config tags,
      p.registry = e.registry ∧ e.endpoint = some p.endpoint ∧ e.package = some p.package ∧
      p.version = v ∧ ev.probes.immutable p = some false

variable (u config) in
/-- The probe looks at the package of the entry, and at no other package under its text before. -/
def LooksAt (tags : List Text) (e : Entry) (v : Text) : Prop :=
  ∃ p, (immutableProbes u config tags).find? (·.key = p.key) = some p ∧
    p.registry = e.registry ∧ e.endpoint = some p.endpoint ∧ e.package = some p.package ∧
    p.version = v

variable (u config) in
/-- Every version that one of the tags stands for is mapped back to its crate and packages. -/
structure Seen (tags : List Text) : Prop where
  cratesIo : ∀ t ∈ tags, ∀ c ∈ config.crateUniverse.crates, ∀ v, IssuesAt u config c t v →
    c.targetsCratesIo → ∃ t' ∈ tags, Carries config t' c v
  immutable : ∀ t ∈ tags, ∀ c ∈ config.crateUniverse.crates, ∀ v, IssuesAt u config c t v →
    ∀ e ∈ entries config, e.crateName = c.name → LooksAt u config tags e v

variable (u config) in
/-- The configuration leaves a tag or a package unknown, so that the guard never passes. -/
def Unknown (tags : List Text) : Prop :=
  (∃ c ∈ config.crateUniverse.crates, c.targetsCratesIo) ∧
    (∃ t ∈ tags, ∀ c ∈ config.crateUniverse.crates, ∀ v, Carries config t c v →
      parseSemver u v = none) ∨
  ∃ t ∈ tags, ∃ e ∈ entries config, (versionedBy u config t e.crateName).isSome ∧
    (e.endpoint = none ∨ e.package = none)

theorem crate_eq {c' : CrateConfig} (h : c ∈ config.crateUniverse.crates)
    (h' : c' ∈ config.crateUniverse.crates) (hname : c'.name = c.name) : c' = c :=
  List.inj_on_of_nodup_map config.crateUniverse.distinct h' h hname

/-- A crate is looked up at the versions that the tags carry for it. -/
theorem exists_cratesIoPending (h : c ∈ config.crateUniverse.crates) (ht : c.targetsCratesIo) :
    (∃ p ∈ cratesIoPending u config tags, p.name = c.name ∧ p.version = v) ↔
      ∃ t ∈ tags, Carries config t c v ∧ (parseSemver u v).isSome := by
  constructor
  · rintro ⟨p, hp, hname, rfl⟩
    obtain ⟨t, htags, hp⟩ := List.mem_flatMap.mp (subset_firstOfEach hp)
    obtain ⟨⟨name, v⟩, hmem, rfl⟩ := List.mem_map.mp hp
    obtain ⟨⟨c', v'⟩, hc', heq⟩ := List.mem_filterMap.mp hmem
    dsimp only at heq
    split at heq
    · obtain ⟨rfl, rfl⟩ := Prod.mk.inj (Option.some.inj heq)
      obtain ⟨hcrate, hcarries, hparse⟩ := mem_cratesVersionedByTag.mp hc'
      obtain rfl := crate_eq h hcrate hname
      exact ⟨t, htags, hcarries, hparse⟩
    · cases heq
  · rintro ⟨t, htags, hcarries, hparse⟩
    have hmem := mem_cratesVersionedByTag.mpr ⟨h, hcarries, hparse⟩
    have hprobe : (c.name, v) ∈ (cratesIoVersionsForTag u config t).probes :=
      List.mem_filterMap.mpr ⟨(c, v), hmem, if_pos ht⟩
    have hall : (⟨t, c.name, v⟩ : CrateProbe) ∈ tags.flatMap fun tag =>
        (cratesIoVersionsForTag u config tag).probes.map fun nv => ⟨tag, nv.1, nv.2⟩ :=
      List.mem_flatMap.mpr ⟨t, htags, List.mem_map.mpr ⟨(c.name, v), hprobe, rfl⟩⟩
    obtain ⟨p, hp, hkey⟩ := exists_firstOfEach (fun p : CrateProbe => (p.name, p.version))
      hall
    exact ⟨p, hp, congrArg Prod.fst hkey, congrArg Prod.snd hkey⟩

theorem exists_immutablePending {e : Entry} :
    LooksAt u config tags e v ↔ ∃ p ∈ immutablePending u config tags, p.registry = e.registry ∧
      e.endpoint = some p.endpoint ∧ e.package = some p.package ∧ p.version = v := by
  constructor
  · rintro ⟨p, hp, h⟩
    exact ⟨p, mem_firstOfEach.mpr ⟨by simp, hp⟩, h⟩
  · rintro ⟨p, hp, h⟩
    exact ⟨p, (mem_firstOfEach.mp hp).2, h⟩

theorem cratesVersionedByTag_eq_nil : cratesVersionedByTag u config t = [] ↔
    ∀ c ∈ config.crateUniverse.crates, ∀ v, Carries config t c v → parseSemver u v = none := by
  rw [List.eq_nil_iff_forall_not_mem]
  constructor
  · intro h c hc v hcarries
    by_contra hparse
    exact h (c, v) (mem_cratesVersionedByTag.mpr ⟨hc, hcarries, Option.isSome_iff_ne_none.mpr hparse⟩)
  · rintro h ⟨c, v⟩ hmem
    obtain ⟨hc, hcarries, hparse⟩ := mem_cratesVersionedByTag.mp hmem
    rw [h c hc v hcarries] at hparse
    cases hparse

theorem mem_cratesIoUnmapped : t ∈ cratesIoUnmapped u config tags ↔
    t ∈ tags ∧ cratesVersionedByTag u config t = [] := by
  simp only [cratesIoUnmapped, cratesIoVersionsForTag, List.mem_filter, Bool.and_eq_true,
    List.isEmpty_iff, decide_eq_true_eq, and_congr_right_iff]
  intro _
  cases hl : cratesVersionedByTag u config t with
  | nil => simp
  | cons a l => cases ha : a.1.targetsCratesIo <;> simp [ha]

theorem unknown_iff : Unknown u config tags ↔
    (∃ c ∈ config.crateUniverse.crates, c.targetsCratesIo) ∧
      cratesIoUnmapped u config tags ≠ [] ∨ immutableUnresolvable u config tags ≠ [] := by
  have hunmapped : cratesIoUnmapped u config tags ≠ [] ↔
      ∃ t ∈ tags, cratesVersionedByTag u config t = [] := by
    simp only [ne_eq, List.eq_nil_iff_forall_not_mem, not_forall, not_not, mem_cratesIoUnmapped]
  have hunresolvable : immutableUnresolvable u config tags ≠ [] ↔
      ∃ t ∈ tags, ∃ e ∈ entries config, (versionedBy u config t e.crateName).isSome ∧
        (e.endpoint = none ∨ e.package = none) := by
    simp [immutableUnresolvable, or_iff_not_imp_left]
  simp only [Unknown, hunmapped, hunresolvable, cratesVersionedByTag_eq_nil]

/-! ### The guard protects what it sees -/

theorem summaryBurned_eq_none (h : summaryBurned ev t = none) {s : RunSummary}
    (hs : s ∈ ev.summaries) (ht : s.tag = t) :
    s.irreversiblyPublished = false ∧ s.burnedSubmitterNames = [] := by
  have hmem : s ∈ ev.matching t := by simp [Evidence.matching, hs, ht]
  simp only [summaryBurned, ite_eq_right_iff, reduceCtorEq, imp_false, Bool.or_eq_true,
    not_or, List.any_eq_true, Bool.not_eq_true', List.isEmpty_eq_false_iff, not_exists, not_and,
    Bool.not_eq_true, not_not] at h
  obtain ⟨hflag, hnames⟩ := h
  refine ⟨hflag s hmem, List.eq_nil_iff_forall_not_mem.mpr fun n hn => ?_⟩
  have hall : n ∈ (ev.matching t).flatMap (·.burnedSubmitterNames) :=
    List.mem_flatMap.mpr ⟨s, hmem, hn⟩
  rw [← List.mem_mergeSort, ← List.mem_dedup, hnames] at hall
  cases hall

theorem notBurned_of_ok {unsummarized : List Text} (hs : Seen u config tags)
    (h : checkNotIrreversiblyPublished u config ev tags = .ok unsummarized) :
    NotBurned u config ev tags := by
  obtain ⟨-, hsummaries, hcargo, hnpm, -, -⟩ := checkNotIrreversiblyPublished_ok.mp h
  constructor
  · intro t ht s hmem htag
    exact summaryBurned_eq_none (List.filterMap_eq_nil_iff.mp hsummaries t ht) hmem htag
  · intro t ht c hc v hissues htargets
    obtain ⟨hanswered, -⟩ := checkNotBurnedOnCratesIo_ok.mp hcargo ⟨c, hc, htargets⟩
    obtain ⟨t', ht', hcarries⟩ := hs.cratesIo t ht c hc v hissues htargets
    obtain ⟨p, hp, hname, rfl⟩ :=
      (exists_cratesIoPending hc htargets).mpr ⟨t', ht', hcarries, hissues.parse⟩
    exact ⟨p, hp, hname, rfl, hname ▸ hanswered p hp⟩
  · intro t ht c hc v hissues e he hcrate
    obtain ⟨hanswered, -⟩ := checkNotBurnedOnNpmPypi_ok.mp hnpm
    obtain ⟨p, hp, hreg, hend, hpkg, hv⟩ :=
      exists_immutablePending.mp (hs.immutable t ht c hc v hissues e he hcrate)
    exact ⟨p, hp, hreg, hend, hpkg, hv, hanswered p hp⟩

/-- No summary, no release, and every registry answers that it has nothing. -/
def clean : Evidence where
  summaries := []
  probes := ⟨fun _ _ => some false, fun _ _ _ => some false, fun _ _ _ => some false⟩
  chocolatey _ _ := some none
  winget _ := some none
  origin := .other
  release _ := .ok none

theorem check_clean (h : ¬ Unknown u config tags) :
    checkNotIrreversiblyPublished u config clean tags = .ok tags := by
  rw [unknown_iff, not_or, not_and, not_not, not_not] at h
  have himmutable : ∀ p, clean.probes.immutable p = some false := by
    intro p
    cases hp : p.registry <;> simp [BurnProbes.immutable, hp, clean]
  have hmoderated : ∀ p, (clean.moderated p).join = none := by
    intro p
    cases p <;> rfl
  refine checkNotIrreversiblyPublished_ok.mpr ⟨?_, ?_, ?_, ?_, ?_, .inr rfl⟩
  · simp [clean, Evidence.matching]
  · simp [summaryBurned, clean, Evidence.matching]
  · exact checkNotBurnedOnCratesIo_ok.mpr fun htargets => ⟨fun _ _ => rfl, h.1 htargets⟩
  · exact checkNotBurnedOnNpmPypi_ok.mpr ⟨fun p _ => himmutable p, h.2⟩
  · simp [checkNotBurnedOnModeratedRegistries, hmoderated]

/-- The guard protects every burned version exactly when it sees every version of the tags, or
never passes. -/
theorem checkNotIrreversiblyPublished_iff :
    (∀ ev unsummarized, checkNotIrreversiblyPublished u config ev tags = .ok unsummarized →
      NotBurned u config ev tags) ↔
    Seen u config tags ∨ Unknown u config tags := by
  constructor
  · intro h
    by_cases hunknown : Unknown u config tags
    · exact .inr hunknown
    · have hclean := h clean tags (check_clean hunknown)
      refine .inl ⟨fun t ht c hc v hissues htargets => ?_, fun t ht c hc v hissues e he hcrate => ?_⟩
      · obtain ⟨p, hp, hname, hv, -⟩ := hclean.cratesIo t ht c hc v hissues htargets
        obtain ⟨t', ht', hcarries, -⟩ :=
          (exists_cratesIoPending hc htargets).mp ⟨p, hp, hname, hv⟩
        exact ⟨t', ht', hcarries⟩
      · obtain ⟨p, hp, hreg, hend, hpkg, hv, -⟩ := hclean.immutable t ht c hc v hissues e he hcrate
        exact exists_immutablePending.mpr ⟨p, hp, hreg, hend, hpkg, hv⟩
  · rintro (hseen | hunknown) ev unsummarized hok
    · exact notBurned_of_ok hseen hok
    · obtain ⟨-, -, hcargo, hnpm, -, -⟩ := checkNotIrreversiblyPublished_ok.mp hok
      rcases unknown_iff.mp hunknown with ⟨htargets, hne⟩ | hne
      · exact absurd (checkNotBurnedOnCratesIo_ok.mp hcargo htargets).2 hne
      · exact absurd (checkNotBurnedOnNpmPypi_ok.mp hnpm).2 hne

/-! ### A namespace spelled out -/

def core : CrateConfig :=
  ⟨"core".toList, "core".toList, some "sub/core-v\x7b\x7b Version \x7d\x7d".toList, none, none⟩

/-- A monorepo crate that spells its namespace out, published to npm. -/
def spelledOut : Config where
  projectName := "core".toList
  crates := [core]
  workspaces := []
  monorepoTagPrefix := some "sub/".toList
  npms := some [⟨.postinstall, none, none, none, none⟩]
  pypis := none

/-- The registry has every version. -/
def live : Evidence :=
  { clean with probes := ⟨fun _ _ => some true, fun _ _ _ => some true, fun _ _ _ => some true⟩ }

/-- The guard lets the tag of a live npm version go. -/
theorem live_version_passes :
    checkNotIrreversiblyPublished .ascii spelledOut live ["sub/core-v1.2.3".toList] =
      .ok ["sub/core-v1.2.3".toList] ∧
    ¬ NotBurned .ascii spelledOut live ["sub/core-v1.2.3".toList] := by
  constructor
  · decide +kernel
  · intro h
    have hissues : IssuesAt .ascii spelledOut core "sub/core-v1.2.3".toList "1.2.3".toList :=
      ⟨"sub/core-v".toList, "1.2.3".toList, ⟨1, 2, 3, none, none⟩, by decide, by decide +kernel,
        by decide, by decide⟩
    obtain ⟨p, hp, -⟩ := h.immutable _ (by decide) core (by decide) _ hissues
      ⟨.npm, "core".toList, some NpmConfig.defaultRegistry, some "core".toList⟩ (by decide) rfl
    have hpending : immutablePending .ascii spelledOut ["sub/core-v1.2.3".toList] = [] := by
      decide +kernel
    rw [hpending] at hp
    cases hp

end Anodizer.Tag
