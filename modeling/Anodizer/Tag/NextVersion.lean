import Anodizer.Git.Precedence
import Anodizer.Tag.PerCrateTags

/-! # The next version

A plan moves ahead of the previous tag. It falls behind the manifest when a prerelease of
the release that the manifest already names is planned.
-/

namespace Anodizer.Tag

open Template (Text CharTables)
open Git

variable {u : CharTables} {cfg : ResolvedConfig} {v w c new : SemVer} {bump : BumpKind}
  {prevTag cargo : Option Text}

/-! ### Releases -/

theorem sameRelease_iff : SameRelease v w ↔ (release v).key = (release w).key := by
  simp [SameRelease, SemVer.key, release, Prod.ext_iff]

theorem precedence_of_release_lt (h : (release v).key < (release w).key) :
    Spec.precedence v w = .lt := by
  have hne : ¬ SameRelease v w := fun hsame => h.ne (sameRelease_iff.mp hsame)
  rw [← (orderedAlike_of_not_sameRelease hne).precedence]
  exact SemVer.compare_eq_lt.mpr (key_lt_of_release h)

theorem precedence_of_sameRelease (h : SameRelease v w) :
    Spec.precedence v w = Spec.prerelease v.prerelease w.prerelease :=
  (compare_of_sameRelease h).2.1

/-- A version of no earlier release is lower only by its prerelease. -/
theorem precedence_ne_lt_iff (h : ¬ (release v).key < (release w).key) :
    Spec.precedence v w ≠ .lt ↔
      (SameRelease v w → Spec.prerelease v.prerelease w.prerelease ≠ .lt) := by
  by_cases hsame : SameRelease v w
  · rw [precedence_of_sameRelease hsame]
    exact ⟨fun hne _ => hne, fun hne => hne hsame⟩
  · refine iff_of_true ?_ fun hsame' => absurd hsame' hsame
    have hgt : (release w).key < (release v).key :=
      lt_of_le_of_ne (not_lt.mp h) fun heq => hsame (sameRelease_iff.mpr heq.symm)
    rw [← (orderedAlike_of_not_sameRelease hsame).precedence,
      SemVer.compare_eq_gt.mpr (key_lt_of_release hgt)]
    decide

theorem not_lt_of_not_ahead (hbehind : manifestVersionAhead u cargo (some v) = false)
    (hc : cargo.bind (parseSemver u) = some c) : ¬ (release v).key < (release c).key := by
  simpa [manifestVersionAhead, hc, SemVer.compare_eq_gt] using hbehind

/-- A version of a release that the manifest is not ahead of is lower than the manifest only by its
prerelease. -/
theorem keepsUp_iff (v : SemVer) (hv : release v = release new)
    (hbehind : manifestVersionAhead u cargo (some new) = false)
    (hc : cargo.bind (parseSemver u) = some c) : Spec.precedence v c ≠ .lt ↔
      (SameRelease new c → Spec.prerelease v.prerelease c.prerelease ≠ .lt) := by
  have hle := not_lt_of_not_ahead hbehind hc
  rw [← hv] at hle
  rw [precedence_ne_lt_iff hle, sameRelease_iff, sameRelease_iff, hv]

/-! ### The suffix -/

/-- The suffix is a prerelease, with build metadata behind it or not. -/
structure ReadsAs (s pre : Text) (build : Option Text) : Prop where
  text_eq : s = pre ++ SemVer.suffix '+' build
  prerelease : pre ≠ [] ∧ ∀ c ∈ pre, c ≠ '+'
  build : ∀ t ∈ build, t ≠ [] ∧ ∀ c ∈ t, c ≠ '\n'

/-- The prerelease of a release. -/
def prereleaseOf (new : SemVer) (pre : Text) (build : Option Text) : SemVer :=
  ⟨new.major, new.minor, new.patch, some pre, build⟩

theorem release_prereleaseOf (new : SemVer) (pre : Text) (build : Option Text) :
    release (prereleaseOf new pre build) = release new := rfl

theorem parse_derivedVersion (hrange : InRange new) (hpre : cfg.prerelease) :
    parseSemver u (derivedVersion cfg new) = some v ↔ ∃ pre build,
      ReadsAs cfg.prereleaseSuffix pre build ∧ v = prereleaseOf new pre build := by
  rw [derivedVersion, if_pos hpre, parseSemver_raw_append hrange rfl]
  constructor
  · rintro ⟨pre, build, htext, hpre, hbuild, rfl⟩
    cases pre with
    | none => exact absurd htext.symm (Spelling.suffix_ne_cons (by decide))
    | some pre =>
      exact ⟨pre, build, ⟨(List.cons.inj htext).2, hpre pre rfl, hbuild⟩, rfl⟩
  · rintro ⟨pre, build, h, rfl⟩
    refine ⟨some pre, build, congrArg _ h.text_eq, ?_, h.build, rfl⟩
    rintro t ⟨⟩
    exact h.prerelease

/-! ### The plan -/

/-- A plan leads to a version above the previous tag and not below the manifest. There is no plan
exactly when nothing asks for one. -/
structure NeverBackwards (u : CharTables) (cfg : ResolvedConfig) (prevTag : Option Text)
    (bump : BumpKind) (cargo : Option Text) : Prop where
  forward : ∀ plan, plannedVersion u cfg prevTag bump cargo none = some (some plan) →
    ∃ v, parseSemver u plan.newVersion = some v ∧
      (∀ p, prevTag.bind (parseSemverTag u) = some p → Spec.precedence p v = .lt) ∧
      ∀ c, cargo.bind (parseSemver u) = some c → Spec.precedence v c ≠ .lt
  none_iff : plannedVersion u cfg prevTag bump cargo none = some none ↔
    bump = .none ∧ manifestVersionAhead u cargo (prevTag.bind (parseSemverTag u)) = false

/-- A prerelease is planned only with a suffix that reads as one, and where the manifest is not of
the release itself, nor of a later prerelease of it. -/
def SuffixKeepsUp (u : CharTables) (cfg : ResolvedConfig) (prevTag : Option Text)
    (bump : BumpKind) (cargo : Option Text) : Prop :=
  ∀ new old, tagDerived u cfg prevTag bump = some (new, old) →
    manifestVersionAhead u cargo (some new) = false →
    ∃ pre build, ReadsAs cfg.prereleaseSuffix pre build ∧
      ∀ c, cargo.bind (parseSemver u) = some c → SameRelease new c →
        Spec.prerelease (some pre) c.prerelease ≠ .lt

/-- What the tags ask for can always be planned. -/
structure Derived (u : CharTables) (cfg : ResolvedConfig) (prevTag : Option Text)
    (bump : BumpKind) (new : SemVer) (old : Text) : Prop where
  derived : tagDerived u cfg prevTag bump = some (new, old)
  inRange : InRange new
  release_eq : release new = new
  later : bump ≠ .none → ∀ p, prevTag.bind (parseSemverTag u) = some p →
    (release p).key < (release new).key
  same : bump = .none → ∀ p, prevTag.bind (parseSemverTag u) = some p → release p = new

theorem exists_derived
    (h : ∀ prev ∈ prevTag, ∃ v, parseSemverTag u prev = some v ∧ Bumpable v) (cfg : ResolvedConfig)
    (bump : BumpKind) : ∃ new old, Derived u cfg prevTag bump new old := by
  cases prevTag with
  | none =>
    refine ⟨_, _, rfl, ?_, rfl, by simp, by simp⟩
    cases hinit : parseSemverTag u (cfg.tagPrefix ++ cfg.initialVersion) with
    | none => exact ⟨Nat.two_pow_pos 64, Nat.one_lt_two_pow (by decide), Nat.two_pow_pos 64⟩
    | some base =>
      have hbase := parseSemverTag_inRange hinit
      exact ⟨hbase.major, hbase.minor, hbase.patch⟩
  | some prev =>
    obtain ⟨v, hv, hbump⟩ := h prev rfl
    refine ⟨applyBump v bump, prev, by simp [tagDerived, hv], (parseSemverTag_inRange hv).applyBump,
      release_applyBump, ?_, ?_⟩
    · rintro hne p hp
      obtain rfl := Option.some.inj (hv.symm.trans hp)
      exact lt_applyBump hbump hne
    · rintro rfl p hp
      obtain rfl := Option.some.inj (hv.symm.trans hp)
      rfl

section Derived

variable {old : Text}

theorem Derived.plannedVersion_none (h : Derived u cfg prevTag bump new old) :
    plannedVersion u cfg prevTag bump cargo none = some none ↔
      bump = .none ∧ manifestVersionAhead u cargo (prevTag.bind (parseSemverTag u)) = false := by
  simp [plannedVersion, h.derived]

/-- A bump is planned from the tags where the manifest is not ahead. -/
theorem Derived.plannedVersion_bump (h : Derived u cfg prevTag bump new old)
    (hbump : bump ≠ .none) (hbehind : manifestVersionAhead u cargo (some new) = false) :
    plannedVersion u cfg prevTag bump cargo none = some (some
      ⟨cfg.tagPrefix ++ derivedVersion cfg new, derivedVersion cfg new, old⟩) := by
  have hfilter : (cargo.filter fun m => manifestVersionAhead u (some m) (some new)) = none := by
    cases cargo with
    | none => rfl
    | some m => exact Option.filter_eq_none_iff.mpr fun _ hm => by cases hm; simp [hbehind]
  simp [plannedVersion, h.derived, hbump, hfilter]

/-- Without a bump it is the manifest that asks for a plan, and it is ahead. -/
theorem Derived.bump_of_behind (h : Derived u cfg prevTag bump new old)
    (hasks : bump ≠ .none ∨ manifestVersionAhead u cargo (prevTag.bind (parseSemverTag u)))
    (hbehind : manifestVersionAhead u cargo (some new) = false) : bump ≠ .none := by
  rintro rfl
  rcases hasks with hne | hahead
  · exact hne rfl
  · cases hprev : prevTag.bind (parseSemverTag u) with
    | none => simp [manifestVersionAhead, hprev] at hahead
    | some p =>
      rw [← h.same rfl p hprev, manifestVersionAhead_release, ← hprev, hahead] at hbehind
      cases hbehind

/-- A version of the derived release is above the previous tag. -/
theorem Derived.above (h : Derived u cfg prevTag bump new old) (v : SemVer)
    (hv : release v = release new) (hbump : bump ≠ .none) {p : SemVer}
    (hp : prevTag.bind (parseSemverTag u) = some p) : Spec.precedence p v = .lt :=
  precedence_of_release_lt (hv ▸ h.later hbump p hp)

/-- So is a version of a later release. -/
theorem Derived.above_of_lt (h : Derived u cfg prevTag bump new old)
    (hv : (release new).key < (release v).key) {p : SemVer}
    (hp : prevTag.bind (parseSemverTag u) = some p) : Spec.precedence p v = .lt := by
  apply precedence_of_release_lt
  by_cases hbump : bump = .none
  · rwa [← h.same hbump p hp, release_release] at hv
  · exact (h.later hbump p hp).trans hv

theorem Derived.suffixKeepsUp (h : Derived u cfg prevTag bump new old) (hbump : bump ≠ .none)
    (hpre : cfg.prerelease) (hforward : NeverBackwards u cfg prevTag bump cargo) :
    SuffixKeepsUp u cfg prevTag bump cargo := by
  intro new' old' hderived hbehind
  obtain ⟨rfl, rfl⟩ := Prod.mk.inj (Option.some.inj (h.derived.symm.trans hderived))
  obtain ⟨v, hv, -, hmanifest⟩ := hforward.forward _ (h.plannedVersion_bump hbump hbehind)
  obtain ⟨pre, build, hreads, rfl⟩ := (parse_derivedVersion h.inRange hpre).mp hv
  refine ⟨pre, build, hreads, fun c hc hsame => ?_⟩
  exact (keepsUp_iff _ (release_prereleaseOf new pre build) hbehind hc).mp (hmanifest c hc) hsame

/-- A plan that the tags ask for keeps up with the manifest. -/
theorem Derived.forward_of_behind (h : Derived u cfg prevTag bump new old) (hbump : bump ≠ .none)
    (hbehind : manifestVersionAhead u cargo (some new) = false)
    (hsuffix : cfg.prerelease → SuffixKeepsUp u cfg prevTag bump cargo) :
    ∃ v, parseSemver u (derivedVersion cfg new) = some v ∧
      (∀ p, prevTag.bind (parseSemverTag u) = some p → Spec.precedence p v = .lt) ∧
      ∀ c, cargo.bind (parseSemver u) = some c → Spec.precedence v c ≠ .lt := by
  by_cases hpre : cfg.prerelease
  · obtain ⟨pre, build, hreads, hkeeps⟩ := hsuffix hpre new old h.derived hbehind
    refine ⟨_, (parse_derivedVersion h.inRange hpre).mpr ⟨pre, build, hreads, rfl⟩, ?_, ?_⟩
    · exact fun p hp => h.above _ (release_prereleaseOf new pre build) hbump hp
    · exact fun c hc => (keepsUp_iff _ (release_prereleaseOf new pre build) hbehind hc).mpr
        (hkeeps c hc)
  · refine ⟨release new, ?_, fun p hp => h.above _ (release_release new) hbump hp, fun c hc => ?_⟩
    · rw [derivedVersion, if_neg hpre, List.append_nil, parseSemver_raw h.inRange]
    · refine (keepsUp_iff _ (release_release new) hbehind hc).mpr fun _ => ?_
      change Spec.prerelease none c.prerelease ≠ .lt
      cases c.prerelease <;> exact Ordering.noConfusion

end Derived

/-- The next version never goes backwards exactly when no bump is asked for, or no prerelease is
planned, or the prerelease keeps up with the manifest. -/
theorem neverBackwards_iff
    (h : ∀ prev ∈ prevTag, ∃ v, parseSemverTag u prev = some v ∧ Bumpable v) :
    NeverBackwards u cfg prevTag bump cargo ↔
      (bump ≠ .none → cfg.prerelease → SuffixKeepsUp u cfg prevTag bump cargo) := by
  obtain ⟨new, old, hder⟩ := exists_derived h cfg bump
  constructor
  · exact fun hforward hbump hpre => hder.suffixKeepsUp hbump hpre hforward
  · intro hsuffix
    refine ⟨fun plan hplan => ?_, hder.plannedVersion_none⟩
    obtain ⟨new', hderived, -, hasks, hnew⟩ := plannedVersion_some hplan
    obtain ⟨rfl, rfl⟩ := Prod.mk.inj (Option.some.inj (hder.derived.symm.trans hderived))
    rcases hnew with ⟨m, rfl, hahead, hnew⟩ | ⟨hbehind, hnew⟩
    · -- the manifest itself is planned
      obtain ⟨c, hc, hlt⟩ := manifestVersionAhead_some hahead
      rw [hnew]
      refine ⟨c, hc, fun p hp => hder.above_of_lt hlt hp, fun c' hc' => ?_⟩
      obtain rfl := Option.some.inj (hc.symm.trans hc')
      rw [precedence_of_sameRelease (sameRelease_iff.mpr rfl), spec_prerelease_self]
      decide
    · have hbump := hder.bump_of_behind hasks hbehind
      rw [hnew]
      exact hder.forward_of_behind hbump hbehind (hsuffix hbump)

theorem neverBackwards_release :
    NeverBackwards .ascii .default (some "v1.2.0".toList) .minor (some "1.2.9".toList) :=
  (neverBackwards_iff (by
    rintro prev ⟨⟩
    exact ⟨⟨1, 2, 0, none, none⟩, by decide +kernel, by decide, by decide, by decide⟩)).mpr
    fun _ hpre => absurd hpre (by decide)

/-- Behind a manifest that names the next release, a prerelease of that release is planned. -/
theorem prerelease_below_manifest :
    ¬ NeverBackwards .ascii { ResolvedConfig.default with prerelease := true }
      (some "v1.2.0".toList) .minor (some "1.3.0".toList) := by
  intro h
  have hplan : plannedVersion .ascii { ResolvedConfig.default with prerelease := true }
      (some "v1.2.0".toList) .minor (some "1.3.0".toList) none =
      some (some ⟨"v1.3.0-beta".toList, "1.3.0-beta".toList, "v1.2.0".toList⟩) := by
    decide +kernel
  obtain ⟨v, hv, -, hmanifest⟩ := h.forward _ hplan
  have hparse : parseSemver .ascii "1.3.0-beta".toList =
      some ⟨1, 3, 0, some "beta".toList, none⟩ := by decide +kernel
  obtain rfl := Option.some.inj (hparse.symm.trans hv)
  exact hmanifest ⟨1, 3, 0, none, none⟩ (by decide +kernel) (by decide +kernel)

end Anodizer.Tag
