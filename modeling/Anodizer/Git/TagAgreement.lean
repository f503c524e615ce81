import Anodizer.Git.TagQueries

/-! # Agreement of the tag queries

The three queries answer about one family exactly when every tag with the
prefix of the family either is a release that all of them read, or reads as a
version to none of them.
-/

namespace Anodizer.Git

open Regex
open Template (Text CharTables)

variable {u : CharTables} {p : Text} {ign : Ignore} {siblings tags : List Text} {t r ph : Text}

/-! ### Versions and releases -/

/-- A version reads as a release when it has no leading `v`, and no build metadata without a
prerelease. -/
theorem releaseText_iff {v : SemVer} (hv : parseSemver u r = some v) (hr : '\n' ∉ r) :
    ReleaseText u r ↔
      r.head? ≠ some 'v' ∧ (v.buildMetadata.isSome → v.prerelease.isSome) := by
  have hlead : u.digit 'v' = false := CharTables.not_digit u (by decide) (by decide)
  obtain ⟨lead, w, hl, hw, rfl, hvalue⟩ := parseSemver_eq_some.mp hv
  obtain ⟨hpre, hbuild⟩ := Spelling.value_parts hvalue
  rw [hpre, hbuild]
  constructor
  · rintro ⟨a, b, c, o, ha, hb, hc, -, heq⟩
    rcases hl with rfl | rfl
    · exact absurd heq.symm (ha.append_ne hlead)
    · have hdigit := Spelling.suffixes_not_digit u o none
      rw [SemVer.suffix, List.append_nil] at hdigit
      obtain ⟨-, -, -, hrest⟩ := Spelling.numbers_unique hw.major hw.minor hw.patch ha hb hc
        (Spelling.suffixes_not_digit u _ _) hdigit heq
      constructor
      · intro hhead
        obtain ⟨x, hx⟩ := List.head?_eq_some_iff.mp hhead
        exact hw.major.append_ne hlead hx
      · intro hsome
        obtain ⟨x, hx⟩ := Option.isSome_iff_exists.mp hsome
        rw [hx] at hrest
        cases hpre' : w.prerelease with
        | some y => rfl
        | none =>
          rw [hpre'] at hrest
          exact absurd hrest.symm (Spelling.suffix_ne_cons (by decide))
  · rintro ⟨hhead, himp⟩
    rcases hl with rfl | rfl
    · exact absurd rfl hhead
    · refine ⟨w.major, w.minor, w.patch, w.prerelease.map (· ++ SemVer.suffix '+' w.build),
        hw.major, hw.minor, hw.patch, ?_, ?_⟩
      · intro x hx
        obtain ⟨y, hy, rfl⟩ := Option.mem_map.mp hx
        refine ⟨fun hnil => (hw.prerelease y hy).1 (List.append_eq_nil_iff.mp hnil).1, ?_⟩
        rintro c hc rfl
        rw [Option.mem_def] at hy
        apply hr
        simp only [List.nil_append, Spelling.text, hy, SemVer.suffix, List.cons_append,
          List.mem_append, List.mem_cons]
        exact .inr (.inr (.inr (.inr (.inr (.inr (List.mem_append.mp hc))))))
      · cases hpre' : w.prerelease with
        | some y => simp [Spelling.text, hpre', SemVer.suffix]
        | none =>
          rw [hpre'] at himp
          cases hbuild' : w.build with
          | some x => exact absurd (himp (by rw [hbuild']; rfl)) (by simp)
          | none => simp [Spelling.text, hpre', hbuild', SemVer.suffix]

theorem Spelling.IsNumber.head_isDigit {a : Text} {n : ℕ} (h : Spelling.IsNumber u a)
    (hn : parseU64 a = some n) : a.head?.any Char.isDigit := by
  obtain ⟨hne, hdigits⟩ := h
  cases a with
  | nil => exact absurd rfl hne
  | cons c a =>
    have hplus : c ≠ '+' := by
      rintro rfl
      exact absurd (hdigits '+' List.mem_cons_self)
        (by simp [CharTables.not_digit u (c := '+') (by decide) (by decide)])
    simp only [parseU64, Option.ite_none_right_eq_some, List.head?_cons, Option.some.injEq,
      if_neg hplus, List.all_cons, Bool.and_eq_true] at hn
    simpa using hn.1.2.1.1

/-- A version without a leading `v` starts with a digit. -/
theorem head_isDigit {v : SemVer} (hv : parseSemver u r = some v) (hhead : r.head? ≠ some 'v') :
    r.head?.any Char.isDigit := by
  obtain ⟨lead, w, hl, hw, rfl, hvalue⟩ := parseSemver_eq_some.mp hv
  rcases hl with rfl | rfl
  · exact absurd rfl hhead
  · simp only [Spelling.value, Option.bind_eq_bind, Option.bind_eq_some_iff] at hvalue
    obtain ⟨a, ha, -⟩ := hvalue
    have hdigit := hw.major.head_isDigit ha
    obtain ⟨hne, -⟩ := hw.major
    obtain ⟨c, cs, hcs⟩ := List.exists_cons_of_ne_nil hne
    simpa [Spelling.text, hcs] using hdigit

theorem Issues.rest {p t : Text} (h : Issues u p t) : ∃ r, t = p ++ r ∧
    (parseSemver u r).isSome ∧ r.head?.any Char.isDigit := by
  obtain ⟨w, v, hv, rfl⟩ := h
  refine ⟨v.versionString, rfl, ?_, ?_⟩
  · rw [(readable_of_parse hv).parse]
    rfl
  · have hne := Nat.toDigits_ne_nil (n := v.major) (b := 10)
    obtain ⟨c, cs, hcs⟩ := List.exists_cons_of_ne_nil hne
    have hdigit := isDigit_toDigits (n := v.major) (c := c) (by rw [hcs]; exact List.mem_cons_self)
    simp [SemVer.versionString, SemVer.rawVersionString, hcs, hdigit]

theorem parseSemverTag_of_parseSemver {s : Text} (h : (parseSemver u s).isSome) :
    (parseSemverTag u s).isSome := by
  obtain ⟨v, hv⟩ := Option.isSome_iff_exists.mp h
  simp [parseSemverTag, hv]

/-! ### One family -/

/-- The three queries answer about one family, and the family is that of the template. -/
structure SameFamily (u : CharTables) (p ph : Text) (siblings : List Text) (ign : Ignore)
    (tags : List Text) : Prop where
  latest_previous : ∀ t, t ∈ (latestMatching u (p ++ ph) ign none tags).map (·.2) ↔
    t ∈ (previousMatching u (p ++ ph) siblings ign none tags).map (·.2)
  previous_planner : ∀ t, t ∈ (previousMatching u (p ++ ph) siblings ign none tags).map (·.2) ↔
    t ∈ (plannerMatching u tags p ign).map (·.2)
  version : ∀ t ∈ (latestMatching u (p ++ ph) ign none tags).map (·.2),
    ∃ r, t = p ++ r ∧ (parseSemver u r).isSome
  sibling : ∀ t ∈ (latestMatching u (p ++ ph) ign none tags).map (·.2), ∀ s ∈ siblings,
    ∀ q, extractTagPrefix s = some q → q ≠ p → ¬ Issues u q t
  issued : ∀ t ∈ tags, Issues u p t → Survives ign t →
    t ∈ (latestMatching u (p ++ ph) ign none tags).map (·.2)

/-- A release of the family: the whole tag and what follows the prefix read as a version, which
has no leading `v` and no build metadata without a prerelease, and no sibling claims the tag. -/
structure OwnRelease (u : CharTables) (p ph : Text) (siblings : List Text) (ign : Ignore)
    (t r : Text) : Prop where
  noBlank : [] ∉ ign.prefixes
  whole : (parseSemverTag u t).isSome
  version : ∃ v, parseSemver u r = some v ∧ r.head? ≠ some 'v' ∧
    (v.buildMetadata.isSome → v.prerelease.isSome)
  narrower : ∀ q ∈ excludedSiblingPrefixes (p ++ ph) none siblings, ¬ q <+: t
  sibling : ∀ s ∈ siblings, ∀ q, extractTagPrefix s = some q → q ≠ p → ¬ Issues u q t

/-- A tag outside the family: it does not read as a version, and what follows the prefix does not
either unless a narrower sibling takes the tag. -/
structure OutsideFamily (u : CharTables) (p ph : Text) (siblings : List Text) (t r : Text) :
    Prop where
  whole : parseSemverTag u t = none
  rest : parseSemverTag u r = none ∨
    (∃ q ∈ excludedSiblingPrefixes (p ++ ph) none siblings, q <+: t) ∧ ¬ Issues u p t

theorem OwnRelease.latest (h : Literal p) (hph : ph ∈ versionPlaceholders) (ht : t ∈ tags)
    (hr : '\n' ∉ r) (hsurv : Survives ign t) (htr : t = p ++ r)
    (hown : OwnRelease u p ph siblings ign t r) :
    t ∈ (latestMatching u (p ++ ph) ign none tags).map (·.2) := by
  obtain ⟨v, hv, hrelease⟩ := hown.version
  exact (mem_latest h hph).mpr ⟨ht, hsurv, hown.noBlank, hown.whole, r, htr,
    (releaseText_iff hv hr).mpr hrelease⟩

theorem OwnRelease.previous (h : Literal p) (hph : ph ∈ versionPlaceholders) (ht : t ∈ tags)
    (hsurv : Survives ign t) (htr : t = p ++ r) (hown : OwnRelease u p ph siblings ign t r) :
    t ∈ (previousMatching u (p ++ ph) siblings ign none tags).map (·.2) := by
  obtain ⟨v, hv, hhead, -⟩ := hown.version
  have hsome : (parseSemver u r).isSome := by
    rw [hv]
    rfl
  refine (mem_previous h hph).mpr ⟨ht, hsurv, ⟨r, htr, parseSemverTag_of_parseSemver hsome, ?_⟩,
    hown.narrower⟩
  exact fun _ => head_isDigit hv hhead

theorem OwnRelease.planner (ht : t ∈ tags) (hsurv : Survives ign t) (htr : t = p ++ r)
    (hown : OwnRelease u p ph siblings ign t r) : t ∈ (plannerMatching u tags p ign).map (·.2) :=
  mem_planner.mpr ⟨ht, hsurv, ⟨r, htr.symm⟩, hown.whole⟩

theorem OutsideFamily.not_latest (h : Literal p) (hph : ph ∈ versionPlaceholders)
    (hout : OutsideFamily u p ph siblings t r) :
    t ∉ (latestMatching u (p ++ ph) ign none tags).map (·.2) := by
  intro hmem
  obtain ⟨-, -, -, hsome, -⟩ := (mem_latest h hph).mp hmem
  rw [hout.whole] at hsome
  exact absurd hsome (by simp)

theorem OutsideFamily.not_previous (h : Literal p) (hph : ph ∈ versionPlaceholders)
    (htr : t = p ++ r) (hout : OutsideFamily u p ph siblings t r) :
    t ∉ (previousMatching u (p ++ ph) siblings ign none tags).map (·.2) := by
  intro hmem
  obtain ⟨-, -, ⟨r', hr', hsome, -⟩, hnarrow⟩ := (mem_previous h hph).mp hmem
  obtain rfl : r = r' := List.append_cancel_left (htr.symm.trans hr')
  rcases hout.rest with hnone | ⟨⟨q, hq, hqt⟩, -⟩
  · rw [hnone] at hsome
    exact absurd hsome (by simp)
  · exact hnarrow q hq hqt

theorem OutsideFamily.not_planner (hout : OutsideFamily u p ph siblings t r) :
    t ∉ (plannerMatching u tags p ign).map (·.2) := by
  intro hmem
  obtain ⟨-, -, -, hsome⟩ := mem_planner.mp hmem
  rw [hout.whole] at hsome
  exact absurd hsome (by simp)

theorem OutsideFamily.not_issued (htr : t = p ++ r)
    (hout : OutsideFamily u p ph siblings t r) : ¬ Issues u p t := by
  intro hissue
  rcases hout.rest with hnone | ⟨-, hnot⟩
  · obtain ⟨r', hr', hsome, -⟩ := hissue.rest
    obtain rfl : r = r' := List.append_cancel_left (htr.symm.trans hr')
    have := parseSemverTag_of_parseSemver hsome
    rw [hnone] at this
    exact absurd this (by simp)
  · exact hnot hissue

/-- The queries answer about one family exactly when every tag with the prefix, past the filters,
is a release of the family or reads as no version. -/
theorem sameFamily_iff (h : Literal p) (hph : ph ∈ versionPlaceholders) (listing : Text) :
    SameFamily u p ph siblings ign (Lines.lines listing) ↔
      ∀ t ∈ Lines.lines listing, Survives ign t → ∀ r, t = p ++ r →
        OwnRelease u p ph siblings ign t r ∨ OutsideFamily u p ph siblings t r := by
  have hnl : ∀ {t r}, t ∈ Lines.lines listing → t = p ++ r → '\n' ∉ r := fun ht htr hmem =>
    Lines.newline_not_mem ht (htr ▸ List.mem_append_right _ hmem)
  constructor
  · intro hs t ht hsurv r htr
    by_cases hwhole : (parseSemverTag u t).isSome
    · left
      have hplanner := mem_planner.mpr ⟨ht, hsurv, ⟨r, htr.symm⟩, hwhole⟩
      have hprevious := (hs.previous_planner t).mpr hplanner
      have hlatest := (hs.latest_previous t).mpr hprevious
      obtain ⟨-, -, hblank, -, r', hr', hrelease⟩ := (mem_latest h hph).mp hlatest
      obtain ⟨-, -, -, hnarrow⟩ := (mem_previous h hph).mp hprevious
      obtain ⟨r'', hr'', hsome⟩ := hs.version t hlatest
      obtain rfl : r = r' := List.append_cancel_left (htr.symm.trans hr')
      obtain rfl : r = r'' := List.append_cancel_left (htr.symm.trans hr'')
      obtain ⟨v, hv⟩ := Option.isSome_iff_exists.mp hsome
      exact ⟨hblank, hwhole, ⟨v, hv, (releaseText_iff hv (hnl ht htr)).mp hrelease⟩, hnarrow,
        hs.sibling t hlatest⟩
    · right
      have hprevious : t ∉ (previousMatching u (p ++ ph) siblings ign none
          (Lines.lines listing)).map (·.2) := fun hmem =>
        hwhole (mem_planner.mp ((hs.previous_planner t).mp hmem)).2.2.2
      have hlatest := fun hmem => hprevious ((hs.latest_previous t).mp hmem)
      refine ⟨Option.not_isSome_iff_eq_none.mp hwhole, ?_⟩
      by_cases hrest : parseSemverTag u r = none
      · exact .inl hrest
      · right
        have hempty : p ≠ [] := by
          rintro rfl
          exact hwhole (htr ▸ Option.isSome_iff_ne_none.mpr hrest)
        constructor
        · by_contra hno
          exact hprevious ((mem_previous h hph).mpr ⟨ht, hsurv, ⟨r, htr,
            Option.isSome_iff_ne_none.mpr hrest, fun hp => absurd hp hempty⟩,
            fun q hq hqt => hno ⟨q, hq, hqt⟩⟩)
        · exact fun hissue => hlatest (hs.issued t ht hissue hsurv)
  · intro hcond
    constructor
    · intro t
      constructor
      · intro hmem
        obtain ⟨ht, hsurv, -, -, r, htr, -⟩ := (mem_latest h hph).mp hmem
        rcases hcond t ht hsurv r htr with hown | hout
        · exact hown.previous h hph ht hsurv htr
        · exact absurd hmem (hout.not_latest h hph)
      · intro hmem
        obtain ⟨ht, hsurv, ⟨r, htr, -⟩, -⟩ := (mem_previous h hph).mp hmem
        rcases hcond t ht hsurv r htr with hown | hout
        · exact hown.latest h hph ht (hnl ht htr) hsurv htr
        · exact absurd hmem (hout.not_previous h hph htr)
    · intro t
      constructor
      · intro hmem
        obtain ⟨ht, hsurv, ⟨r, htr, -⟩, -⟩ := (mem_previous h hph).mp hmem
        rcases hcond t ht hsurv r htr with hown | hout
        · exact hown.planner ht hsurv htr
        · exact absurd hmem (hout.not_previous h hph htr)
      · intro hmem
        obtain ⟨ht, hsurv, ⟨r, htr⟩, -⟩ := mem_planner.mp hmem
        rcases hcond t ht hsurv r htr.symm with hown | hout
        · exact hown.previous h hph ht hsurv htr.symm
        · exact absurd hmem hout.not_planner
    · intro t hmem
      obtain ⟨ht, hsurv, -, -, r, htr, -⟩ := (mem_latest h hph).mp hmem
      rcases hcond t ht hsurv r htr with hown | hout
      · obtain ⟨v, hv, -⟩ := hown.version
        exact ⟨r, htr, by rw [hv]; rfl⟩
      · exact absurd hmem (hout.not_latest h hph)
    · intro t hmem
      obtain ⟨ht, hsurv, -, -, r, htr, -⟩ := (mem_latest h hph).mp hmem
      rcases hcond t ht hsurv r htr with hown | hout
      · exact hown.sibling
      · exact absurd hmem (hout.not_latest h hph)
    · intro t ht hissue hsurv
      obtain ⟨r, htr, -⟩ := hissue.rest
      rcases hcond t ht hsurv r htr with hown | hout
      · exact hown.latest h hph ht (hnl ht htr) hsurv htr
      · exact absurd hissue (hout.not_issued htr)

theorem literal_v : Literal "v".toList := by
  refine ⟨?_, by decide⟩
  intro a b h
  have hlen := congrArg List.length h
  simp only [List.length_append, List.length_cons] at hlen
  exact absurd hlen (by rw [show "v".toList.length = 1 from rfl]; omega)

theorem sameFamily_releases : SameFamily .ascii "v".toList "\x7b\x7b Version \x7d\x7d".toList
    ["vault-v\x7b\x7b Version \x7d\x7d".toList] ⟨[], []⟩
    (Lines.lines "v1.0.0\nvendored\n".toList) := by
  refine (sameFamily_iff literal_v (by decide) _).mpr ?_
  have hlines : Lines.lines "v1.0.0\nvendored\n".toList = ["v1.0.0".toList, "vendored".toList] := by
    decide
  rw [hlines]
  intro t ht hsurv r htr
  rcases List.mem_cons.mp ht with rfl | ht
  · obtain rfl : r = "1.0.0".toList := (List.append_right_injective "v".toList htr).symm
    refine .inl ⟨by decide, by decide +kernel, ⟨⟨1, 0, 0, none, none⟩, by decide +kernel,
      by decide, by decide⟩, by decide, ?_⟩
    intro s hs q hq hne hissue
    obtain rfl := List.mem_singleton.mp hs
    obtain rfl : q = "vault-v".toList := (Option.some.inj (hq.symm.trans (by decide)))
    obtain ⟨r, hr, -⟩ := hissue.rest
    exact absurd (List.isPrefixOf_iff_prefix.mpr ⟨r, hr.symm⟩) (by decide)
  · obtain rfl := List.mem_singleton.mp ht
    obtain rfl : r = "endored".toList := (List.append_right_injective "v".toList htr).symm
    exact .inr ⟨by decide +kernel, .inl (by decide +kernel)⟩

/-- The planner takes a sibling's tag, and the probe misses build metadata. -/
theorem queries_disagree :
    ¬ SameFamily .ascii "v".toList "\x7b\x7b Version \x7d\x7d".toList
      ["vault-v\x7b\x7b Version \x7d\x7d".toList] ⟨[], []⟩
      (Lines.lines "v1.0.0\nvault-v9.0.0\n".toList) ∧
    ¬ SameFamily .ascii "v".toList "\x7b\x7b Version \x7d\x7d".toList [] ⟨[], []⟩
      (Lines.lines "v1.0.0\nv1.1.0+build.5\n".toList) := by
  constructor
  · intro h
    have hprevious := (h.previous_planner "vault-v9.0.0".toList).mpr (by decide +kernel)
    exact absurd hprevious (by decide +kernel)
  · intro h
    have hprevious := (h.previous_planner "v1.1.0+build.5".toList).mpr (by decide +kernel)
    exact absurd ((h.latest_previous _).mpr hprevious) (by decide +kernel)

end Anodizer.Git
