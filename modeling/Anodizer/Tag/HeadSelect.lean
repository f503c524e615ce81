import Anodizer.Git.FamilyMembership
import Anodizer.Git.TagAgreement
import Anodizer.Tag.Config

/-! # The crates of the tags at HEAD

A release run selects its crates by the tags that point at HEAD. A tag selects
the crates whose prefix is the longest that leaves a version.
-/

namespace Anodizer.Tag

open Template (Text CharTables)
open Git

/-! ### Selection -/

def filterIgnoredTags (tags : List Text) (ign : Ignore) : List Text :=
  tags.filter fun t => !isNightlyTag t && !ign.byGlob t && !ign.byPrefix true t

/-- The first dotted component is a number. -/
def isVersion (remainder : Text) : Bool :=
  let first := remainder.takeWhile (· ≠ '.')
  first ≠ [] && first.all Char.isDigit

/-- The tag is the prefix of the crate and a version. -/
def CrateConfig.reads (c : CrateConfig) (tag : Text) : Bool :=
  c.tagPrefix.isPrefixOf tag && isVersion (tag.drop c.tagPrefix.length)

/-- The crates that read the tag under the longest prefix. -/
def resolveTagToCrates (tag : Text) (crates : List CrateConfig) : List CrateConfig :=
  let matched := crates.filter (·.reads tag)
  match (matched.map fun c => byteLength c.tagPrefix).max? with
  | none => []
  | some best => matched.filter (byteLength ·.tagPrefix = best)

def selectName (selected : List Text) (c : CrateConfig) : List Text :=
  if c.name ∈ selected then selected else selected ++ [c.name]

def selectCratesForTags (headTags : List Text) (crates : List CrateConfig) : List Text :=
  headTags.foldl (fun selected tag => (resolveTagToCrates tag crates).foldl selectName selected) []

def selectCratesForHeadTags (headTags : List Text) (allKnownCrates : List CrateConfig)
    (ign : Ignore) : List Text :=
  selectCratesForTags (filterIgnoredTags headTags ign) allKnownCrates

def resolveOwner (tag : Text) (crates : List CrateConfig) : Option CrateConfig :=
  (resolveTagToCrates tag crates).head?

/-! ### What a tag selects -/

variable {crates : List CrateConfig} {c c' : CrateConfig} {t p q x : Text} {name : Text}
  {tags names : List Text} {u : CharTables}

/-- No crate reads the tag under a longer prefix. -/
def Unshadowed (crates : List CrateConfig) (c : CrateConfig) (t : Text) : Prop :=
  ∀ c' ∈ crates, c'.reads t = true → byteLength c'.tagPrefix ≤ byteLength c.tagPrefix

instance : Decidable (Unshadowed crates c t) := inferInstanceAs (Decidable (∀ _ ∈ _, _))

theorem resolveTagToCrates_eq :
    resolveTagToCrates t crates = crates.filter fun c => c.reads t && Unshadowed crates c t := by
  unfold resolveTagToCrates
  dsimp only
  cases hmax : ((crates.filter (·.reads t)).map fun c => byteLength c.tagPrefix).max? with
  | none =>
    rw [List.max?_eq_none_iff, List.map_eq_nil_iff, List.filter_eq_nil_iff] at hmax
    refine (List.filter_eq_nil_iff.mpr fun c hc h => ?_).symm
    rw [Bool.and_eq_true] at h
    exact hmax c hc h.1
  | some best =>
    obtain ⟨hmem, hle⟩ := List.max?_eq_some_iff.mp hmax
    obtain ⟨b, hb, rfl⟩ := List.mem_map.mp hmem
    obtain ⟨hbmem, hbreads⟩ := List.mem_filter.mp hb
    dsimp only
    rw [List.filter_filter]
    refine List.filter_congr fun c hc => ?_
    rw [Bool.and_comm]
    cases hreads : c.reads t with
    | false => rfl
    | true =>
      rw [Bool.true_and, Bool.true_and, decide_eq_decide]
      constructor
      · intro heq c' hc' hreads'
        rw [heq]
        exact hle _ (List.mem_map_of_mem (List.mem_filter.mpr ⟨hc', hreads'⟩))
      · intro hlong
        have hcle := hle _ (List.mem_map_of_mem (List.mem_filter.mpr ⟨hc, hreads⟩))
        exact le_antisymm hcle (hlong b hbmem hbreads)

theorem mem_resolveTagToCrates : c ∈ resolveTagToCrates t crates ↔
    c ∈ crates ∧ c.reads t = true ∧ Unshadowed crates c t := by
  rw [resolveTagToCrates_eq, List.mem_filter, Bool.and_eq_true, decide_eq_true_eq]

theorem mem_selectName : name ∈ selectName names c ↔ name ∈ names ∨ c.name = name := by
  unfold selectName
  split
  · next hmem =>
    refine ⟨.inl, ?_⟩
    rintro (h | rfl)
    · exact h
    · exact hmem
  · simp [eq_comm]

theorem nodup_selectName (h : names.Nodup) : (selectName names c).Nodup := by
  unfold selectName
  split
  · exact h
  · next hc =>
    rw [List.nodup_append]
    refine ⟨h, by simp, ?_⟩
    rintro a ha b hb rfl
    rw [List.mem_singleton] at hb
    exact hc (hb ▸ ha)

theorem nodup_selectCratesForTags : (selectCratesForTags tags crates).Nodup := by
  have hinner : ∀ (l : List CrateConfig) (names : List Text), names.Nodup →
      (l.foldl selectName names).Nodup := by
    intro l
    induction l with
    | nil => exact fun _ h => h
    | cons c l ih => exact fun _ h => ih _ (nodup_selectName h)
  suffices key : ∀ names : List Text, names.Nodup →
      (tags.foldl (fun names tag =>
        (resolveTagToCrates tag crates).foldl selectName names) names).Nodup from
    key [] List.nodup_nil
  induction tags with
  | nil => exact fun _ h => h
  | cons tag tags ih => exact fun names h => ih _ (hinner _ names h)

/-- A name is selected by a tag that resolves to its crate. -/
theorem mem_selectCratesForTags : name ∈ selectCratesForTags tags crates ↔
    ∃ t ∈ tags, ∃ c ∈ resolveTagToCrates t crates, c.name = name := by
  have hinner : ∀ (out : List Text) (tag : Text),
      name ∈ (resolveTagToCrates tag crates).foldl selectName out ↔
        name ∈ out ∨ ∃ c ∈ resolveTagToCrates tag crates, c.name = name :=
    fun out tag => mem_foldl_iff (P := fun c : CrateConfig => c.name = name)
      (fun _ _ => mem_selectName) _ out
  rw [selectCratesForTags, mem_foldl_iff hinner]
  simp

theorem CrateConfig.reads_iff : c.reads t = true ↔
    ∃ rest, t = c.tagPrefix ++ rest ∧ isVersion rest = true := by
  rw [reads, Bool.and_eq_true, List.isPrefixOf_iff_prefix]
  constructor
  · rintro ⟨⟨rest, rfl⟩, h⟩
    rw [List.drop_left] at h
    exact ⟨rest, rfl, h⟩
  · rintro ⟨rest, rfl, h⟩
    rw [List.drop_left]
    exact ⟨List.prefix_append _ _, h⟩

/-- The crates a tag names have one prefix. -/
theorem tagPrefix_eq (hc : c ∈ crates) (hc' : c' ∈ crates) (hreads : c.reads t = true)
    (hlong : Unshadowed crates c t) :
    c'.reads t = true ∧ Unshadowed crates c' t ↔ c'.tagPrefix = c.tagPrefix := by
  constructor
  · rintro ⟨hreads', hlong'⟩
    obtain ⟨rest, rfl, -⟩ := CrateConfig.reads_iff.mp hreads
    obtain ⟨rest', heq, -⟩ := CrateConfig.reads_iff.mp hreads'
    have hlen : byteLength c'.tagPrefix = byteLength c.tagPrefix :=
      le_antisymm (hlong c' hc' hreads') (hlong' c hc hreads)
    have hpre : c'.tagPrefix <+: c.tagPrefix ++ rest := ⟨rest', heq.symm⟩
    exact eq_of_byteLength_eq hpre (List.prefix_append _ _) hlen
  · intro heq
    refine ⟨?_, fun o ho hor => ?_⟩
    · rw [CrateConfig.reads, heq]
      exact hreads
    · rw [heq]
      exact hlong o ho hor

/-- The owner of a tag is the first crate of the longest prefix. -/
theorem resolveOwner_eq_some : resolveOwner t crates = some c ↔
    c.reads t = true ∧ Unshadowed crates c t ∧
      crates.find? (·.tagPrefix = c.tagPrefix) = some c := by
  rw [resolveOwner, resolveTagToCrates_eq, List.head?_filter]
  constructor
  · intro h
    have hc := List.mem_of_find?_eq_some h
    obtain ⟨hreads, hlong⟩ : c.reads t = true ∧ Unshadowed crates c t := by
      simpa using List.find?_some h
    refine ⟨hreads, hlong, ?_⟩
    rw [← h]
    refine List.find?_congr fun c' hc' => ?_
    rw [Bool.eq_iff_iff, Bool.and_eq_true, decide_eq_true_eq, decide_eq_true_eq]
    exact (tagPrefix_eq hc hc' hreads hlong).symm
  · rintro ⟨hreads, hlong, h⟩
    have hc := List.mem_of_find?_eq_some h
    rw [← h]
    refine List.find?_congr fun c' hc' => ?_
    rw [Bool.eq_iff_iff, Bool.and_eq_true, decide_eq_true_eq, decide_eq_true_eq]
    exact tagPrefix_eq hc hc' hreads hlong

/-! ### Versions -/

theorem isVersion_versionString (v : SemVer) : isVersion v.versionString = true := by
  have hdigits : ∀ c ∈ Nat.toDigits 10 v.major, c.isDigit = true := fun c hc => isDigit_toDigits hc
  have hdot : ∀ c ∈ Nat.toDigits 10 v.major, decide (c ≠ '.') = true := by
    intro c hc
    rw [decide_eq_true_eq]
    rintro rfl
    exact absurd (hdigits '.' hc) (by decide)
  have hfirst : v.versionString.takeWhile (· ≠ '.') = Nat.toDigits 10 v.major := by
    rw [SemVer.versionString, SemVer.rawVersionString, List.append_assoc, List.append_assoc,
      List.takeWhile_append_of_pos hdot]
    simp
  rw [isVersion, hfirst, Bool.and_eq_true, decide_eq_true_eq, List.all_eq_true]
  exact ⟨Nat.toDigits_ne_nil, hdigits⟩

theorem isVersion_head (h : isVersion x = true) : x.head?.any Char.isDigit = true := by
  simp only [isVersion, Bool.and_eq_true, decide_eq_true_eq, List.all_eq_true] at h
  obtain ⟨hne, hall⟩ := h
  cases x with
  | nil => exact absurd rfl hne
  | cons a x =>
    rw [List.takeWhile_cons] at hne hall
    split at hne
    · next ha =>
      rw [if_pos ha] at hall
      simpa using hall a List.mem_cons_self
    · exact absurd rfl hne

/-! ### Selection and issuance -/

/-- The crates of a run, the tags at HEAD that it does not ignore, and the namespace. -/
structure HeadState where
  crates : List CrateConfig
  distinct : (crates.map CrateConfig.name).Nodup
  ign : Ignore
  monorepoPrefix : Option Text
  tags : List Text
  kept : ∀ t ∈ tags, ign.byGlob t = false ∧ ign.byPrefix true t = false

namespace HeadState

def selected (s : HeadState) : List Text := selectCratesForHeadTags s.tags s.crates s.ign

def familyPrefix (s : HeadState) (c : CrateConfig) : Option Text :=
  tagFamilyPrefix c.tagFamilyTemplate s.monorepoPrefix

/-- The tag is of the family of the crate, and of no narrower one. -/
def InFamily (s : HeadState) (c : CrateConfig) (t : Text) : Prop :=
  tagInFamilyExcludingSiblings t c.tagFamilyTemplate s.monorepoPrefix
    ((s.crates.map CrateConfig.tagFamilyTemplate).filter (· ≠ c.tagFamilyTemplate)) = true

variable (u) in
/-- A tag at HEAD, issued under the prefix for a version that is not a nightly. -/
def IssuedAtHead (s : HeadState) (p t : Text) : Prop :=
  t ∈ s.tags ∧ ∃ w v, parseSemver u w = some v ∧ isNightlyTag v.versionString = false ∧
    t = p ++ v.versionString

/-- The tag names the crate: it is not shaped like a nightly, the crate reads it, and no crate
reads it under a longer prefix. -/
structure Names (s : HeadState) (c : CrateConfig) (t : Text) : Prop where
  stable : isNightlyTag t = false
  reads : c.reads t = true
  unshadowed : Unshadowed s.crates c t

variable (u) in
/-- Selection inverts issuance. -/
structure Inverts (s : HeadState) : Prop where
  issued : ∀ c ∈ s.crates, ∀ p t, s.familyPrefix c = some p → s.IssuedAtHead u p t →
    c.name ∈ s.selected
  once : s.selected.Nodup
  family : ∀ c ∈ s.crates, c.name ∈ s.selected → ∃ t ∈ s.tags, s.InFamily c t
  owner : ∀ c ∈ s.crates, ∀ p t, s.familyPrefix c = some p → s.IssuedAtHead u p t →
    ∃ o, resolveOwner t s.crates = some o ∧ s.familyPrefix o = some p

variable (u) in
/-- The prefixes that crates read tags under, which leave the namespace out, lead to the families
that issued them. -/
structure Aligned (s : HeadState) : Prop where
  issued : ∀ c ∈ s.crates, ∀ p t, s.familyPrefix c = some p → s.IssuedAtHead u p t →
    ∃ t' ∈ s.tags, s.Names c t'
  family : ∀ c ∈ s.crates, ∀ t ∈ s.tags, s.Names c t → ∃ t' ∈ s.tags, s.InFamily c t'
  owner : ∀ c ∈ s.crates, ∀ p t, s.familyPrefix c = some p → s.IssuedAtHead u p t →
    ∃ o, o.reads t = true ∧ Unshadowed s.crates o t ∧
      s.crates.find? (·.tagPrefix = o.tagPrefix) = some o ∧ s.familyPrefix o = some p

variable {s : HeadState}

theorem mem_selected (hc : c ∈ s.crates) : c.name ∈ s.selected ↔ ∃ t ∈ s.tags, s.Names c t := by
  have hfilter : ∀ t, t ∈ filterIgnoredTags s.tags s.ign ↔ t ∈ s.tags ∧ isNightlyTag t = false := by
    intro t
    rw [filterIgnoredTags, List.mem_filter]
    refine and_congr_right fun ht => ?_
    obtain ⟨hglob, hpre⟩ := s.kept t ht
    simp [hglob, hpre]
  rw [selected, selectCratesForHeadTags, mem_selectCratesForTags]
  simp only [hfilter, mem_resolveTagToCrates]
  constructor
  · rintro ⟨t, ⟨ht, hstable⟩, c', ⟨hc', hreads, hlong⟩, hname⟩
    obtain rfl : c' = c := List.inj_on_of_nodup_map s.distinct hc' hc hname
    exact ⟨t, ht, hstable, hreads, hlong⟩
  · rintro ⟨t, ht, hstable, hreads, hlong⟩
    exact ⟨t, ⟨ht, hstable⟩, c, ⟨hc, hreads, hlong⟩, rfl⟩

/-- Selection inverts issuance exactly when what the crates read leads to the families. -/
theorem inverts_iff (u : CharTables) (s : HeadState) : s.Inverts u ↔ s.Aligned u := by
  constructor
  · intro h
    refine ⟨fun c hc p t hp ht => ?_, fun c hc t ht hnames => ?_, fun c hc p t hp ht => ?_⟩
    · exact (mem_selected hc).mp (h.issued c hc p t hp ht)
    · exact h.family c hc ((mem_selected hc).mpr ⟨t, ht, hnames⟩)
    · obtain ⟨o, ho, hfam⟩ := h.owner c hc p t hp ht
      obtain ⟨hreads, hlong, hfirst⟩ := resolveOwner_eq_some.mp ho
      exact ⟨o, hreads, hlong, hfirst, hfam⟩
  · intro h
    refine ⟨fun c hc p t hp ht => ?_, nodup_selectCratesForTags, fun c hc hsel => ?_,
      fun c hc p t hp ht => ?_⟩
    · exact (mem_selected hc).mpr (h.issued c hc p t hp ht)
    · obtain ⟨t, ht, hnames⟩ := (mem_selected hc).mp hsel
      exact h.family c hc t ht hnames
    · obtain ⟨o, hreads, hlong, hfirst, hfam⟩ := h.owner c hc p t hp ht
      exact ⟨o, resolveOwner_eq_some.mpr ⟨hreads, hlong, hfirst⟩, hfam⟩

/-! ### Where the two sides agree -/

theorem afterLastVersionMark_append {a r : Text} (h : afterLastVersionMark x = some r) :
    afterLastVersionMark (a ++ x) = some r := by
  induction a with
  | nil => exact h
  | cons c a ih => rw [List.cons_append, afterLastVersionMark, ih]

/-- A prefix that ends in the version mark does not make a tag look like a nightly. -/
theorem isNightlyTag_append (hq : q = [] ∨ q.getLast? = some 'v') (v : SemVer) :
    isNightlyTag (q ++ v.versionString) = isNightlyTag v.versionString := by
  rcases hq with rfl | hq
  · rfl
  obtain ⟨a, rfl⟩ : ∃ a, q = a ++ ['v'] := by
    rw [List.getLast?_eq_some_iff] at hq
    exact hq
  have hdigit := isVersion_head (isVersion_versionString v)
  have hmark : afterLastVersionMark ('v' :: v.versionString) =
      some ((afterLastVersionMark v.versionString).getD v.versionString) := by
    rw [afterLastVersionMark]
    cases afterLastVersionMark v.versionString with
    | some r => rfl
    | none => simp [hdigit]
  have hdot : '.' ∈ v.versionString := by simp [SemVer.versionString, SemVer.rawVersionString]
  have hplain : ∀ x : Text, '.' ∈ x → x ≠ "nightly".toList := by
    rintro x hx rfl
    exact absurd hx (by decide)
  rw [isNightlyTag, isNightlyTag, List.append_assoc, List.singleton_append,
    afterLastVersionMark_append hmark, Option.getD_some,
    decide_eq_false (hplain _ hdot), decide_eq_false (hplain _ (by simp [hdot]))]

/-- Every template has a version, spells the namespace out and marks the version, and no prefix
continues another as a version does. -/
structure Spelled (s : HeadState) : Prop where
  template : ∀ c ∈ s.crates, ∃ q, extractTagPrefix c.tagFamilyTemplate = some q ∧
    (s.monorepoPrefix.getD [] = [] ∨ s.monorepoPrefix.getD [] <+: q) ∧
    (q = [] ∨ q.getLast? = some 'v')
  apart : ∀ c ∈ s.crates, ∀ c' ∈ s.crates, ∀ x, c'.tagPrefix = c.tagPrefix ++ x →
    x.head?.any Char.isDigit = false

namespace Spelled

theorem familyPrefix (h : s.Spelled) (hc : c ∈ s.crates) :
    s.familyPrefix c = some c.tagPrefix ∧
      (c.tagPrefix = [] ∨ c.tagPrefix.getLast? = some 'v') := by
  obtain ⟨q, hq, hns, hlast⟩ := h.template c hc
  have htag : c.tagPrefix = q := by rw [CrateConfig.tagPrefix, perCrateTagPrefix, hq]; rfl
  refine ⟨?_, htag ▸ hlast⟩
  rw [HeadState.familyPrefix, tagFamilyPrefix, tagFamilyScope, hq, htag]
  by_cases hnil : q = []
  · have hns' : s.monorepoPrefix.getD [] = [] := by
      rcases hns with h | h
      · exact h
      · exact List.prefix_nil.mp (hnil ▸ h)
    simp [hnil, hns']
  · have hcompose : composePrefix (s.monorepoPrefix.getD []) q = q := by
      rw [composePrefix]
      rcases hns with h | h
      · simp [h]
      · simp [List.isPrefixOf_iff_prefix.mpr h]
    simp [hnil, hcompose]

/-- Nothing continues the prefix of a crate with a beginning of the version. -/
theorem not_continued (h : s.Spelled) (hc : c ∈ s.crates) (hc' : c' ∈ s.crates) {rest : Text}
    (hrest : isVersion rest = true) (hx : x ≠ []) (hpre : x <+: rest) :
    c'.tagPrefix ≠ c.tagPrefix ++ x := by
  intro heq
  have hdigit := isVersion_head hrest
  have hnot := h.apart c hc c' hc' x heq
  obtain ⟨y, rfl⟩ := hpre
  rw [List.head?_append_of_ne_nil _ hx] at hdigit
  rw [hdigit] at hnot
  cases hnot

theorem unshadowed (h : s.Spelled) (hc : c ∈ s.crates) (hreads : c.reads t = true) :
    Unshadowed s.crates c t := by
  intro c' hc' hreads'
  obtain ⟨rest, rfl, hrest⟩ := CrateConfig.reads_iff.mp hreads
  obtain ⟨rest', heq, -⟩ := CrateConfig.reads_iff.mp hreads'
  by_contra hlong
  obtain ⟨x, hx, hlead, hpre⟩ := (longer_prefix_iff (List.prefix_append c.tagPrefix rest)).mp
    ⟨not_le.mp hlong, ⟨rest', heq.symm⟩⟩
  exact h.not_continued hc hc' hrest hx ((List.prefix_append_right_inj _).mp hpre) hlead

theorem names_of_issued (h : s.Spelled) (hc : c ∈ s.crates)
    (ht : s.IssuedAtHead u c.tagPrefix t) : s.Names c t := by
  obtain ⟨-, w, v, -, hstable, rfl⟩ := ht
  have hreads : c.reads (c.tagPrefix ++ v.versionString) = true :=
    CrateConfig.reads_iff.mpr ⟨_, rfl, isVersion_versionString v⟩
  refine ⟨?_, hreads, h.unshadowed hc hreads⟩
  rw [isNightlyTag_append (h.familyPrefix hc).2, hstable]

theorem inFamily (h : s.Spelled) (hc : c ∈ s.crates) (hnames : s.Names c t) : s.InFamily c t := by
  obtain ⟨scope, hscope, hlead⟩ := tagFamilyPrefix_eq_some.mp (h.familyPrefix hc).1
  obtain ⟨rest, rfl, hrest⟩ := CrateConfig.reads_iff.mp hnames.reads
  refine tagInFamilyExcludingSiblings_iff.mpr ⟨scope, hscope, ?_, ?_⟩
  · refine TagFamilyScope.contains_iff.mpr ⟨hlead ▸ List.prefix_append _ _, ?_⟩
    rintro rfl
    rw [← hlead]
    exact isVersion_head hrest
  · rintro ⟨template, hmem, x, hx, hmatch, hpre⟩
    obtain ⟨c', hc', rfl⟩ := List.mem_map.mp (List.mem_filter.mp hmem).1
    have heq : s.familyPrefix c' = some (scope.lead ++ x) := hmatch
    rw [(h.familyPrefix hc').1, Option.some.injEq, hlead] at heq
    rw [hlead] at hpre
    exact h.not_continued hc hc' hrest hx ((List.prefix_append_right_inj _).mp hpre) heq

/-- Then selection inverts issuance, whatever tags are at HEAD. -/
theorem inverts (h : s.Spelled) (u : CharTables) : s.Inverts u := by
  refine (inverts_iff u s).mpr ⟨fun c hc p t hp ht => ?_, fun c hc t ht hnames => ?_,
    fun c hc p t hp ht => ?_⟩
  · rw [(h.familyPrefix hc).1] at hp
    obtain rfl := Option.some.inj hp
    exact ⟨t, ht.1, h.names_of_issued hc ht⟩
  · exact ⟨t, ht, h.inFamily hc hnames⟩
  · rw [(h.familyPrefix hc).1] at hp
    obtain rfl := Option.some.inj hp
    have hnames := h.names_of_issued hc ht
    obtain ⟨o, ho⟩ : ∃ o, s.crates.find? (·.tagPrefix = c.tagPrefix) = some o := by
      rw [← Option.isSome_iff_exists, List.find?_isSome]
      exact ⟨c, hc, by simp⟩
    have hmem := List.mem_of_find?_eq_some ho
    have hpre : o.tagPrefix = c.tagPrefix := by simpa using List.find?_some ho
    obtain ⟨hreads, hlong⟩ := (tagPrefix_eq hc hmem hnames.reads hnames.unshadowed).mpr hpre
    refine ⟨o, hreads, hlong, by rw [hpre, ho], ?_⟩
    rw [(h.familyPrefix hmem).1, hpre]

end Spelled

/-- A crate inside a namespace, with its release at HEAD. -/
def namespacedHead : HeadState where
  crates := [⟨"core".toList, "core".toList, some "core-v\x7b\x7b Version \x7d\x7d".toList, none, none⟩]
  distinct := by decide
  ign := ⟨[], []⟩
  monorepoPrefix := some "sub/".toList
  tags := ["sub/core-v1.2.3".toList]
  kept := by decide

theorem not_inverts : ¬namespacedHead.Inverts .ascii := by
  intro h
  have hissued : namespacedHead.IssuedAtHead .ascii "sub/core-v".toList "sub/core-v1.2.3".toList :=
    ⟨by decide, "1.2.3".toList, ⟨1, 2, 3, none, none⟩, by decide, by decide, by decide⟩
  have hselected := h.issued _ List.mem_cons_self _ _ (by decide) hissued
  have hnone : namespacedHead.selected = [] := by decide
  rw [hnone] at hselected
  cases hselected

end HeadState

end Anodizer.Tag
