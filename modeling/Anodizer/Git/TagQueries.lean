import Anodizer.Git.TagFamily

/-! # Tag queries

Three queries read the tags of one family: the latest-tag probe, the search
for the previous tag, and the tagging planner. Each keeps the tags its own
filters leave.
-/

namespace Anodizer.Git

open Regex
open Template (Text CharTables)

variable (u : CharTables)

/-! ### The latest tag -/

def sentinel : Text := "\x00VERSION_PLACEHOLDER\x00".toList

def replaceStep (needle new : Text) (_ : Unit) (c : Char) (cs : Text) : Scan.Step Unit Char Char :=
  if needle.isPrefixOf (c :: cs) then ⟨new, (), cs.drop (needle.length - 1)⟩ else ⟨[c], (), cs⟩

/-- Replace every occurrence of `needle`. -/
def replaceText (needle new s : Text) : Text := Scan.scan (replaceStep needle new) () s

/-- The version part of a tag, as the latest-tag probe reads it. -/
def releaseRe : Re :=
  .cat [digitsRe u, .lit ".", digitsRe u, .lit ".", digitsRe u,
    .opt (.cat [.lit "-", .plus true notNewline])]

def templateStep (_ : Unit) (c : Char) (cs : Text) : Scan.Step Unit Char Re :=
  if sentinel.isPrefixOf (c :: cs) then ⟨[releaseRe u], (), cs.drop (sentinel.length - 1)⟩
  else ⟨[.char (· == c)], (), cs⟩

/-- The tags a template spells. -/
def templateRe (template : Text) : Re :=
  let tmp := versionPlaceholders.foldl (fun tmp p => replaceText p sentinel tmp) template
  .cat (.textStart :: (Scan.scan (templateStep u) () tmp ++ [.textEnd]))

/-- The tags the latest-tag probe keeps. -/
def latestMatching (template : Text) (ign : Ignore) (monorepoPrefix : Option Text)
    (tags : List Text) : List (SemVer × Text) :=
  (semverPairsFiltered u tags (monorepoPrefix.map .literal) ign .stripped false).filter fun vt =>
    let view := match monorepoPrefix with
      | some p => if p.isPrefixOf template then vt.2 else stripMonorepoPrefix vt.2 p
      | none => vt.2
    (matchStart (templateRe u template) view).isSome

structure TagSort where
  tagSort : Option Text
  prereleaseSuffix : Option Text

/-- Git sorts the listing, and its first tag is the newest. -/
def TagSort.byGit (s : TagSort) : Bool :=
  let mode := s.tagSort.getD "-version:refname".toList
  !(mode = "semver".toList || mode = "smartsemver".toList) &&
    (mode = "-version:creatordate".toList || s.prereleaseSuffix.isSome)

/-- The newest tag of the listing that git gives for the sort in use. -/
def findLatestTagMatching (template : Text) (sort : TagSort) (ign : Ignore)
    (monorepoPrefix : Option Text) (listing : Bool → Text) : Option Text :=
  let matching := latestMatching u template ign monorepoPrefix (Lines.lines (listing sort.byGit))
  if sort.byGit then matching.head?.map (·.2)
  else (matching.mergeSort fun a b => a.1.compare b.1 != .gt).getLast?.map (·.2)

theorem findLatestTagMatching_mem {template t : Text} {sort : TagSort} {ign : Ignore}
    {monorepoPrefix : Option Text} {listing : Bool → Text}
    (h : findLatestTagMatching u template sort ign monorepoPrefix listing = some t) :
    t ∈ (latestMatching u template ign monorepoPrefix
      (Lines.lines (listing sort.byGit))).map (·.2) := by
  unfold findLatestTagMatching at h
  split at h
  · obtain ⟨vt, hvt, rfl⟩ := Option.map_eq_some_iff.mp h
    exact List.mem_map_of_mem (List.mem_of_mem_head? hvt)
  · obtain ⟨vt, hvt, rfl⟩ := Option.map_eq_some_iff.mp h
    exact List.mem_map_of_mem (List.mem_mergeSort.mp (List.mem_of_getLast? hvt))

/-! ### The previous tag -/

/-- The tags of the family, less those of narrower sibling families. -/
def previousMatching (template : Text) (siblings : List Text) (ign : Ignore)
    (monorepoPrefix : Option Text) (tags : List Text) : List (SemVer × Text) :=
  (semverPairsFiltered u tags (tagFamilyScope template monorepoPrefix) ign .full true).filter
    fun vt => !(excludedSiblingPrefixes template monorepoPrefix siblings).any (·.isPrefixOf vt.2)

/-- The newest other tag, one on another commit first. -/
def smartsemverPreviousTag (template : Text) (siblings : List Text) (ign : Ignore)
    (monorepoPrefix : Option Text) (listing current : Text) (commitOf : Text → Option Text) :
    Option Text :=
  let scope := tagFamilyScope template monorepoPrefix
  let skipPrereleases := (parseSemverTag u ((scope.map (·.strip current)).getD current)).any
    (!·.isPrerelease)
  let candidates := (previousMatching u template siblings ign monorepoPrefix
    (Lines.lines listing)).filter fun vt =>
      vt.2 ≠ current && (!skipPrereleases || !vt.1.isPrerelease)
  let sorted := candidates.mergeSort fun a b => b.1.compare a.1 != .gt
  let apart := sorted.filter fun vt =>
    !((commitOf current).isSome && commitOf vt.2 = commitOf current)
  (apart.head?.or sorted.head?).map (·.2)

theorem smartsemverPreviousTag_mem {template t listing current : Text} {siblings : List Text}
    {ign : Ignore} {monorepoPrefix : Option Text} {commitOf : Text → Option Text}
    (h : smartsemverPreviousTag u template siblings ign monorepoPrefix listing current commitOf =
      some t) :
    t ∈ (previousMatching u template siblings ign monorepoPrefix
      (Lines.lines listing)).map (·.2) := by
  unfold smartsemverPreviousTag at h
  obtain ⟨vt, hvt, rfl⟩ := Option.map_eq_some_iff.mp h
  apply List.mem_map_of_mem
  rcases Option.or_eq_some_iff.mp hvt with hvt | ⟨-, hvt⟩
  · have hmem := List.mem_of_mem_filter (List.mem_of_mem_head? hvt)
    exact List.mem_of_mem_filter (List.mem_mergeSort.mp hmem)
  · exact List.mem_of_mem_filter (List.mem_mergeSort.mp (List.mem_of_mem_head? hvt))

/-! ### The planner -/

/-- The tags the planner keeps for a prefix. -/
def plannerMatching (tags : List Text) (pfx : Text) (ign : Ignore) : List (SemVer × Text) :=
  (tags.filter fun t => !isNightlyTag t && pfx.isPrefixOf t && !ign.byGlob t &&
    !ign.byPrefix true t).filterMap fun t => (parseSemverTag u t).map fun v => (v, t)

def collectSemverTags (tags : List Text) (pfx : Text) (ign : Ignore) : List Text :=
  ((plannerMatching u tags pfx ign).mergeSort fun a b => b.1.compare a.1 != .gt).map (·.2)

/-! ### Literal prefixes -/

/-- A text with no expression in it, and no sentinel. -/
structure Literal (p : Text) : Prop where
  noOpen : ∀ a b, p ≠ a ++ '\x7b' :: '\x7b' :: b
  noNul : '\x00' ∉ p

variable {u} {p : Text}

theorem Literal.tail {c : Char} (h : Literal (c :: p)) : Literal p :=
  ⟨fun a b hab => h.noOpen (c :: a) b (by rw [hab, List.cons_append]),
    fun hn => h.noNul (List.mem_cons_of_mem _ hn)⟩

theorem Literal.of_append {a : Text} (h : Literal (a ++ p)) : Literal p := by
  induction a with
  | nil => exact h
  | cons c a ih => exact ih h.tail

/-- No placeholder starts inside the prefix. -/
theorem Literal.not_placeholder {c : Char} (h : Literal (c :: p)) {ph x : Text}
    (hph : ph ∈ versionPlaceholders) (hx : x ∈ sentinel :: versionPlaceholders) :
    ph.isPrefixOf (c :: (p ++ x)) = false := by
  have hopen : ∀ ph ∈ versionPlaceholders, ph = '\x7b' :: ph.tail ∧
      ph.take 2 = ['\x7b', '\x7b'] ∧ ∀ x ∈ sentinel :: versionPlaceholders, ph.tail.isPrefixOf x = false := by decide
  obtain ⟨hhead, htwo, htail⟩ := hopen ph hph
  rw [← Bool.not_eq_true, List.isPrefixOf_iff_prefix]
  intro hpre
  cases p with
  | nil =>
    rw [hhead, List.nil_append, List.cons_prefix_cons, ← List.isPrefixOf_iff_prefix,
      htail x hx] at hpre
    exact absurd hpre.2 (by simp)
  | cons e p =>
    have : ph.take 2 <+: c :: (e :: p ++ x) := (List.take_prefix 2 ph).trans hpre
    rw [htwo] at this
    obtain ⟨rest, heq⟩ := this
    simp only [List.cons_append, List.cons.injEq, List.nil_append] at heq
    obtain ⟨rfl, rfl, -⟩ := heq
    exact h.noOpen [] p rfl

theorem beforeFirst_literal (h : Literal p) {ph ph' : Text} (hph : ph ∈ versionPlaceholders)
    (hph' : ph' ∈ versionPlaceholders) :
    beforeFirst ph (p ++ ph') = if ph = ph' then some p else none := by
  induction p with
  | nil =>
    have : ∀ ph ∈ versionPlaceholders, ∀ ph' ∈ versionPlaceholders,
        beforeFirst ph ph' = if ph = ph' then some [] else none := by decide
    exact this ph hph ph' hph'
  | cons c p ih =>
    rw [List.cons_append, beforeFirst,
      h.not_placeholder hph (List.mem_cons_of_mem _ hph'), ih h.tail]
    split <;> simp_all

/-- The prefix of a template with a literal prefix. -/
theorem extractTagPrefix_literal (h : Literal p) {ph : Text} (hph : ph ∈ versionPlaceholders) :
    extractTagPrefix (p ++ ph) = some p := by
  suffices key : ∀ l ⊆ versionPlaceholders, ph ∈ l →
      l.findSome? (fun q => beforeFirst q (p ++ ph)) = some p from
    key _ (List.Subset.refl _) hph
  intro l
  induction l with
  | nil => exact fun _ hmem => absurd hmem (by simp)
  | cons q l ih =>
    intro hl hmem
    obtain ⟨hq, hl⟩ := List.cons_subset.mp hl
    rw [List.findSome?_cons, beforeFirst_literal h hq hph]
    split_ifs with heq
    · rfl
    · exact ih hl ((List.mem_cons.mp hmem).resolve_left fun h => heq h.symm)

theorem shrinks_replaceStep (needle new : Text) : Scan.Shrinks (replaceStep needle new) := by
  intro s c cs
  unfold replaceStep
  split
  · simp
  · exact Nat.le_refl _

theorem replaceText_literal (h : Literal p) {ph x : Text} (hph : ph ∈ versionPlaceholders)
    (hx : x ∈ sentinel :: versionPlaceholders) :
    replaceText ph sentinel (p ++ x) = p ++ if ph = x then sentinel else x := by
  have hbase : ∀ ph ∈ versionPlaceholders, ∀ x ∈ sentinel :: versionPlaceholders,
      replaceText ph sentinel x = if ph = x then sentinel else x := by decide +kernel
  have hstep : ∀ a c b, p = a ++ c :: b →
      replaceStep ph sentinel () c (b ++ x) = ⟨[c], (), b ++ x⟩ := by
    rintro a c b rfl
    rw [replaceStep, h.of_append.not_placeholder hph hx, if_neg Bool.false_ne_true]
  have hscan := Scan.scan_append (shrinks_replaceStep ph sentinel) (f := fun c => [c]) hstep
  rw [replaceText, hscan, List.flatMap_singleton']
  exact congrArg (p ++ ·) (hbase ph hph x hx)

theorem replacePlaceholders_literal (h : Literal p) {ph : Text} (hph : ph ∈ versionPlaceholders) :
    versionPlaceholders.foldl (fun tmp q => replaceText q sentinel tmp) (p ++ ph) =
      p ++ sentinel := by
  suffices key : ∀ l ⊆ versionPlaceholders, ∀ x ∈ sentinel :: versionPlaceholders,
      (x = sentinel ∨ x ∈ l) →
      l.foldl (fun tmp q => replaceText q sentinel tmp) (p ++ x) = p ++ sentinel from
    key _ (List.Subset.refl _) ph (List.mem_cons_of_mem _ hph) (.inr hph)
  intro l
  induction l with
  | nil =>
    rintro - x - (rfl | hx)
    · rfl
    · exact absurd hx (by simp)
  | cons q l ih =>
    intro hl x hx hmem
    obtain ⟨hq, hl⟩ := List.cons_subset.mp hl
    rw [List.foldl_cons, replaceText_literal h hq hx]
    split
    · exact ih hl sentinel List.mem_cons_self (.inl rfl)
    · next hne =>
      refine ih hl x hx (hmem.imp_right fun hx => ?_)
      rcases List.mem_cons.mp hx with rfl | hx
      · exact absurd rfl hne
      · exact hx

/-! ### What each query keeps -/

/-- Three numbers, and anything after a dash. -/
def ReleaseText (u : CharTables) (r : Text) : Prop :=
  ∃ a b c o, Spelling.IsNumber u a ∧ Spelling.IsNumber u b ∧ Spelling.IsNumber u c ∧
    (∀ x ∈ o, x ≠ [] ∧ ∀ c ∈ x, c ≠ '\n') ∧
    r = a ++ '.' :: (b ++ '.' :: (c ++ SemVer.suffix '-' o))

theorem reads_releaseRe {prev : Option Char} {t rest : Text} {g : List (String × Text)} :
    (releaseRe u).Reads prev t rest g ↔ g = [] ∧ ReleaseText u t := by
  constructor
  · rintro ⟨a, _, _, _, rfl, rfl, ha, d₁, _, _, _, rfl, rfl, hd₁, b, _, _, _, rfl, rfl, hb,
      d₂, _, _, _, rfl, rfl, hd₂, c, _, _, _, rfl, rfl, hc, x, _, _, _, rfl, rfl, hx, rfl, rfl⟩
    obtain ⟨hma, rfl⟩ := reads_digitsRe.mp ha
    obtain ⟨hmi, rfl⟩ := reads_digitsRe.mp hb
    obtain ⟨hpa, rfl⟩ := reads_digitsRe.mp hc
    obtain ⟨rfl, rfl⟩ := Re.reads_lit.mp hd₁
    obtain ⟨rfl, rfl⟩ := Re.reads_lit.mp hd₂
    obtain ⟨rfl, o, rfl, ho⟩ := (reads_mark (m := '-') rfl).mp hx
    exact ⟨rfl, a, b, c, o, hma, hmi, hpa, by simpa using ho, by simp⟩
  · rintro ⟨rfl, a, b, c, o, ha, hb, hc, ho, rfl⟩
    exact ⟨a, _, [], [], rfl, rfl, reads_digitsRe.mpr ⟨ha, rfl⟩,
      ['.'], _, [], [], rfl, rfl, Re.reads_lit.mpr ⟨rfl, rfl⟩,
      b, _, [], [], rfl, rfl, reads_digitsRe.mpr ⟨hb, rfl⟩,
      ['.'], _, [], [], rfl, rfl, Re.reads_lit.mpr ⟨rfl, rfl⟩,
      c, _, [], [], rfl, rfl, reads_digitsRe.mpr ⟨hc, rfl⟩,
      _, [], [], [], (List.append_nil _).symm, rfl,
      (reads_mark (m := '-') rfl).mpr ⟨rfl, o, rfl, by simpa using ho⟩, rfl, rfl⟩

theorem templateRe_literal (h : Literal p) {ph : Text} (hph : ph ∈ versionPlaceholders) :
    templateRe u (p ++ ph) =
      .cat (.textStart :: (p.map (fun c => .char (· == c)) ++ [releaseRe u, .textEnd])) := by
  have hshrinks : Scan.Shrinks (templateStep u) := by
    intro s c cs
    unfold templateStep
    split
    · simp
    · exact Nat.le_refl _
  have hstep : ∀ a c b, p = a ++ c :: b →
      templateStep u () c (b ++ sentinel) = ⟨[.char (· == c)], (), b ++ sentinel⟩ := by
    rintro a c b rfl
    have hne : '\x00' ≠ c := fun hc => h.noNul (by rw [hc]; simp)
    have hpre : sentinel.isPrefixOf (c :: (b ++ sentinel)) = false := by
      rw [show sentinel = '\x00' :: sentinel.tail from rfl, List.isPrefixOf_cons_cons,
        beq_eq_false_iff_ne.mpr hne, Bool.false_and]
    rw [templateStep, hpre, if_neg Bool.false_ne_true]
  have hend : Scan.scan (templateStep u) () sentinel = [releaseRe u] := by
    rw [show sentinel = '\x00' :: sentinel.tail from rfl, Scan.scan_cons hshrinks]
    rfl
  unfold templateRe
  simp only [replacePlaceholders_literal h hph,
    Scan.scan_append hshrinks (f := fun c => [Re.char (· == c)]) hstep, hend]
  rw [← List.map_eq_flatMap, List.append_assoc]
  rfl

theorem reads_chars {rs : List Re} {prev : Option Char} {t rest : Text}
    {g : List (String × Text)} :
    (Re.cat (p.map (fun c => .char (· == c)) ++ rs)).Reads prev t rest g ↔
      ∃ y, t = p ++ y ∧ (Re.cat rs).Reads (before prev p) y rest g := by
  induction p generalizing prev t g with
  | nil => simp [before]
  | cons c p ih =>
    have hbefore : before (before prev [c]) p = before prev (c :: p) := by
      simp [before, List.getLast?_cons]
    constructor
    · rintro ⟨_, y, _, _, rfl, rfl, ⟨⟨d, hd, rfl⟩, rfl⟩, hy⟩
      obtain rfl : d = c := by simpa using hd
      obtain ⟨z, rfl, hz⟩ := ih.mp hy
      rw [List.append_nil]
      exact ⟨z, rfl, hbefore ▸ hz⟩
    · rintro ⟨y, rfl, hy⟩
      exact ⟨[c], p ++ y, [], g, rfl, (List.append_nil g).symm, ⟨⟨c, by simp, rfl⟩, rfl⟩,
        ih.mpr ⟨y, rfl, hbefore ▸ hy⟩⟩

theorem matchStart_isSome {r : Re} {s : Text} :
    (matchStart r s).isSome ↔ ∃ t rest g, s = t ++ rest ∧ r.Reads none t rest g := by
  constructor
  · intro h
    obtain ⟨m, hm⟩ := Option.isSome_iff_exists.mp h
    exact ⟨m.text, m.rest, m.groups, first_sound hm⟩
  · rintro ⟨t, rest, g, hs, hr⟩
    have hmem : (⟨t, rest, g⟩ : Found) ∈ r.results none s := Re.mem_results.mpr ⟨hs, hr⟩
    simpa [matchStart, first] using List.ne_nil_of_mem hmem

/-- The latest-tag probe wants the prefix and a release after it. -/
theorem matches_templateRe (h : Literal p) {ph : Text} (hph : ph ∈ versionPlaceholders)
    {t : Text} : (matchStart (templateRe u (p ++ ph)) t).isSome ↔
      ∃ r, t = p ++ r ∧ ReleaseText u r := by
  rw [matchStart_isSome, templateRe_literal h hph]
  constructor
  · rintro ⟨_, rest, g, rfl, _, y, _, _, rfl, rfl, ⟨rfl, rfl, -⟩, hy⟩
    obtain ⟨z, rfl, r, _, _, _, rfl, rfl, hr, _, _, _, _, rfl, rfl, ⟨rfl, rfl, hrest⟩, rfl, rfl⟩ :=
      reads_chars.mp hy
    obtain ⟨-, hrelease⟩ := reads_releaseRe.mp hr
    obtain rfl : rest = [] := by simpa using hrest
    exact ⟨r, by simp, hrelease⟩
  · rintro ⟨r, rfl, hr⟩
    refine ⟨p ++ r, [], [], (List.append_nil _).symm, [], _, [], [], rfl, rfl, ⟨rfl, rfl, rfl⟩,
      reads_chars.mpr ⟨r, rfl, r, [], [], [], (List.append_nil _).symm, rfl,
        reads_releaseRe.mpr ⟨rfl, hr⟩, [], [], [], [], rfl, rfl, ⟨rfl, rfl, rfl⟩, rfl, rfl⟩⟩

/-- The filters that all the queries apply leave the tag. -/
structure Survives (ign : Ignore) (t : Text) : Prop where
  nightly : isNightlyTag t = false
  glob : ign.byGlob t = false
  pfx : ign.byPrefix true t = false

variable (u) in
/-- A tag the template of a prefix creates. -/
def Issues (p t : Text) : Prop :=
  ∃ w v, parseSemver u w = some v ∧ t = p ++ v.versionString

variable {ign : Ignore} {siblings tags : List Text} {t r ph : Text}

theorem mem_map_snd_filterMap {f : Text → Option SemVer} {l : List Text} :
    t ∈ (l.filterMap fun t => (f t).map fun v => (v, t)).map (·.2) ↔ t ∈ l ∧ (f t).isSome := by
  simp [Option.isSome_iff_exists]

theorem byPrefix_false : ign.byPrefix false t = false ↔
    ign.byPrefix true t = false ∧ [] ∉ ign.prefixes := by
  simp only [Ignore.byPrefix, List.any_eq_false]
  constructor
  · intro h
    refine ⟨fun p hp => ?_, fun hmem => absurd (h [] hmem) (by simp)⟩
    have := h p hp
    simp_all
  · rintro ⟨h, hmem⟩ p hp
    have hne : p ≠ [] := fun hp' => hmem (hp' ▸ hp)
    simpa [hne] using h p hp

theorem mem_map_snd_filter {l : List (SemVer × Text)} {q : Text → Bool} :
    t ∈ (l.filter fun vt => q vt.2).map (·.2) ↔ t ∈ l.map (·.2) ∧ q t := by
  simp only [List.mem_map, List.mem_filter]
  constructor
  · rintro ⟨vt, ⟨hl, hq⟩, rfl⟩
    exact ⟨⟨vt, hl, rfl⟩, hq⟩
  · rintro ⟨⟨vt, hl, rfl⟩, hq⟩
    exact ⟨vt, ⟨hl, hq⟩, rfl⟩

theorem mem_latest (h : Literal p) (hph : ph ∈ versionPlaceholders) :
    t ∈ (latestMatching u (p ++ ph) ign none tags).map (·.2) ↔
      t ∈ tags ∧ Survives ign t ∧ [] ∉ ign.prefixes ∧ (parseSemverTag u t).isSome ∧
        ∃ r, t = p ++ r ∧ ReleaseText u r := by
  rw [← matches_templateRe h hph, latestMatching,
    mem_map_snd_filter (q := fun t => (matchStart (templateRe u (p ++ ph)) t).isSome),
    semverPairsFiltered, mem_map_snd_filterMap, List.mem_filter]
  simp only [Option.map_none, Option.getD_none, ite_self, Bool.and_true, Bool.and_eq_true,
    Bool.not_eq_true', byPrefix_false]
  constructor
  · rintro ⟨⟨⟨ht, ⟨hn, hg⟩, hi, hne⟩, hs⟩, hm⟩
    exact ⟨ht, ⟨hn, hg, hi⟩, hne, hs, hm⟩
  · rintro ⟨ht, ⟨hn, hg, hi⟩, hne, hs, hm⟩
    exact ⟨⟨⟨ht, ⟨hn, hg⟩, hi, hne⟩, hs⟩, hm⟩

theorem strip_append (p r : Text) : stripMonorepoPrefix (p ++ r) p = r := by
  have hpre : p.isPrefixOf (p ++ r) := List.isPrefixOf_iff_prefix.mpr (List.prefix_append p r)
  rw [stripMonorepoPrefix, if_pos hpre, List.drop_left]

theorem mem_semverPairs_full {scope : TagFamilyScope} :
    t ∈ (semverPairsFiltered u tags (some scope) ign .full true).map (·.2) ↔
      t ∈ tags ∧ Survives ign t ∧ scope.contains t ∧ (parseSemverTag u (scope.strip t)).isSome := by
  rw [semverPairsFiltered, mem_map_snd_filterMap, List.mem_filter]
  simp only [Option.map_some, Option.getD_some, reduceCtorEq, if_false, Bool.and_eq_true,
    Bool.not_eq_true']
  constructor
  · rintro ⟨⟨ht, ⟨⟨hn, hc⟩, hg⟩, hi⟩, hs⟩
    exact ⟨ht, ⟨hn, hg, hi⟩, hc, hs⟩
  · rintro ⟨ht, ⟨hn, hg, hi⟩, hc, hs⟩
    exact ⟨⟨ht, ⟨⟨hn, hc⟩, hg⟩, hi⟩, hs⟩

theorem tagFamilyScope_literal (h : Literal p) (hph : ph ∈ versionPlaceholders) :
    tagFamilyScope (p ++ ph) none = some (if p = [] then .bareVersion else .literal p) := by
  rw [tagFamilyScope, extractTagPrefix_literal h hph]
  by_cases hp : p = [] <;> simp [hp, composePrefix]

/-- The previous-tag search reads the version after the prefix. -/
theorem mem_previous (h : Literal p) (hph : ph ∈ versionPlaceholders) :
    t ∈ (previousMatching u (p ++ ph) siblings ign none tags).map (·.2) ↔
      t ∈ tags ∧ Survives ign t ∧ (∃ r, t = p ++ r ∧ (parseSemverTag u r).isSome ∧
        (p = [] → r.head?.any Char.isDigit)) ∧
        ∀ q ∈ excludedSiblingPrefixes (p ++ ph) none siblings, ¬ q <+: t := by
  have hscope : (if p = [] then .bareVersion else .literal p : TagFamilyScope).contains t ∧
      (parseSemverTag u ((if p = [] then .bareVersion else .literal p : TagFamilyScope).strip
        t)).isSome ↔ ∃ r, t = p ++ r ∧ (parseSemverTag u r).isSome ∧
        (p = [] → r.head?.any Char.isDigit) := by
    split_ifs with hp
    · subst hp
      simp [TagFamilyScope.contains, TagFamilyScope.strip, and_comm]
    · simp only [TagFamilyScope.contains, TagFamilyScope.strip, List.isPrefixOf_iff_prefix, hp,
        false_imp_iff, and_true]
      constructor
      · rintro ⟨⟨r, rfl⟩, hs⟩
        exact ⟨r, rfl, by rwa [strip_append] at hs⟩
      · rintro ⟨r, rfl, hs⟩
        exact ⟨⟨r, rfl⟩, by rwa [strip_append]⟩
  rw [previousMatching, mem_map_snd_filter (q := fun t => !(excludedSiblingPrefixes (p ++ ph) none
    siblings).any (·.isPrefixOf t)), tagFamilyScope_literal h hph, mem_semverPairs_full, hscope]
  simp only [Bool.not_eq_true', List.any_eq_false, List.isPrefixOf_iff_prefix, and_assoc]

theorem mem_planner : t ∈ (plannerMatching u tags p ign).map (·.2) ↔
    t ∈ tags ∧ Survives ign t ∧ p <+: t ∧ (parseSemverTag u t).isSome := by
  rw [plannerMatching, mem_map_snd_filterMap, List.mem_filter]
  simp only [Bool.and_eq_true, Bool.not_eq_true', List.isPrefixOf_iff_prefix]
  constructor
  · rintro ⟨⟨ht, ⟨⟨hn, hp⟩, hg⟩, hi⟩, hs⟩
    exact ⟨ht, ⟨hn, hg, hi⟩, hp, hs⟩
  · rintro ⟨ht, ⟨hn, hg, hi⟩, hp, hs⟩
    exact ⟨⟨ht, ⟨⟨hn, hp⟩, hg⟩, hi⟩, hs⟩

end Anodizer.Git
