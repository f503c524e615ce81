import Anodizer.Cloudsmith.Versions
import Anodizer.Git.Precedence

/-! # Keeping the newest releases

The entries of a release are told by their spelling. Where every spelling is cut down to its
release and no two groups tie, the entries that are deleted belong to releases behind enough
newer ones, whatever the order of the list.
-/

namespace Anodizer.Cloudsmith

open Git (SemVer parseSemver)
open Template (Text CharTables)

variable {u : CharTables} {entries : List VersionEntry} {current n s t : Text} {keep : ℕ}

/-! ### The order of the groups -/

abbrev RankKey := Lex (SemVer.Keyᵒᵈ ⊕ Textᵒᵈ)

/-- The place of a group among the groups. -/
def rankKey (u : CharTables) (newestTs : Text → Text) (a : Text) : RankKey :=
  match parseSemver u a with
  | some v => toLex (.inl (.toDual v.key))
  | none => toLex (.inr (.toDual (newestTs a)))

theorem compareRank_compares (newestTs : Text → Text) (a b : Text) :
    (compareRank u newestTs a b).Compares (rankKey u newestTs a) (rankKey u newestTs b) := by
  unfold compareRank rankKey
  rcases parseSemver u a with - | va <;> rcases parseSemver u b with - | vb
  · have hmono : StrictMono fun x : Textᵒᵈ => (toLex (.inr x) : RankKey) := fun _ _ h =>
      Sum.Lex.inr_lt_inr_iff.mpr h
    exact hmono.compares.mpr (toDual_compares_toDual.mpr (SemVer.compares_text _ _))
  · exact Sum.Lex.inl_lt_inr _ _
  · exact Sum.Lex.inl_lt_inr _ _
  · have hmono : StrictMono fun x : SemVer.Keyᵒᵈ => (toLex (.inl x) : RankKey) := fun _ _ h =>
      Sum.Lex.inl_lt_inl_iff.mpr h
    exact hmono.compares.mpr (toDual_compares_toDual.mpr (SemVer.compare_compares _ _))

/-- The groups, the newest one first. -/
def ranked (u : CharTables) (entries : List VersionEntry) : List Text :=
  (rankDistinctVersionsDesc u entries).1

theorem perm_ranked : (ranked u entries).Perm (collect u entries).order :=
  List.perm_insertionSort _ _

theorem mem_ranked {norm : Text} : norm ∈ ranked u entries ↔
    ∃ e ∈ entries, normalizeCloudsmithVersion u e.version = norm := by
  rw [perm_ranked.mem_iff, (collected u entries).mem_order]
  simp [bucket, List.filter_eq_nil_iff]

theorem pairwise_ranked : (ranked u entries).Pairwise fun a b =>
    rankKey u (collect u entries).newestTs a ≤ rankKey u (collect u entries).newestTs b := by
  have hle : ∀ a b, compareRank u (collect u entries).newestTs a b ≠ .gt ↔
      rankKey u (collect u entries).newestTs a ≤ rankKey u (collect u entries).newestTs b :=
    fun a b => (compareRank_compares _ a b).ne_gt
  have htotal : Std.Total fun a b => compareRank u (collect u entries).newestTs a b ≠ .gt := ⟨by
    intro a b
    rw [hle, hle]
    exact le_total _ _⟩
  have htrans : IsTrans _ fun a b => compareRank u (collect u entries).newestTs a b ≠ .gt := ⟨by
    intro a b c
    rw [hle, hle, hle]
    exact le_trans⟩
  exact (List.pairwise_insertionSort _ _).imp fun h => (hle _ _).mp h

/-! ### What is deleted -/

theorem mem_selectVersionsToPrune {slug : Text} (hkeep : keep ≠ 0) :
    slug ∈ selectVersionsToPrune u entries keep current ↔ ∃ e ∈ entries, e.slug = slug ∧
      normalizeCloudsmithVersion u e.version ∉ (ranked u entries).take keep ∧
      normalizeCloudsmithVersion u e.version ≠ normalizeCloudsmithVersion u current := by
  have hbuckets : ∀ norm, ((rankDistinctVersionsDesc u entries).2 norm).getD [] =
      bucket u entries norm := (collected u entries).getD
  unfold selectVersionsToPrune
  split
  · next hnone =>
    obtain rfl : entries = [] := by simpa [hkeep] using hnone
    simp
  · simp only [List.mem_flatMap, List.mem_filter, List.mem_map, hbuckets, bucket,
      decide_eq_true_eq, List.mem_cons, not_or]
    constructor
    · rintro ⟨norm, ⟨hnorm, hcurrent, htake⟩, e, ⟨he, rfl⟩, rfl⟩
      exact ⟨e, he, rfl, htake, hcurrent⟩
    · rintro ⟨e, he, rfl, htake, hcurrent⟩
      exact ⟨_, ⟨mem_ranked.mpr ⟨e, he, rfl⟩, hcurrent, htake⟩, e, ⟨he, rfl⟩, rfl⟩

/-! ### Decorations -/

/-- A version that is read, with a prerelease that is no packaging revision. -/
structure Release (u : CharTables) where
  text : Text
  version : SemVer
  parse : parseSemver u text = some version
  plain : ∀ p ∈ version.prerelease, isRevision p = false

/-- The spellings with an epoch or a packaging revision. -/
inductive Spells (t : Text) : Text → Prop
  | bare : Spells t t
  | epoch {n : Text} (hn : Digits n) : Spells t (n ++ ':' :: t)
  | revision {m : Text} (hm : Digits m) : Spells t (t ++ '-' :: m)
  | apkRevision {m : Text} (hm : Digits m) : Spells t (t ++ '-' :: 'r' :: m)
  | epochRevision {n m : Text} (hn : Digits n) (hm : Digits m) :
      Spells t (n ++ ':' :: (t ++ '-' :: m))

/-- The spelling with a tilde before the prerelease. -/
def tilde (t : Text) : Text := t.takeWhile (· ≠ '-') ++ '~' :: (t.dropWhile (· ≠ '-')).tail

namespace Release

def Decorates (r : Release u) (s : Text) : Prop :=
  Spells r.text s ∨ r.version.isPrerelease ∧ Spells (tilde r.text) s

def Listed (r : Release u) (entries : List VersionEntry) : Prop :=
  ∃ e ∈ entries, r.Decorates e.version

end Release

theorem Spells.subset (h : Spells t s) : t ⊆ s := by
  cases h <;> intro c hc <;> simp [hc]

/-- What a spelling may be cut down to. An epoch before an `r` revision is cut too. -/
def Carries (s t : Text) : Prop :=
  Spells t s ∨ ∃ n m, Digits n ∧ Digits m ∧ s = n ++ ':' :: (t ++ '-' :: 'r' :: m)

def Unversioned (u : CharTables) (s : Text) : Prop := ∀ t, Carries s t → parseSemver u t = none

theorem carries_of_afterEpoch
    (h : afterEpoch s = t ∨ ∃ tail, isRevision tail ∧ afterEpoch s = t ++ '-' :: tail) :
    Carries s t := by
  rcases h with ht | ⟨tail, hr, ht⟩ <;>
    rcases afterEpoch_cases s with hs | ⟨n, hn, hs⟩ <;> rw [ht] at hs
  · exact .inl (hs ▸ .bare)
  · exact .inl (hs ▸ .epoch hn)
  all_goals rcases isRevision_iff.mp hr with hm | ⟨m, hm, rfl⟩
  · exact .inl (hs ▸ .revision hm)
  · exact .inl (hs ▸ .apkRevision hm)
  · exact .inl (hs ▸ .epochRevision hn hm)
  · exact .inr ⟨n, m, hn, hm, hs⟩

theorem Spells.afterEpoch (hp : (parseSemver u t).isSome) (h : Spells t s) :
    afterEpoch s = t ∨ ∃ tail, isRevision tail ∧ afterEpoch s = t ++ '-' :: tail := by
  obtain ⟨v, hv⟩ := Option.isSome_iff_exists.mp hp
  cases h with
  | bare => exact .inl (by simpa using afterEpoch_of_parse hv [])
  | epoch hn => exact .inl (afterEpoch_epoch hn _)
  | revision hm => exact .inr ⟨_, isRevision_iff.mpr (.inl hm), afterEpoch_of_parse hv _⟩
  | apkRevision hm =>
    exact .inr ⟨_, isRevision_iff.mpr (.inr ⟨_, hm, rfl⟩), afterEpoch_of_parse hv _⟩
  | epochRevision hn hm => exact .inr ⟨_, isRevision_iff.mpr (.inl hm), afterEpoch_epoch hn _⟩

theorem Spells.normalize (hp : (parseSemver u t).isSome) (hplain : ¬ EndsInRevision u t)
    (h : Spells t s) : normalizeCloudsmithVersion u s = t := by
  unfold normalizeCloudsmithVersion
  rcases h.afterEpoch hp with heq | ⟨tail, hr, heq⟩
  · rw [heq, withoutRevision_self hplain]
  · rw [heq, withoutRevision_append hr hp]

theorem Unversioned.parse (h : Unversioned u s) :
    parseSemver u (Cloudsmith.afterEpoch s) = none := h _ (carries_of_afterEpoch (.inl rfl))

theorem Unversioned.normalize (h : Unversioned u s) :
    normalizeCloudsmithVersion u s = Cloudsmith.afterEpoch s := by
  rcases withoutRevision_cases u (Cloudsmith.afterEpoch s) with heq | ⟨tail, hr, heq, hp⟩
  · exact heq
  · rw [h _ (carries_of_afterEpoch (.inr ⟨tail, hr, heq⟩))] at hp
    cases hp

/-- The spelling of a version is not cut down to a text without one. -/
theorem Unversioned.afterEpoch_ne {s' : Text} (h : Unversioned u s')
    (hp : (parseSemver u t).isSome) (hs : Spells t s) :
    Cloudsmith.afterEpoch s ≠ Cloudsmith.afterEpoch s' := by
  intro heq
  have hafter := hs.afterEpoch hp
  rw [heq] at hafter
  rw [h _ (carries_of_afterEpoch hafter)] at hp
  cases hp

/-! ### Order of the list -/

theorem newest_perm {es es' : List VersionEntry} (h : es.Perm es') : newest es = newest es' := by
  have hmax : ∀ a b : Text, (if a < b then b else a) = max a b := by
    intro a b
    split
    · next hlt => exact (max_eq_right hlt.le).symm
    · next hle => exact (max_eq_left (not_lt.mp hle)).symm
  have hcomm : RightCommutative fun (ts : Text) (e : VersionEntry) =>
      if ts < e.uploadedAt then e.uploadedAt else ts := ⟨by
    intro ts e e'
    simp only [hmax]
    exact max_right_comm _ _ _⟩
  exact h.foldl_eq _

theorem newestTs_perm {entries' : List VersionEntry} (h : entries'.Perm entries) :
    (collect u entries').newestTs = (collect u entries).newestTs := by
  ext1 norm
  rw [(collected u entries').newest, (collected u entries).newest]
  exact newest_perm (h.filter _)

/-! ### Retention -/

abbrev Deletes (u : CharTables) (entries : List VersionEntry) (keep : ℕ) (current slug : Text) :
    Prop := slug ∈ selectVersionsToPrune u entries keep current

/-- The entries behind the newest releases are deleted, and no others. -/
structure KeepsNewest (u : CharTables) (entries : List VersionEntry) (keep : ℕ)
    (current : Text) : Prop where
  given : ∀ slug, Deletes u entries keep current slug → ∃ e ∈ entries, e.slug = slug
  spared : ∀ r : Release u, r.Decorates current → ∀ e ∈ entries, r.Decorates e.version →
    ¬ Deletes u entries keep current e.slug
  verdict : ∀ r : Release u, ∀ e ∈ entries, ∀ e' ∈ entries, r.Decorates e.version →
    r.Decorates e'.version →
      (Deletes u entries keep current e.slug ↔ Deletes u entries keep current e'.slug)
  apart : ∀ r r' : Release u, r.text ≠ r'.text → ∀ e ∈ entries, ∀ e' ∈ entries,
    r.Decorates e.version → r'.Decorates e'.version →
      normalizeCloudsmithVersion u e.version ≠ normalizeCloudsmithVersion u e'.version
  enough : ∀ r : Release u, ∀ e ∈ entries, r.Decorates e.version →
    Deletes u entries keep current e.slug → ∃ others : List (Release u),
      (others.map Release.text).Nodup ∧ keep ≤ others.length ∧ ∀ w ∈ others, w.text ≠ r.text ∧
        w.Listed entries ∧ Git.Spec.precedence w.version r.version ≠ .lt
  survives : ∀ r : Release u, ∀ e ∈ entries, r.Decorates e.version →
    (∀ newer : List (Release u), (newer.map Release.text).Nodup → (∀ w ∈ newer,
      w.Listed entries ∧ Git.Spec.precedence w.version r.version = .gt) → newer.length < keep) →
        ¬ Deletes u entries keep current e.slug
  unordered : ∀ entries' : List VersionEntry, entries'.Perm entries → ∀ slug,
    Deletes u entries' keep current slug ↔ Deletes u entries keep current slug

/-- Every spelling is cut down to its release, and no two groups tie. -/
structure ToldApart (u : CharTables) (entries : List VersionEntry) (current : Text) : Prop where
  hyphen : ∀ s ∈ current :: entries.map VersionEntry.version, ∀ r : Release u,
    r.Decorates s → Spells r.text s
  whole : ∀ s ∈ current :: entries.map VersionEntry.version, ∀ r : Release u,
    r.Decorates s → ¬ EndsInRevision u r.text
  known : ∀ e ∈ entries, (∃ r : Release u, r.Decorates e.version) ∨ Unversioned u e.version
  releases : ∀ r r' : Release u, r.Listed entries → r'.Listed entries → r.text ≠ r'.text →
    r.version.compare r'.version = Git.Spec.precedence r.version r'.version ∧
      Git.Spec.precedence r.version r'.version ≠ .eq
  uploads : ∀ e ∈ entries, ∀ e' ∈ entries, Unversioned u e.version → Unversioned u e'.version →
    afterEpoch e.version ≠ afterEpoch e'.version →
      newest (entries.filter (afterEpoch ·.version = afterEpoch e.version)) ≠
        newest (entries.filter (afterEpoch ·.version = afterEpoch e'.version))
  slugs : ∀ e ∈ entries, ∀ e' ∈ entries, e.slug = e'.slug → e.version = e'.version

namespace ToldApart

variable {e : VersionEntry} {r : Release u} {a b : Text}

theorem normalize (h : ToldApart u entries current)
    (hs : s ∈ current :: entries.map VersionEntry.version) (hr : r.Decorates s) :
    normalizeCloudsmithVersion u s = r.text :=
  (h.hyphen s hs r hr).normalize (by rw [r.parse]; rfl) (h.whole s hs r hr)

theorem mem_versions (he : e ∈ entries) :
    e.version ∈ current :: entries.map VersionEntry.version :=
  List.mem_cons_of_mem _ (List.mem_map_of_mem he)

/-- A group with a version is the group of a release. -/
theorem exists_release (h : ToldApart u entries current) (ha : a ∈ ranked u entries)
    (hp : (parseSemver u a).isSome) : ∃ r : Release u, r.text = a ∧ r.Listed entries := by
  obtain ⟨e, he, rfl⟩ := mem_ranked.mp ha
  rcases h.known e he with ⟨r, hr⟩ | hun
  · exact ⟨r, (h.normalize (mem_versions he) hr).symm, e, he, hr⟩
  · rw [hun.normalize, hun.parse] at hp
    cases hp

/-- A group without a version holds what is left of its entries. -/
theorem exists_unversioned (h : ToldApart u entries current) (ha : a ∈ ranked u entries)
    (hp : parseSemver u a = none) : (∃ e ∈ entries, Unversioned u e.version ∧
      afterEpoch e.version = a) ∧
        bucket u entries a = entries.filter (afterEpoch ·.version = a) := by
  have hall : ∀ e ∈ entries, normalizeCloudsmithVersion u e.version = a →
      Unversioned u e.version := by
    intro e he heq
    rcases h.known e he with ⟨r, hr⟩ | hun
    · rw [← heq, h.normalize (mem_versions he) hr, r.parse] at hp
      cases hp
    · exact hun
  obtain ⟨e, he, heq⟩ := mem_ranked.mp ha
  have hun := hall e he heq
  refine ⟨⟨e, he, hun, hun.normalize ▸ heq⟩, List.filter_congr fun e' he' => ?_⟩
  rw [decide_eq_decide]
  constructor
  · intro heq'
    rw [← (hall e' he' heq').normalize]
    exact heq'
  · intro hafter
    rcases h.known e' he' with ⟨r, hr⟩ | hun'
    · have hspells := h.hyphen _ (mem_versions he') r hr
      have hne := hun.afterEpoch_ne (by rw [r.parse]; rfl) hspells
      exact absurd (hafter.trans (hun.normalize ▸ heq).symm) hne
    · rw [hun'.normalize]
      exact hafter

theorem key_ne (h : ToldApart u entries current) (ha : a ∈ ranked u entries)
    (hb : b ∈ ranked u entries) (hne : a ≠ b) :
    rankKey u (collect u entries).newestTs a ≠ rankKey u (collect u entries).newestTs b := by
  intro hkey
  have hcompare := (compareRank_compares (u := u) (collect u entries).newestTs a b).eq_eq.mpr hkey
  unfold compareRank at hcompare
  cases hpa : parseSemver u a with
  | some va =>
    cases hpb : parseSemver u b with
    | some vb =>
      obtain ⟨r, rfl, hr⟩ := h.exists_release ha (by rw [hpa]; rfl)
      obtain ⟨r', rfl, hr'⟩ := h.exists_release hb (by rw [hpb]; rfl)
      obtain ⟨hspec, hdiff⟩ := h.releases r' r hr' hr (Ne.symm hne)
      simp only [r.parse, r'.parse, hspec] at hcompare
      exact hdiff hcompare
    | none => simp [hpa, hpb] at hcompare
  | none =>
    cases hpb : parseSemver u b with
    | some vb => simp [hpa, hpb] at hcompare
    | none =>
      obtain ⟨⟨e, he, hun, rfl⟩, hbucket⟩ := h.exists_unversioned ha hpa
      obtain ⟨⟨e', he', hun', rfl⟩, hbucket'⟩ := h.exists_unversioned hb hpb
      simp only [hpa, hpb] at hcompare
      have heq := (SemVer.compares_text _ _).eq_eq.mp hcompare
      rw [(collected u entries).newest, (collected u entries).newest, hbucket, hbucket'] at heq
      exact h.uploads e he e' he' hun hun' hne heq.symm

theorem sorted (h : ToldApart u entries current) : (ranked u entries).Pairwise fun a b =>
    rankKey u (collect u entries).newestTs a < rankKey u (collect u entries).newestTs b := by
  have hnodup : (ranked u entries).Nodup :=
    perm_ranked.nodup_iff.mpr (collected u entries).nodup
  refine (pairwise_ranked.and hnodup).imp_of_mem fun ha hb hab => ?_
  exact lt_of_le_of_ne hab.1 (h.key_ne ha hb hab.2)

theorem deletes_iff (h : ToldApart u entries current) (hkeep : keep ≠ 0) (he : e ∈ entries) :
    Deletes u entries keep current e.slug ↔
      normalizeCloudsmithVersion u e.version ∉ (ranked u entries).take keep ∧
        normalizeCloudsmithVersion u e.version ≠ normalizeCloudsmithVersion u current := by
  rw [Deletes, mem_selectVersionsToPrune hkeep]
  constructor
  · rintro ⟨e', he', hslug, hout⟩
    rwa [h.slugs e' he' e he hslug] at hout
  · exact fun hout => ⟨e, he, rfl, hout⟩

theorem exists_releases {l : List Text} {P : Release u → Prop}
    (h : ∀ a ∈ l, ∃ r : Release u, r.text = a ∧ P r) :
    ∃ rs : List (Release u), rs.map Release.text = l ∧ ∀ r ∈ rs, P r := by
  induction l with
  | nil => exact ⟨[], rfl, by simp⟩
  | cons a l ih =>
    obtain ⟨r, rfl, hr⟩ := h a List.mem_cons_self
    obtain ⟨rs, rfl, hrs⟩ := ih fun b hb => h b (List.mem_cons_of_mem _ hb)
    exact ⟨r :: rs, rfl, List.forall_mem_cons.mpr ⟨hr, hrs⟩⟩

/-- Behind the first groups there are only releases that are older than all of these. -/
theorem exists_newer (h : ToldApart u entries current) (he : e ∈ entries)
    (hr : r.Decorates e.version)
    (hout : normalizeCloudsmithVersion u e.version ∉ (ranked u entries).take keep) :
    ∃ newer : List (Release u), (newer.map Release.text).Nodup ∧ newer.length = keep ∧
      ∀ w ∈ newer, w.text ≠ r.text ∧ w.Listed entries ∧
        Git.Spec.precedence w.version r.version = .gt := by
  have hmem : r.text ∈ ranked u entries :=
    mem_ranked.mpr ⟨e, he, h.normalize (mem_versions he) hr⟩
  rw [h.normalize (mem_versions he) hr] at hout
  have hsorted := h.sorted
  rw [← List.take_append_drop keep (ranked u entries)] at hmem hsorted
  have hdrop : r.text ∈ (ranked u entries).drop keep :=
    (List.mem_append.mp hmem).resolve_left hout
  have hlength : ((ranked u entries).take keep).length = keep := by
    have hlt := List.length_pos_of_mem hdrop
    rw [List.length_drop] at hlt
    rw [List.length_take]
    omega
  have hnewer : ∀ a ∈ (ranked u entries).take keep, ∃ w : Release u, w.text = a ∧
      w.text ≠ r.text ∧ w.Listed entries ∧ Git.Spec.precedence w.version r.version = .gt := by
    intro a ha
    have hlt := (List.pairwise_append.mp hsorted).2.2 a ha _ hdrop
    have hgt := (compareRank_compares (u := u) _ a r.text).eq_lt.mpr hlt
    rw [compareRank, r.parse] at hgt
    cases hp : parseSemver u a with
    | none => simp [hp] at hgt
    | some v =>
      obtain ⟨w, rfl, hw⟩ := h.exists_release (List.mem_of_mem_take ha) (by rw [hp]; rfl)
      have hne : w.text ≠ r.text := fun heq => hout (heq ▸ ha)
      obtain ⟨hspec, -⟩ := h.releases w r hw ⟨e, he, hr⟩ hne
      refine ⟨w, rfl, hne, hw, ?_⟩
      simp only [w.parse] at hgt
      rw [← hspec, SemVer.compare_eq_gt]
      exact SemVer.compare_eq_lt.mp hgt
  obtain ⟨newer, hmap, hall⟩ := exists_releases hnewer
  refine ⟨newer, ?_, ?_, hall⟩
  · rw [hmap]
    exact (perm_ranked.nodup_iff.mpr (collected u entries).nodup).sublist (List.take_sublist _ _)
  · rw [← hlength, ← hmap, List.length_map]

theorem perm {entries' : List VersionEntry} (h : ToldApart u entries current)
    (hperm : entries'.Perm entries) : ToldApart u entries' current := by
  have hversions : ∀ {s}, s ∈ current :: entries'.map VersionEntry.version →
      s ∈ current :: entries.map VersionEntry.version := fun hs =>
    ((hperm.map _).cons current).mem_iff.mp hs
  have hlisted : ∀ {r : Release u}, r.Listed entries' → r.Listed entries := by
    rintro r ⟨e, he, hr⟩
    exact ⟨e, hperm.mem_iff.mp he, hr⟩
  constructor
  · exact fun s hs => h.hyphen s (hversions hs)
  · exact fun s hs => h.whole s (hversions hs)
  · exact fun e he => h.known e (hperm.mem_iff.mp he)
  · exact fun r r' hr hr' => h.releases r r' (hlisted hr) (hlisted hr')
  · intro e he e' he' hun hun' hne
    rw [newest_perm (hperm.filter _), newest_perm (hperm.filter _)]
    exact h.uploads e (hperm.mem_iff.mp he) e' (hperm.mem_iff.mp he') hun hun' hne
  · exact fun e he e' he' => h.slugs e (hperm.mem_iff.mp he) e' (hperm.mem_iff.mp he')

theorem ranked_perm {entries' : List VersionEntry} (h : ToldApart u entries current)
    (hperm : entries'.Perm entries) : ranked u entries' = ranked u entries := by
  have hsorted := (h.perm hperm).sorted
  rw [newestTs_perm hperm] at hsorted
  have hirrefl : Std.Irrefl fun a b => rankKey u (collect u entries).newestTs a <
      rankKey u (collect u entries).newestTs b := ⟨fun a => lt_irrefl _⟩
  have hasymm : Std.Antisymm fun a b => rankKey u (collect u entries).newestTs a <
      rankKey u (collect u entries).newestTs b := ⟨fun a b hab hba => absurd hab hba.asymm⟩
  refine List.Pairwise.eq_of_mem_iff hsorted h.sorted fun a => ?_
  simp only [mem_ranked, hperm.mem_iff]

end ToldApart

/-- Where no two groups tie and every spelling is cut down to its release, the newest releases
stay. -/
theorem keepsNewest (h : ToldApart u entries current) (hkeep : keep ≠ 0) :
    KeepsNewest u entries keep current := by
  constructor
  · intro slug hslug
    obtain ⟨e, he, heq, -⟩ := (mem_selectVersionsToPrune hkeep).mp hslug
    exact ⟨e, he, heq⟩
  · intro r hr e he hre hdel
    refine ((h.deletes_iff hkeep he).mp hdel).2 ?_
    rw [h.normalize (ToldApart.mem_versions he) hre, h.normalize List.mem_cons_self hr]
  · intro r e he e' he' hre hre'
    rw [h.deletes_iff hkeep he, h.deletes_iff hkeep he',
      h.normalize (ToldApart.mem_versions he) hre, h.normalize (ToldApart.mem_versions he') hre']
  · intro r r' hne e he e' he' hre hre'
    rwa [h.normalize (ToldApart.mem_versions he) hre,
      h.normalize (ToldApart.mem_versions he') hre']
  · intro r e he hre hdel
    obtain ⟨newer, hnodup, hlength, hall⟩ :=
      h.exists_newer he hre ((h.deletes_iff hkeep he).mp hdel).1
    refine ⟨newer, hnodup, hlength.ge, fun w hw => ?_⟩
    obtain ⟨hne, hlisted, hgt⟩ := hall w hw
    exact ⟨hne, hlisted, by rw [hgt]; decide⟩
  · intro r e he hre hfew hdel
    obtain ⟨newer, hnodup, hlength, hall⟩ :=
      h.exists_newer he hre ((h.deletes_iff hkeep he).mp hdel).1
    exact (hfew newer hnodup fun w hw => (hall w hw).2).ne hlength
  · intro entries' hperm slug
    rw [Deletes, Deletes, mem_selectVersionsToPrune hkeep, mem_selectVersionsToPrune hkeep,
      h.ranked_perm hperm]
    simp only [hperm.mem_iff]

/-- Two files of a release and an older one. -/
def threeEntries : List VersionEntry :=
  [⟨"deb".toList, "1:1.0.0".toList, []⟩, ⟨"tgz".toList, "1.0.0".toList, []⟩,
    ⟨"old".toList, "0.9.0".toList, []⟩]

def newRelease : Release .ascii :=
  ⟨"1.0.0".toList, ⟨1, 0, 0, none, none⟩, by decide +kernel, by simp⟩

def oldRelease : Release .ascii :=
  ⟨"0.9.0".toList, ⟨0, 9, 0, none, none⟩, by decide +kernel, by simp⟩

theorem threeEntries_decorates : ∀ e ∈ threeEntries,
    Spells newRelease.text e.version ∨ Spells oldRelease.text e.version := by
  intro e he
  simp only [threeEntries, List.mem_cons, List.not_mem_nil, or_false] at he
  rcases he with rfl | rfl | rfl
  · exact .inl (Spells.epoch (n := ['1']) ⟨by simp, by simp⟩)
  · exact .inl .bare
  · exact .inr .bare

theorem threeEntries_toldApart : ToldApart .ascii threeEntries "1.0.0".toList := by
  have hplain : ∀ s ∈ "1.0.0".toList :: threeEntries.map VersionEntry.version,
      '~' ∉ s ∧ '-' ∉ s := by decide +kernel
  have hhyphen : ∀ s ∈ "1.0.0".toList :: threeEntries.map VersionEntry.version,
      ∀ r : Release .ascii, r.Decorates s → Spells r.text s := by
    rintro s hs r (hr | ⟨-, hr⟩)
    · exact hr
    · exact absurd (hr.subset (by simp [tilde])) (hplain s hs).1
  have hwhole : ∀ s ∈ "1.0.0".toList :: threeEntries.map VersionEntry.version,
      ∀ r : Release .ascii, r.Decorates s → ¬ EndsInRevision .ascii r.text := by
    rintro s hs r hr ⟨head, tail, heq, -⟩
    exact (hplain s hs).2 ((hhyphen s hs r hr).subset (by simp [heq]))
  have hknown : ∀ e ∈ threeEntries, ∃ r : Release .ascii, r.Decorates e.version := fun e he =>
    (threeEntries_decorates e he).elim (fun h => ⟨_, .inl h⟩) fun h => ⟨_, .inl h⟩
  have hlisted : ∀ r : Release .ascii, r.Listed threeEntries →
      r.version = newRelease.version ∧ r.text = newRelease.text ∨
        r.version = oldRelease.version ∧ r.text = oldRelease.text := by
    rintro r ⟨e, he, hr⟩
    have hmem : e.version ∈ "1.0.0".toList :: threeEntries.map VersionEntry.version :=
      ToldApart.mem_versions he
    have hnorm := (hhyphen _ hmem r hr).normalize (by rw [r.parse]; rfl) (hwhole _ hmem r hr)
    have hall : ∀ e ∈ threeEntries, normalizeCloudsmithVersion .ascii e.version = newRelease.text ∨
        normalizeCloudsmithVersion .ascii e.version = oldRelease.text := by decide +kernel
    have hversion : ∀ r' : Release .ascii, r.text = r'.text → r.version = r'.version :=
      fun r' heq => Option.some.inj (r.parse.symm.trans (heq ▸ r'.parse))
    rcases hall e he with h | h
    · have heq := hnorm.symm.trans h
      exact .inl ⟨hversion _ heq, heq⟩
    · have heq := hnorm.symm.trans h
      exact .inr ⟨hversion _ heq, heq⟩
  refine ⟨hhyphen, hwhole, fun e he => .inl (hknown e he), ?_, ?_, by decide +kernel⟩
  · intro r r' hr hr' hne
    rcases hlisted r hr with ⟨hv, ht⟩ | ⟨hv, ht⟩ <;>
      rcases hlisted r' hr' with ⟨hv', ht'⟩ | ⟨hv', ht'⟩
    · exact absurd (ht.trans ht'.symm) hne
    · rw [hv, hv']
      decide +kernel
    · rw [hv, hv']
      decide +kernel
    · exact absurd (ht.trans ht'.symm) hne
  · intro e he e' he' hun
    obtain ⟨r, hr⟩ := hknown e he
    have hnone := hun r.text (.inl (hhyphen _ (ToldApart.mem_versions he) r hr))
    rw [r.parse] at hnone
    cases hnone

theorem keepsNewest_three : KeepsNewest .ascii threeEntries 1 "1.0.0".toList :=
  keepsNewest threeEntries_toldApart (by decide)

/-- The deb of a prerelease is deleted right after its upload. -/
theorem not_keepsNewest :
    ¬ ∀ (u : CharTables) (entries : List VersionEntry) (keep : ℕ) (current : Text), keep ≠ 0 →
      current ≠ [] → KeepsNewest u entries keep current := by
  intro h
  let r : Release .ascii :=
    ⟨"1.0.0-rc.1".toList, ⟨1, 0, 0, some "rc.1".toList, none⟩, by decide +kernel,
      by decide +kernel⟩
  let deb : VersionEntry := ⟨"deb".toList, "1.0.0~rc.1-1".toList, []⟩
  let entries := [deb, ⟨"tgz".toList, r.text, []⟩, ⟨"old".toList, "0.9.0".toList, []⟩]
  have hdeb : r.Decorates deb.version :=
    .inr ⟨rfl, Spells.revision (m := ['1']) ⟨by simp, by simp⟩⟩
  refine (h .ascii entries 2 r.text (by decide) (by decide)).spared r (.inl .bare) deb
    List.mem_cons_self hdeb ?_
  decide +kernel

end Anodizer.Cloudsmith
