import Anodizer.Artifact.Manifest

/-! # The order of additions

The manifest does not depend on the order in which the artifacts are added,
unless it lists two of them in the same place or merges two that differ.
-/

namespace Anodizer.ArtifactRegistry

open Template (Text)
open PublishOnly (ArtifactKind components normalizePathSeparators)
open StableSort Collapse

variable {cwd : Option Text} {l l' : List Artifact} {a b : Artifact}
  {k : ArtifactKind × List Text}

/-! ### Merged sidecars -/

namespace Metadata

theorem nodup_keys (m : Metadata) : (Json.keys m.entries).Nodup := m.sorted.imp fun h => ne_of_lt h

/-- A map is known from its entries in any order. -/
theorem eq_of_perm {m m' : Metadata} (h : m.entries.Perm m'.entries) : m = m' := by
  ext1
  refine h.eq_of_pairwise (fun a b _ _ hab hba => ?_) (List.pairwise_map.mp m.sorted)
    (List.pairwise_map.mp m'.sorted)
  exact absurd hab (lt_asymm hba)

theorem insert_of_mem {m : Metadata} {e : String × String} (h : e ∈ m.entries) :
    m.insert e.1 e.2 = m := by
  have hfilter : (m.filter (· ≠ e.1)).entries = m.entries.erase e := by
    rw [m.nodup_keys.of_map.erase_eq_filter]
    refine List.filter_congr fun x hx => ?_
    rw [Bool.eq_iff_iff, decide_eq_true_eq, bne_iff_ne, not_iff_not]
    exact ⟨fun hkey => List.inj_on_of_nodup_map m.nodup_keys hx h hkey, fun hxe => by rw [hxe]⟩
  have hinsert : (m.insert e.1 e.2).entries.Perm (e :: m.entries.erase e) :=
    hfilter ▸ Json.insert_perm e.1 e.2 _
  exact eq_of_perm (hinsert.trans (List.perm_cons_erase h).symm)

theorem filter_filter (m : Metadata) (p : String → Bool) : (m.filter p).filter p = m.filter p := by
  ext1
  simp [filter, List.filter_filter]

/-- A map that is extended by itself is the same map. -/
theorem extend_self (m : Metadata) : m.extend m = m := by
  have hall : ∀ l : List (String × String), l ⊆ m.entries →
      l.foldl (fun m e => m.insert e.1 e.2) m = m := by
    intro l
    induction l with
    | nil => exact fun _ => rfl
    | cons e l ih =>
      intro h
      rw [List.foldl_cons, insert_of_mem (h List.mem_cons_self)]
      exact ih fun x hx => h (List.mem_cons_of_mem _ hx)
  exact hall m.entries (List.Subset.refl _)

end Metadata

/-- A merged sidecar keeps everything but its metadata and its size from the first one. -/
theorem foldl_absorb (as : List Artifact) (a : Artifact) : as.foldl absorb a =
    { a with
      metadata := as.foldl (fun m b => m.extend b.metadata) a.metadata
      size := a.size.or (as.findSome? (·.size)) } := by
  induction as generalizing a with
  | nil => simp
  | cons b as ih =>
    rw [List.foldl_cons, ih, List.findSome?_cons]
    cases ha : a.size <;> cases hb : b.size <;> simp [absorb, ha, hb]

/-- What two additions of one sidecar have to share. -/
structure SameEntry (a b : Artifact) : Prop where
  path : a.path = b.path
  name : a.name = b.name
  target : a.target = b.target
  crateName : a.crateName = b.crateName
  size : ∀ n ∈ a.size, ∀ m ∈ b.size, n = m

/-- Sidecars that carry the same metadata only add a size to the first one. -/
theorem foldl_absorb_of_metadata {as : List Artifact} (h : ∀ b ∈ as, b.metadata = a.metadata) :
    as.foldl absorb a = { a with size := (a :: as).findSome? (·.size) } := by
  have hmetadata : as.foldl (fun m b => m.extend b.metadata) a.metadata = a.metadata := by
    induction as with
    | nil => rfl
    | cons b as ih =>
      rw [List.foldl_cons, h b List.mem_cons_self, Metadata.extend_self]
      exact ih fun b hb => h b (List.mem_cons_of_mem _ hb)
  rw [foldl_absorb, hmetadata, List.findSome?_cons]
  cases a.size <;> rfl

/-- Values that agree wherever they are known are found in any order. -/
theorem findSome?_perm {α β : Type*} {l l' : List α} {f : α → Option β}
    (hagree : ∀ a ∈ l, ∀ b ∈ l, ∀ n ∈ f a, ∀ m ∈ f b, n = m) (h : l.Perm l') :
    l.findSome? f = l'.findSome? f := by
  cases hl : l.findSome? f with
  | none =>
    rw [List.findSome?_eq_none_iff] at hl
    exact (List.findSome?_eq_none_iff.mpr fun a ha => hl a (h.mem_iff.mpr ha)).symm
  | some n =>
    obtain ⟨a, ha, hn⟩ := List.exists_of_findSome?_eq_some hl
    cases hl' : l'.findSome? f with
    | none =>
      rw [List.findSome?_eq_none_iff] at hl'
      rw [hl' a (h.mem_iff.mp ha)] at hn
      cases hn
    | some m =>
      obtain ⟨b, hb, hm⟩ := List.exists_of_findSome?_eq_some hl'
      rw [hagree a ha b (h.mem_iff.mpr hb) n hn m hm]

theorem mergeAll_absorb_perm (hkind : ∀ a ∈ l, ∀ b ∈ l, a.kind = b.kind)
    (hsame : ∀ a ∈ l, ∀ b ∈ l, SameEntry a b)
    (hmetadata : ∀ a ∈ l, ∀ b ∈ l, a.metadata = b.metadata) (h : l.Perm l') :
    mergeAll absorb l = mergeAll absorb l' := by
  cases l with
  | nil => rw [List.nil_perm.mp h]
  | cons a as =>
    cases l' with
    | nil => cases List.perm_nil.mp h
    | cons b bs =>
      have ha : a ∈ a :: as := List.mem_cons_self
      have hmem : ∀ c ∈ b :: bs, c ∈ a :: as := fun c => h.mem_iff.mpr
      have hb : b ∈ a :: as := hmem b List.mem_cons_self
      have hsize : (a :: as).findSome? (·.size) = (b :: bs).findSome? (·.size) :=
        findSome?_perm (fun c hc d hd => (hsame c hc d hd).size) h
      rw [mergeAll, mergeAll,
        foldl_absorb_of_metadata fun c hc => hmetadata c (List.mem_cons_of_mem _ hc) a ha,
        foldl_absorb_of_metadata fun c hc => hmetadata c (hmem c (List.mem_cons_of_mem _ hc)) b hb,
        hsize, Option.some.injEq, Artifact.mk.injEq]
      obtain ⟨hpath, hname, htarget, hcrate, -⟩ := hsame a ha b hb
      exact ⟨hkind a ha b hb, hpath, hname, htarget, hcrate, hmetadata a ha b hb, rfl⟩

/-! ### What is stored -/

theorem normalize_idem (p : Text) :
    normalizePathSeparators (normalizePathSeparators p) = normalizePathSeparators p := by
  rw [normalizePathSeparators, normalizePathSeparators, List.map_map]
  refine List.map_congr_left fun c _ => ?_
  simp only [Function.comp_apply]
  split <;> simp [*]

theorem normalize_stored (h : a ∈ addAll cwd l) : normalizePathSeparators a.path = a.path := by
  have hall : ∀ a ∈ collapse sidecarKey absorb (l.map (canonical cwd)),
      normalizePathSeparators a.path = a.path := by
    refine forall_mem_collapse (fun a ha => ?_) fun a b hb _ => hb
    obtain ⟨a, -, rfl⟩ := List.mem_map.mp ha
    exact normalize_idem _
  exact hall a (addAll_eq ▸ h)

theorem sortKey_published (h : a ∈ addAll cwd l) : sortKey (published a) = sortKey a := by
  rw [published, normalize_stored h]
  rfl

theorem sidecarKey_published (h : a ∈ addAll cwd l) : sidecarKey (published a) = sidecarKey a := by
  rw [published, normalize_stored h]
  rfl

/-- Artifacts in one place have one kind and one path. -/
theorem eq_of_sortKey_eq (h : sortKey a = sortKey b) :
    a.kind = b.kind ∧ components a.path = components b.path := by
  have hinj : Function.Injective componentKey := fun c d h => (Prod.mk.inj (toLex_inj.mp h)).2
  simp only [sortKey, toLex_inj, Prod.mk.injEq] at h
  obtain ⟨hkind, -, -, -, hpath⟩ := h
  have hparse := congrArg (fun t => ArtifactKind.parse (String.ofList t)) hkind
  rw [ArtifactKind.parse_asStr, ArtifactKind.parse_asStr] at hparse
  exact ⟨Option.some.inj hparse, hinj.list_map hpath⟩

theorem sidecarKey_eq_of_sortKey_eq (h : sortKey a = sortKey b) : sidecarKey a = sidecarKey b := by
  obtain ⟨hkind, hpath⟩ := eq_of_sortKey_eq h
  rw [sidecarKey, sidecarKey, hkind, hpath]

/-! ### The order of additions -/

/-- The sidecars that are added again carry the same metadata. -/
def SidecarsAgree (cwd : Option Text) (l : List Artifact) : Prop :=
  ∀ a ∈ l, ∀ b ∈ l, sidecarKey (canonical cwd a) ≠ none →
    sidecarKey (canonical cwd a) = sidecarKey (canonical cwd b) → a.metadata = b.metadata

/-- Every order of the additions gives one manifest. -/
def OrderFree (cwd : Option Text) (l : List Artifact) : Prop :=
  ∀ l' : List Artifact, l.Perm l' →
    toArtifactsJson (addAll cwd l') = toArtifactsJson (addAll cwd l)

/-- Artifacts in one place are told apart by nothing that the manifest keeps, and sidecars that are
merged by nothing but their metadata and a size that is not known. -/
structure Uniform (cwd : Option Text) (l : List Artifact) : Prop where
  primaries : ∀ a ∈ l, ∀ b ∈ l, sidecarKey (canonical cwd a) = none →
    sortKey (canonical cwd a) = sortKey (canonical cwd b) →
      published (canonical cwd a) = published (canonical cwd b)
  sidecars : ∀ a ∈ l, ∀ b ∈ l, sidecarKey (canonical cwd a) ≠ none →
    sidecarKey (canonical cwd a) = sidecarKey (canonical cwd b) →
      SameEntry (canonical cwd a) (canonical cwd b)

/-- What a manifest lists. -/
def listed (cwd : Option Text) (l : List Artifact) : List Artifact :=
  (sortBy sortKey (addAll cwd l)).map published

theorem toJson_published (a : Artifact) : (published a).toJson = a.toJson := by
  have hmetadata : (published a).metadata.toJson = a.metadata.toJson := by
    rw [Metadata.toJson, published, Metadata.filter_filter]
    rfl
  rw [Artifact.toJson, Artifact.toJson, hmetadata]
  simp only [published, normalize_idem]

/-- A manifest tells what it lists, and no more. -/
theorem toArtifactsJson_eq_iff :
    toArtifactsJson (addAll cwd l) = toArtifactsJson (addAll cwd l') ↔
      listed cwd l = listed cwd l' := by
  constructor
  · intro h
    have hread := congrArg fromArtifactsJson h
    rw [fromArtifactsJson_toArtifactsJson, fromArtifactsJson_toArtifactsJson] at hread
    exact Option.some.inj hread
  · intro h
    have hwrite : ∀ r : List Artifact, toArtifactsJson r =
        .arr (((sortBy sortKey r).map published).map Artifact.toJson) := by
      intro r
      rw [toArtifactsJson, List.map_map]
      exact congrArg Json.arr (List.map_congr_left fun a _ => (toJson_published a).symm)
    rw [hwrite, hwrite]
    exact congrArg (fun l => Json.arr (l.map Artifact.toJson)) h

/-- Uniform additions that are reordered store the same artifacts, in another order. -/
theorem addAll_perm (hagree : SidecarsAgree cwd l) (huniform : Uniform cwd l) (h : l.Perm l') :
    (addAll cwd l).Perm (addAll cwd l') := by
  have hmap : (l.map (canonical cwd)).Perm (l'.map (canonical cwd)) := h.map _
  refine @perm_of_filter _ _ _ _ _ _ sidecarKey fun k => ?_
  cases k with
  | none =>
    rw [filter_addAll_primary, filter_addAll_primary]
    exact hmap.filter _
  | some k =>
    rw [filter_addAll_sidecar, filter_addAll_sidecar]
    have hmem : ∀ c ∈ (l.map (canonical cwd)).filter (sidecarKey · = some k),
        ∃ a ∈ l, canonical cwd a = c ∧ sidecarKey c = some k := by
      intro c hc
      rw [List.mem_filter, decide_eq_true_eq] at hc
      obtain ⟨a, ha, rfl⟩ := List.mem_map.mp hc.1
      exact ⟨a, ha, rfl, hc.2⟩
    have hsame : mergeAll absorb ((l.map (canonical cwd)).filter (sidecarKey · = some k)) =
        mergeAll absorb ((l'.map (canonical cwd)).filter (sidecarKey · = some k)) := by
      refine mergeAll_absorb_perm ?_ ?_ ?_ (hmap.filter _)
      · intro c hc d hd
        obtain ⟨-, -, -, hck⟩ := hmem c hc
        obtain ⟨-, -, -, hdk⟩ := hmem d hd
        exact (sidecarKey_eq_some.mp hck).2.1.trans (sidecarKey_eq_some.mp hdk).2.1.symm
      · intro c hc d hd
        obtain ⟨a, ha, rfl, hck⟩ := hmem c hc
        obtain ⟨b, hb, rfl, hdk⟩ := hmem d hd
        exact huniform.sidecars a ha b hb (by simp [hck]) (hck.trans hdk.symm)
      · intro c hc d hd
        obtain ⟨a, ha, rfl, hck⟩ := hmem c hc
        obtain ⟨b, hb, rfl, hdk⟩ := hmem d hd
        exact hagree a ha b hb (by simp [hck]) (hck.trans hdk.symm)
    rw [hsame]

/-- What is stored in one place is published alike. -/
theorem published_eq_of_sortKey (huniform : Uniform cwd l) (ha : a ∈ addAll cwd l)
    (hb : b ∈ addAll cwd l) (h : sortKey a = sortKey b) : published a = published b := by
  have hkey := sidecarKey_eq_of_sortKey_eq h
  cases hk : sidecarKey a with
  | none =>
    have hprimary : ∀ c ∈ addAll cwd l, sidecarKey c = none → ∃ c' ∈ l, canonical cwd c' = c := by
      intro c hc hck
      have hc' : c ∈ (addAll cwd l).filter (sidecarKey · = none) :=
        List.mem_filter.mpr ⟨hc, decide_eq_true hck⟩
      rw [filter_addAll_primary] at hc'
      exact List.mem_map.mp (List.mem_of_mem_filter hc')
    obtain ⟨a, hal, rfl⟩ := hprimary a ha hk
    obtain ⟨b, hbl, rfl⟩ := hprimary b hb (hkey ▸ hk)
    exact huniform.primaries a hal b hbl hk h
  | some k =>
    have hone : ∀ c ∈ addAll cwd l, sidecarKey c = some k → c ∈
        mergeAll absorb ((l.map (canonical cwd)).filter (sidecarKey · = some k)) := by
      intro c hc hck
      have hc' : c ∈ (addAll cwd l).filter (sidecarKey · = some k) :=
        List.mem_filter.mpr ⟨hc, decide_eq_true hck⟩
      rwa [filter_addAll_sidecar, Option.mem_toList] at hc'
    rw [Option.mem_unique (hone a ha hk) (hone b hb (hkey ▸ hk))]

theorem pairwise_listed (cwd : Option Text) (l : List Artifact) :
    (listed cwd l).Pairwise fun p q => sortKey p ≤ sortKey q := by
  rw [listed, List.pairwise_map]
  refine (pairwise_sortBy sortKey (addAll cwd l)).imp_of_mem fun ha hb hle => ?_
  rw [sortKey_published ((perm_sortBy _ _).mem_iff.mp ha),
    sortKey_published ((perm_sortBy _ _).mem_iff.mp hb)]
  exact hle

theorem orderFree_of_uniform (hagree : SidecarsAgree cwd l) (huniform : Uniform cwd l) :
    OrderFree cwd l := by
  intro l' h
  have hperm := addAll_perm hagree huniform h
  rw [toArtifactsJson_eq_iff]
  have hmem : ∀ {l' : List Artifact} {p : Artifact}, (addAll cwd l').Perm (addAll cwd l) →
      p ∈ listed cwd l' → ∃ a ∈ addAll cwd l, published a = p := by
    intro l' p hperm hp
    obtain ⟨a, ha, hap⟩ := List.mem_map.mp hp
    exact ⟨a, hperm.mem_iff.mp ((perm_sortBy _ _).mem_iff.mp ha), hap⟩
  have hlisted : (listed cwd l').Perm (listed cwd l) :=
    (((perm_sortBy _ _).trans hperm.symm).trans (perm_sortBy _ _).symm).map _
  refine hlisted.eq_of_pairwise (fun p q hp hq hle hge => ?_) (pairwise_listed cwd l')
    (pairwise_listed cwd l)
  obtain ⟨a, ha, rfl⟩ := hmem hperm.symm hp
  obtain ⟨b, hb, rfl⟩ := hmem (.refl _) hq
  rw [sortKey_published ha, sortKey_published hb] at hle hge
  exact published_eq_of_sortKey huniform ha hb (le_antisymm hle hge)

/-- Two artifacts of the additions that go first in turn. -/
theorem listed_cons_erase (h : OrderFree cwd l) (ha : a ∈ l) (hb : b ∈ l) :
    listed cwd (a :: l.erase a) = listed cwd (b :: l.erase b) := by
  have hfirst : ∀ c ∈ l, listed cwd (c :: l.erase c) = listed cwd l := fun c hc =>
    toArtifactsJson_eq_iff.mp (h _ (List.perm_cons_erase hc))
  rw [hfirst a ha, hfirst b hb]

theorem filter_listed {q : Artifact → Bool} (hq : ∀ a ∈ addAll cwd l, q (published a) = q a) :
    (listed cwd l).filter q = ((sortBy sortKey (addAll cwd l)).filter q).map published := by
  rw [listed, List.filter_map]
  refine congrArg _ (List.filter_congr fun a ha => ?_)
  exact hq a ((perm_sortBy _ _).mem_iff.mp ha)

/-- Artifacts of other kinds are listed in their place as they were added. -/
theorem filter_listed_primary (ha : sidecarKey a = none) :
    (listed cwd l).filter (sortKey · = sortKey a) =
      ((l.map (canonical cwd)).filter (sortKey · = sortKey a)).map published := by
  have hprimary : ∀ l : List Artifact, l.filter (sortKey · = sortKey a) =
      (l.filter (sidecarKey · = none)).filter (sortKey · = sortKey a) := by
    intro l
    rw [List.filter_filter]
    refine List.filter_congr fun b _ => ?_
    rw [Bool.eq_iff_iff, Bool.and_eq_true, decide_eq_true_eq, decide_eq_true_eq]
    exact ⟨fun h => ⟨h, (sidecarKey_eq_of_sortKey_eq h).trans ha⟩, fun h => h.1⟩
  rw [filter_listed fun b hb => by rw [sortKey_published hb], filter_sortBy, hprimary,
    filter_addAll_primary, ← hprimary]

/-- A sidecar is listed as it was merged. -/
theorem filter_listed_sidecar (k : ArtifactKind × List Text) :
    (listed cwd l).filter (sidecarKey · = some k) = ((mergeAll absorb
      ((l.map (canonical cwd)).filter (sidecarKey · = some k))).map published).toList := by
  have hperm := (perm_sortBy sortKey (addAll cwd l)).filter (sidecarKey · = some k)
  rw [filter_addAll_sidecar] at hperm
  rw [filter_listed fun b hb => by rw [sidecarKey_published hb]]
  cases hmerge : mergeAll absorb ((l.map (canonical cwd)).filter (sidecarKey · = some k)) with
  | none =>
    rw [hmerge] at hperm
    rw [hperm.eq_nil]
    rfl
  | some c =>
    rw [hmerge] at hperm
    rw [hperm.eq_singleton]
    rfl

theorem uniform_of_orderFree (h : OrderFree cwd l) : Uniform cwd l where
  primaries a ha b hb hprimary hsort := by
    have hlisted := congrArg (List.filter (sortKey · = sortKey (canonical cwd a)))
      (listed_cons_erase h ha hb)
    rw [filter_listed_primary hprimary, filter_listed_primary hprimary, List.map_cons,
      List.map_cons, List.filter_cons_of_pos (by simp), List.filter_cons_of_pos (by simp [hsort]),
      List.map_cons, List.map_cons] at hlisted
    exact (List.cons.inj hlisted).1
  sidecars a ha b hb hside hkey := by
    obtain ⟨k, hk⟩ := Option.ne_none_iff_exists'.mp hside
    have hlisted := congrArg (List.filter (sidecarKey · = some k)) (listed_cons_erase h ha hb)
    rw [filter_listed_sidecar, filter_listed_sidecar, List.map_cons, List.map_cons,
      List.filter_cons_of_pos (by simp [hk]), List.filter_cons_of_pos (by simp [← hkey, hk]),
      mergeAll, mergeAll, Option.map_some, Option.map_some, Option.toList_some, Option.toList_some,
      foldl_absorb, foldl_absorb] at hlisted
    have hpublished := (List.cons.inj hlisted).1
    simp only [published, Artifact.mk.injEq] at hpublished
    obtain ⟨-, hpath, hname, htarget, hcrate, -, hsize⟩ := hpublished
    have hnormal : ∀ c : Artifact, normalizePathSeparators (canonical cwd c).path =
        (canonical cwd c).path := fun c => normalize_idem _
    rw [hnormal, hnormal] at hpath
    refine ⟨hpath, hname, htarget, hcrate, fun n hn m hm => ?_⟩
    rw [Option.mem_def] at hn hm
    rw [hn, hm] at hsize
    exact Option.some.inj hsize

/-- The manifest does not depend on the order of the additions exactly if they are uniform. -/
theorem orderFree_iff (hagree : SidecarsAgree cwd l) : OrderFree cwd l ↔ Uniform cwd l :=
  ⟨uniform_of_orderFree, orderFree_of_uniform hagree⟩

end Anodizer.ArtifactRegistry
