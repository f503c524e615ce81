import Anodizer.Artifact.Order
import Mathlib.Algebra.Order.BigOperators.Group.List

/-! # The manifest that is read back

A registry is the same after its manifest is read back, unless an artifact gets
another path or another name when it is added again.
-/

namespace Anodizer.ArtifactRegistry

open Template (Text)
open PublishOnly (ArtifactKind components isAbsolute normalizePathSeparators)
open StableSort Collapse

variable {cwd : Option Text} {l : List Artifact} {a : Artifact} {base path : Text}
  {kind : ArtifactKind} {parts : List Text}

/-! ### Paths that are added again -/

/-- The length of parts with a separator behind each. -/
def width (parts : List Text) : ℕ := (parts.map fun part => part.length + 1).sum

theorem length_intercalate (parts : List Text) :
    (['/'].intercalate parts).length = width parts - 1 := by
  induction parts with
  | nil => rfl
  | cons part parts ih =>
    cases parts with
    | nil => simp [width]
    | cons next parts =>
      rw [List.intercalate_cons_cons, List.length_append, List.length_append, ih]
      simp only [width, List.map_cons, List.sum_cons, List.length_singleton]
      omega

theorem width_le_of_sublist {parts' : List Text} (h : parts'.Sublist parts) :
    width parts' ≤ width parts :=
  (h.map _).sum_le_sum fun _ _ => Nat.zero_le _

theorem dropComponents_sublist (n : ℕ) (parts : List Text) :
    (dropComponents n parts).Sublist parts := by
  fun_induction dropComponents n parts with
  | case1 parts => exact .refl _
  | case2 => exact .refl _
  | case3 n part parts h ih => exact ih.cons _
  | case4 n part parts h ih => exact ih.cons _

theorem width_dropComponents_lt (n : ℕ) (h : parts ≠ []) :
    width (dropComponents (n + 1) parts) < width parts := by
  obtain ⟨part, rest, rfl⟩ := List.exists_cons_of_ne_nil h
  have hrest : width (dropComponents (n + 1) (part :: rest)) ≤ width rest := by
    rw [dropComponents]
    split <;> exact width_le_of_sublist (dropComponents_sublist _ _)
  calc width (dropComponents (n + 1) (part :: rest))
      _ ≤ width rest := hrest
      _ < width (part :: rest) := by simp [width]

/-- What is left of a path below a directory is shorter than the path. -/
theorem stripPrefix_of_prefix (h : components base <+: components path)
    (hbase : 1 < (components base).length) (hpath : path ≠ []) :
    ∃ rest, stripPrefix base path = some rest ∧ rest.length < path.length := by
  rw [stripPrefix, if_pos (List.isPrefixOf_iff_prefix.mpr h)]
  refine ⟨_, rfl, ?_⟩
  obtain ⟨n, hn⟩ : ∃ n, (components base).length - 1 = n + 1 :=
    ⟨(components base).length - 2, by omega⟩
  have hpos : 0 < path.length := List.length_pos_iff.mpr hpath
  have hlength : path.length = width (path.splitOn '/') - 1 := by
    rw [← length_intercalate, List.intercalate_splitOn]
  have hdrop := width_dropComponents_lt n (List.splitOn_ne_nil '/' path)
  rw [length_intercalate, hn]
  generalize dropComponents (n + 1) (path.splitOn '/') = rest at hdrop ⊢
  have hwidth : width ((rest.dropWhile (!isComponent ·)).rdropWhile (!isComponent ·)) ≤
      width rest :=
    width_le_of_sublist ((List.rdropWhile_prefix _ _).sublist.trans
      (List.dropWhile_suffix _).sublist)
  refine lt_of_le_of_lt (Nat.sub_le_sub_right hwidth 1) ?_
  omega

/-- An absolute path below the working directory, which is not stored as it is. -/
def Below (cwd : Option Text) (path : Text) (kind : ArtifactKind) : Prop :=
  ∃ base ∈ cwd, kind.isImageReference = false ∧ isAbsolute path ∧
    1 < (components base).length ∧ components base <+: components path

theorem length_resolveStoredPath (h : Below cwd path kind) :
    (resolveStoredPath cwd path kind).length < path.length := by
  obtain ⟨base, rfl, himage, habs, hbase, hprefix⟩ := h
  have hpath : path ≠ [] := fun hnil => by simp [hnil, isAbsolute] at habs
  obtain ⟨rest, hrest, hlt⟩ := stripPrefix_of_prefix hprefix hbase hpath
  simpa [resolveStoredPath, himage, habs, hbase, hrest, normalizePathSeparators] using hlt

theorem resolveStoredPath_of_not_below (h : ¬ Below cwd path kind) :
    resolveStoredPath cwd path kind = normalizePathSeparators path := by
  cases cwd with
  | none => rfl
  | some base =>
    rw [resolveStoredPath]
    split
    · next hcond =>
      simp only [Bool.and_eq_true, Bool.not_eq_true', decide_eq_true_eq] at hcond
      have hprefix : ¬ components base <+: components path := fun hprefix =>
        h ⟨base, rfl, hcond.1.1, hcond.1.2, hcond.2, hprefix⟩
      rw [stripPrefix, if_neg (mt List.isPrefixOf_iff_prefix.mp hprefix)]
      rfl
    · rfl

/-- An artifact that is stored as it is when it is added again. -/
structure Settled (cwd : Option Text) (a : Artifact) : Prop where
  path : ¬ Below cwd a.path a.kind
  name : a.name = [] → derivedName a.path = []

theorem canonical_eq_self_iff (h : normalizePathSeparators a.path = a.path) :
    canonical cwd a = a ↔ Settled cwd a := by
  constructor
  · intro hself
    have hpath : resolveStoredPath cwd a.path a.kind = a.path := congrArg Artifact.path hself
    have hname : (if a.name = [] then derivedName a.path else a.name) = a.name :=
      congrArg Artifact.name hself
    refine ⟨fun hbelow => ?_, fun hnil => ?_⟩
    · exact absurd (congrArg List.length hpath) (length_resolveStoredPath hbelow).ne
    · rwa [if_pos hnil, hnil] at hname
  · intro hsettled
    have hname : (if a.name = [] then derivedName a.path else a.name) = a.name := by
      split
      · next hnil => rw [hsettled.name hnil, hnil]
      · rfl
    rw [canonical, resolveStoredPath_of_not_below hsettled.path, h, hname]

/-! ### Adding what was read -/

/-- The artifacts of the manifest, added to an empty registry, have the same manifest. -/
def Reloads (cwd : Option Text) (l : List Artifact) : Prop :=
  ∃ r, fromArtifactsJson (toArtifactsJson (addAll cwd l)) = some r ∧
    toArtifactsJson (addAll cwd r) = toArtifactsJson (addAll cwd l)

theorem reloads_iff_listed : Reloads cwd l ↔ listed cwd (listed cwd l) = listed cwd l := by
  have hread : fromArtifactsJson (toArtifactsJson (addAll cwd l)) = some (listed cwd l) :=
    fromArtifactsJson_toArtifactsJson _
  constructor
  · rintro ⟨r, hr, hdoc⟩
    rw [← Option.some.inj (hread.symm.trans hr)] at hdoc
    exact toArtifactsJson_eq_iff.mp hdoc
  · exact fun h => ⟨_, hread, toArtifactsJson_eq_iff.mpr h⟩

theorem exists_of_mem_listed (h : a ∈ listed cwd l) : ∃ b ∈ addAll cwd l, published b = a := by
  obtain ⟨b, hb, rfl⟩ := List.mem_map.mp h
  exact ⟨b, (perm_sortBy _ _).mem_iff.mp hb, rfl⟩

theorem normalize_listed (h : a ∈ listed cwd l) : normalizePathSeparators a.path = a.path := by
  obtain ⟨b, -, rfl⟩ := exists_of_mem_listed h
  exact normalize_idem _

theorem published_idem (a : Artifact) : published (published a) = published a := by
  rw [published, published, normalize_idem, Metadata.filter_filter]

theorem listed_of_canonical (h : ∀ a ∈ listed cwd l, canonical cwd a = a) :
    listed cwd (listed cwd l) = listed cwd l := by
  have hmap : (listed cwd l).map (canonical cwd) = listed cwd l :=
    (List.map_congr_left h).trans (List.map_id' _)
  have hadd : addAll cwd (listed cwd l) = listed cwd l := by
    rw [addAll_eq, hmap]
    refine collapse_eq_self fun k => ?_
    rw [filter_listed_sidecar, Option.length_toList]
    split <;> decide
  have hsort : sortBy sortKey (listed cwd l) = listed cwd l :=
    (pairwise_listed cwd l).insertionSort_eq
  have hpublished : (listed cwd l).map published = listed cwd l := by
    refine (List.map_congr_left fun a ha => ?_).trans (List.map_id' _)
    obtain ⟨b, -, rfl⟩ := exists_of_mem_listed ha
    exact published_idem b
  rw [listed, hadd, hsort, hpublished]

/-- A list that is listed as it is loses no artifact, and lists each of them as it is stored. -/
theorem perm_of_listed {r : List Artifact} (h : listed cwd r = r) :
    (r.map fun a => published (canonical cwd a)).Perm r := by
  have hadd : addAll cwd r = r.map (canonical cwd) := by
    rw [addAll_eq]
    apply collapse_eq_of_length
    have hlength := congrArg List.length h
    rw [listed, List.length_map, (perm_sortBy _ _).length_eq, addAll_eq] at hlength
    rw [hlength, List.length_map]
  have hperm := (perm_sortBy sortKey (addAll cwd r)).map published
  rw [← listed, h, hadd, List.map_map] at hperm
  exact hperm.symm

/-- What no artifact gains when it is stored, none loses either. -/
theorem measure_eq {r : List Artifact} (h : listed cwd r = r) (m : Artifact → ℕ)
    (hle : ∀ a ∈ r, m (published (canonical cwd a)) ≤ m a) (ha : a ∈ r) :
    m (published (canonical cwd a)) = m a := by
  by_contra hne
  have hlt := List.sum_lt_sum _ m hle ⟨a, ha, lt_of_le_of_ne (hle a ha) hne⟩
  have hsum := ((perm_of_listed h).map m).sum_eq
  rw [List.map_map] at hsum
  exact hlt.ne hsum

theorem settled_of_listed {r : List Artifact} (h : listed cwd r = r) (ha : a ∈ r) :
    Settled cwd a := by
  constructor
  · have hlength : ∀ a : Artifact, (published (canonical cwd a)).path.length =
        (resolveStoredPath cwd a.path a.kind).length := fun a => List.length_map _
    have hle : ∀ a ∈ r, (published (canonical cwd a)).path.length ≤ a.path.length := by
      intro a _
      rw [hlength]
      by_cases hbelow : Below cwd a.path a.kind
      · exact (length_resolveStoredPath hbelow).le
      · rw [resolveStoredPath_of_not_below hbelow]
        exact (List.length_map _).le
    intro hbelow
    have heq := measure_eq h (·.path.length) hle ha
    rw [hlength] at heq
    exact (length_resolveStoredPath hbelow).ne heq
  · intro hname
    have hle : ∀ a ∈ r, (if (published (canonical cwd a)).name = [] then 1 else 0) ≤
        if a.name = [] then 1 else 0 := by
      intro a _
      by_cases hname : a.name = []
      · rw [if_pos hname]
        split <;> decide
      · have hkeep : (published (canonical cwd a)).name = a.name := if_neg hname
        rw [hkeep]
    have heq := measure_eq h (fun a => if a.name = [] then 1 else 0) hle ha
    have hderived : (published (canonical cwd a)).name = derivedName a.path := if_pos hname
    rw [if_pos hname, hderived] at heq
    by_contra hne
    rw [if_neg hne] at heq
    cases heq

theorem settled_published (h : a ∈ addAll cwd l) : Settled cwd (published a) ↔ Settled cwd a := by
  have hpath : (published a).path = a.path := normalize_stored h
  constructor <;> rintro ⟨hbelow, hname⟩
  · exact ⟨hpath ▸ hbelow, hpath ▸ hname⟩
  · exact ⟨hpath.symm ▸ hbelow, hpath.symm ▸ hname⟩

/-- A manifest reloads exactly if the artifacts that were added are settled once they are stored. -/
theorem reloads_iff :
    Reloads cwd l ↔ ∀ a, Leader sidecarKey (l.map (canonical cwd)) a → Settled cwd a := by
  have hmerge : ∀ a b, Settled cwd (absorb b a) ↔ Settled cwd b := fun a b =>
    ⟨fun h => ⟨h.1, h.2⟩, fun h => ⟨h.1, h.2⟩⟩
  rw [← forall_mem_collapse_iff sidecarKey_absorb hmerge, ← addAll_eq, reloads_iff_listed]
  constructor
  · intro h a ha
    exact (settled_published ha).mp (settled_of_listed h
      (List.mem_map_of_mem ((perm_sortBy _ _).mem_iff.mpr ha)))
  · intro h
    refine listed_of_canonical fun a ha => ?_
    rw [canonical_eq_self_iff (normalize_listed ha)]
    obtain ⟨b, hb, rfl⟩ := exists_of_mem_listed ha
    exact (settled_published hb).mpr (h b hb)

/-! ### The manifest of a sequence of additions -/

/-- The manifest is a function of what was added, and gives the registry back. -/
structure Faithful (cwd : Option Text) (l : List Artifact) : Prop where
  registers : Registers cwd l (addAll cwd l)
  orderFree : l.Nodup → SidecarsAgree cwd l → OrderFree cwd l
  reloads : Reloads cwd l

theorem faithful_iff (cwd : Option Text) (l : List Artifact) : Faithful cwd l ↔
    (l.Nodup → SidecarsAgree cwd l → Uniform cwd l) ∧
      ∀ a, Leader sidecarKey (l.map (canonical cwd)) a → Settled cwd a := by
  constructor
  · intro h
    exact ⟨fun hnodup hagree => uniform_of_orderFree (h.orderFree hnodup hagree),
      reloads_iff.mp h.reloads⟩
  · rintro ⟨huniform, hsettled⟩
    exact ⟨addAll_registers,
      fun hnodup hagree => orderFree_of_uniform hagree (huniform hnodup hagree),
      reloads_iff.mpr hsettled⟩

/-- An archive that one shard built. -/
def shardArchive (size : UInt64) : Artifact where
  kind := .archive
  path := "/work/dist/app.tar.gz".toList
  name := []
  target := some "x86_64-unknown-linux-gnu".toList
  crateName := "app".toList
  metadata := ⟨[("format", "tar.gz")], by simp [Json.keys]⟩
  size := some size

/-- Two shards built one archive with different sizes. -/
theorem not_faithful_shards :
    ¬ Faithful (some "/work".toList) [shardArchive 10, shardArchive 12] := by
  intro h
  have hne : shardArchive 10 ≠ shardArchive 12 := fun h => by
    have hsize := congrArg Artifact.size h
    simp [shardArchive] at hsize
  have hprimary : ∀ size, sidecarKey (canonical (some "/work".toList) (shardArchive size)) = none :=
    fun _ => rfl
  have hagree : SidecarsAgree (some "/work".toList) [shardArchive 10, shardArchive 12] := by
    intro a ha b _ hside
    rcases List.mem_pair.mp ha with rfl | rfl <;> exact absurd (hprimary _) hside
  have huniform := uniform_of_orderFree (h.orderFree (by simpa using hne) hagree)
  have hpublished := huniform.primaries (shardArchive 10) (by simp) (shardArchive 12) (by simp)
    (hprimary 10) rfl
  have hsize := congrArg Artifact.size hpublished
  simp [published, canonical, shardArchive] at hsize

end Anodizer.ArtifactRegistry
