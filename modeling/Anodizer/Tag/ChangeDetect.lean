import Mathlib.Data.List.Induction
import Anodizer.Git.Tree
import Anodizer.Lib.Saturate
import Anodizer.Tag.Config

/-! # Change detection

A crate is selected when it has no tag, when its files differ from those at its
tag, or when it depends on a selected crate. The files of the workspace are
compared with one tag only, that of the lowest version.
-/

namespace Anodizer.Tag

open Template (Text CharTables)
open Git

/-! ### The repository -/

/-- A linear history that ends at HEAD, and the commit of each tag. -/
structure Repo where
  commits : List Tree
  tags : List (Text × ℕ)
  head : commits ≠ []
  tagged : ∀ t ∈ tags, t.2 < commits.length

namespace Repo

variable (repo : Repo)

def headTree : Tree := repo.commits.getLast repo.head

def revision (tag : Text) : Option Tree := (repo.tags.lookup tag).bind fun i => repo.commits[i]?

theorem revision_isSome {tag : Text} (h : tag ∈ repo.tags.map (·.1)) :
    ∃ t, repo.revision tag = some t := by
  obtain ⟨i, hi⟩ : ∃ i, repo.tags.lookup tag = some i := by
    rw [← Option.isSome_iff_exists, List.lookup_isSome_iff]
    simpa using h
  obtain ⟨a, b, heq, -⟩ := List.lookup_eq_some_iff.mp hi
  have hlt := repo.tagged (tag, i) (by rw [heq]; simp)
  exact ⟨repo.commits[i], by rw [revision, hi]; exact List.getElem?_eq_getElem hlt⟩

end Repo

/-- Whether a pathspec covers a file. -/
abbrev Pathspec := Text → Text → Bool

variable (u : CharTables) (covers : Pathspec) (repo : Repo)

/-- The changed files that the paths cover, unless the tag does not resolve. -/
def diffNameOnly (tag : Text) (paths : List Text) : Option (List Text) :=
  (repo.revision tag).map fun t =>
    (diffNames t repo.headTree).filter fun f => paths.any (covers · f)

def hasChangesSince (tag path : Text) : Option Bool :=
  (diffNameOnly covers repo tag [path]).map (!·.isEmpty)

/-- A tag that does not resolve counts as no change. -/
def pathsChangedSinceTag (tag : Text) (paths : List Text) : Bool :=
  ((diffNameOnly covers repo tag paths).map (!·.isEmpty)).getD false

def workspaceFiles : List Text := ["Cargo.toml".toList, "Cargo.lock".toList]

def checkWorkspaceFilesChanged (tag : Text) : Bool :=
  pathsChangedSinceTag covers repo tag workspaceFiles

/-! ### The selection -/

/-- The changed crates, then the other crates that depend on them. -/
def propagateDependents (crates : List CrateConfig) (changed : List Text) : List Text :=
  let resultSet := Saturate.saturate CrateConfig.name (·.dependsOn.getD []) crates crates.length
    changed
  changed.filter (· ∈ resultSet) ++
    (crates.filter fun c => c.name ∈ resultSet && c.name ∉ changed).map CrateConfig.name

/-- Keep the tag with the lower version, the earlier one first. -/
def olderTag (oldest : Option Text) (tag : Text) : Option Text :=
  match parseSemverTag u tag with
  | none => oldest
  | some sv =>
    if (oldest.bind (parseSemverTag u)).all (sv.compare · = .lt) then some tag else oldest

variable (latestTag : CrateConfig → Option Text)

def detectStep (s : List Text × Option Text) (c : CrateConfig) :
    Option (List Text × Option Text) :=
  match latestTag c with
  | none => some (s.1 ++ [c.name], s.2)
  | some tag => (hasChangesSince covers repo tag c.path).map fun changed =>
    (if changed then s.1 ++ [c.name] else s.1, olderTag u s.2 tag)

def detectChangedCrates (crates : List CrateConfig) : Option (List Text) :=
  (crates.foldlM (detectStep u covers repo latestTag) ([], none)).map fun (changed, oldestTag) =>
    let changed := propagateDependents crates changed
    match oldestTag with
    | some tag =>
      if checkWorkspaceFilesChanged covers repo tag then crates.map CrateConfig.name else changed
    | none => changed

/-- The latest tag of each crate is that of its family. -/
def detectChangedCratesPub (sort : TagSort) (ign : Ignore) (monorepoPrefix : Option Text)
    (listing : Bool → Text) (crates : List CrateConfig) : Option (List Text) :=
  detectChangedCrates u covers repo
    (fun c => findLatestTagMatching u c.tagFamilyTemplate sort ign monorepoPrefix listing) crates

/-! ### What is selected -/

variable {u covers repo latestTag} {crates : List CrateConfig} {c : CrateConfig} {t : Text}

variable (covers repo) in
/-- A file that the paths cover differs between the tag and HEAD. -/
def Changed (tag : Text) (paths : List Text) : Prop :=
  ∃ old f, repo.revision tag = some old ∧ old.lookup f ≠ repo.headTree.lookup f ∧
    ∃ p ∈ paths, covers p f

theorem diffNameOnly_changed {paths : List Text} (h : t ∈ repo.tags.map (·.1)) :
    ∃ files, diffNameOnly covers repo t paths = some files ∧
      ((!files.isEmpty) = true ↔ Changed covers repo t paths) := by
  obtain ⟨old, hold⟩ := repo.revision_isSome h
  refine ⟨_, by rw [diffNameOnly, hold, Option.map_some], ?_⟩
  rw [Bool.not_eq_true', List.isEmpty_eq_false_iff_exists_mem]
  constructor
  · rintro ⟨f, hf⟩
    obtain ⟨hdiff, hcover⟩ := List.mem_filter.mp hf
    exact ⟨old, f, hold, mem_diffNames.mp hdiff, by simpa using hcover⟩
  · rintro ⟨old', f, hold', hdiff, hcover⟩
    obtain rfl := Option.some.inj (hold.symm.trans hold')
    exact ⟨f, List.mem_filter.mpr ⟨mem_diffNames.mpr hdiff, by simpa using hcover⟩⟩

variable (covers) in
theorem hasChangesSince_eq (path : Text) (h : t ∈ repo.tags.map (·.1)) :
    ∃ b, hasChangesSince covers repo t path = some b ∧
      (b = true ↔ Changed covers repo t [path]) := by
  obtain ⟨files, hfiles, hiff⟩ := diffNameOnly_changed h
  exact ⟨_, by rw [hasChangesSince, hfiles, Option.map_some], hiff⟩

theorem checkWorkspaceFilesChanged_iff (h : t ∈ repo.tags.map (·.1)) :
    checkWorkspaceFilesChanged covers repo t ↔ Changed covers repo t workspaceFiles := by
  obtain ⟨files, hfiles, hiff⟩ :=
    diffNameOnly_changed h
  rw [checkWorkspaceFilesChanged, pathsChangedSinceTag, hfiles, Option.map_some,
    Option.getD_some, hiff]

/-! ### The lowest version -/

variable (u) in
/-- The first of the tags with the lowest version. -/
def LowestTag (tags : List Text) (t : Text) : Prop :=
  ∃ a b v, tags = a ++ t :: b ∧ parseSemverTag u t = some v ∧
    (∀ s ∈ a, ∀ w, parseSemverTag u s = some w → v.key < w.key) ∧
    ∀ s ∈ b, ∀ w, parseSemverTag u s = some w → v.key ≤ w.key

theorem LowestTag.parse {tags : List Text} (h : LowestTag u tags t) :
    t ∈ tags ∧ ∃ v, parseSemverTag u t = some v := by
  obtain ⟨a, b, v, rfl, hv, -, -⟩ := h
  exact ⟨by simp, v, hv⟩

theorem LowestTag.unique {tags : List Text} {t' : Text} (h : LowestTag u tags t)
    (h' : LowestTag u tags t') : t = t' := by
  obtain ⟨a, b, v, rfl, hv, ha, hb⟩ := h
  obtain ⟨a', b', v', heq, hv', ha', hb'⟩ := h'
  rcases List.append_eq_append_iff.mp heq with ⟨l, hl, hr⟩ | ⟨l, hl, hr⟩
  · cases l with
    | nil => exact (List.cons.inj hr).1
    | cons x l =>
      obtain ⟨rfl, rfl⟩ := List.cons.inj hr
      exact absurd (ha' t (by rw [hl]; simp) v hv) (not_lt.mpr (hb t' (by simp) v' hv'))
  · cases l with
    | nil => exact (List.cons.inj hr).1.symm
    | cons x l =>
      obtain ⟨rfl, rfl⟩ := List.cons.inj hr
      exact absurd (ha t' (by rw [hl]; simp) v' hv') (not_lt.mpr (hb' t (by simp) v hv))

theorem foldl_olderTag (tags : List Text) :
    (tags.foldl (olderTag u) none = none ∧ ∀ s ∈ tags, parseSemverTag u s = none) ∨
    ∃ t, tags.foldl (olderTag u) none = some t ∧ LowestTag u tags t := by
  induction tags using List.reverseRecOn with
  | nil => exact .inl ⟨rfl, by simp⟩
  | append_singleton tags s ih =>
    rw [List.foldl_append, List.foldl_cons, List.foldl_nil, olderTag]
    cases hs : parseSemverTag u s with
    | none =>
      rcases ih with ⟨hnone, hall⟩ | ⟨t, ht, a, b, v, rfl, hv, ha, hb⟩
      · refine .inl ⟨hnone, fun r hr => ?_⟩
        rcases List.mem_append.mp hr with hr | hr
        · exact hall r hr
        · rw [List.mem_singleton.mp hr, hs]
      · refine .inr ⟨t, ht, a, b ++ [s], v, by simp, hv, ha, fun r hr w hw => ?_⟩
        rcases List.mem_append.mp hr with hr | hr
        · exact hb r hr w hw
        · rw [List.mem_singleton.mp hr, hs] at hw
          cases hw
    | some sv =>
      rcases ih with ⟨hnone, hall⟩ | ⟨t, ht, a, b, v, rfl, hv, ha, hb⟩
      · refine .inr ⟨s, by rw [hnone]; rfl, tags, [], sv, rfl, hs, fun r hr w hw => ?_, by simp⟩
        rw [hall r hr] at hw
        cases hw
      · rw [ht]
        simp only [Option.bind_some, hv, Option.all_some, decide_eq_true_eq]
        split
        · next hlt =>
          have hlt := SemVer.compare_eq_lt.mp hlt
          refine .inr ⟨s, rfl, a ++ t :: b, [], sv, rfl, hs, fun r hr w hw => ?_, by simp⟩
          rcases List.mem_append.mp hr with hr | hr
          · exact hlt.trans (ha r hr w hw)
          rcases List.mem_cons.mp hr with rfl | hr
          · rw [hv] at hw
            obtain rfl := Option.some.inj hw
            exact hlt
          · exact hlt.trans_le (hb r hr w hw)
        · next hlt =>
          refine .inr ⟨t, rfl, a, b ++ [s], v, by simp, hv, ha, fun r hr w hw => ?_⟩
          rcases List.mem_append.mp hr with hr | hr
          · exact hb r hr w hw
          · rw [List.mem_singleton.mp hr, hs] at hw
            obtain rfl := Option.some.inj hw
            exact not_lt.mp fun h => hlt (SemVer.compare_eq_lt.mpr h)

theorem LowestTag.foldl {tags : List Text} (h : LowestTag u tags t) :
    tags.foldl (olderTag u) none = some t := by
  rcases foldl_olderTag (u := u) tags with ⟨-, hall⟩ | ⟨t', ht', hlowest⟩
  · obtain ⟨hmem, v, hv⟩ := h.parse
    rw [hall t hmem] at hv
    cases hv
  · rw [ht', h.unique hlowest]

/-! ### The crates that must be selected -/

variable (covers repo latestTag) in
/-- A crate without a tag, or whose own files changed since its tag. -/
def Touched (c : CrateConfig) : Prop :=
  ∀ t, latestTag c = some t → Changed covers repo t [c.path]

variable (covers repo latestTag) in
/-- The files of the workspace changed since the tag of the crate. -/
def WorkspaceTouched (c : CrateConfig) : Prop :=
  ∃ t, latestTag c = some t ∧ Changed covers repo t workspaceFiles

variable (crates) in
def DependsOn : Text → Text → Prop :=
  Saturate.Step CrateConfig.name (·.dependsOn.getD []) crates

variable (crates) in
/-- A crate with the property, or one that depends on such a crate, is of this name. -/
def Reaches (P : CrateConfig → Prop) (name : Text) : Prop :=
  ∃ c ∈ crates, P c ∧ Relation.ReflTransGen (DependsOn crates) name c.name

theorem Reaches.of_mem {P : CrateConfig → Prop} (h : c ∈ crates) (hP : P c) :
    Reaches crates P c.name := ⟨c, h, hP, .refl⟩

theorem Reaches.bind {P Q : CrateConfig → Prop} {n : Text} (h : Reaches crates P n)
    (hPQ : ∀ c ∈ crates, P c → Reaches crates Q c.name) : Reaches crates Q n := by
  obtain ⟨c, hc, hP, hn⟩ := h
  obtain ⟨d, hd, hQ, hcd⟩ := hPQ c hc hP
  exact ⟨d, hd, hQ, hn.trans hcd⟩

variable (covers repo latestTag) in
/-- The selection holds every crate that must be in it, and while the files of the workspace are
unchanged each of them once and nothing else. -/
structure SelectsChanged (crates : List CrateConfig) (selected : List Text) : Prop where
  complete : ∀ c ∈ crates, Reaches crates (fun d => Touched covers repo latestTag d ∨
    WorkspaceTouched covers repo latestTag d) c.name → c.name ∈ selected
  exact : (∀ c ∈ crates, ¬ WorkspaceTouched covers repo latestTag c) →
    selected.Nodup ∧ ∀ n ∈ selected, n ∈ crates.map CrateConfig.name ∧
      Reaches crates (Touched covers repo latestTag) n

/-! ### Runs -/

theorem mem_propagateDependents {changed : List Text}
    (h : changed ⊆ crates.map CrateConfig.name) {n : Text} :
    n ∈ propagateDependents crates changed ↔ n ∈ crates.map CrateConfig.name ∧
      ∃ b ∈ changed, Relation.ReflTransGen (DependsOn crates) n b := by
  simp only [propagateDependents, List.mem_append, List.mem_filter, List.mem_map,
    Saturate.mem_saturate, decide_eq_true_eq, Bool.and_eq_true]
  constructor
  · rintro (⟨hn, hreach⟩ | ⟨c, ⟨hc, hreach, -⟩, rfl⟩)
    · exact ⟨by simpa using h hn, hreach⟩
    · exact ⟨⟨c, hc, rfl⟩, hreach⟩
  · rintro ⟨⟨c, hc, rfl⟩, hreach⟩
    by_cases hn : c.name ∈ changed
    · exact .inl ⟨hn, hreach⟩
    · exact .inr ⟨c, ⟨hc, hreach, hn⟩, rfl⟩

theorem nodup_propagateDependents {changed : List Text} (h : changed.Nodup)
    (hcrates : (crates.map CrateConfig.name).Nodup) :
    (propagateDependents crates changed).Nodup := by
  refine List.nodup_append.mpr ⟨h.filter _, ?_, ?_⟩
  · exact (List.filter_sublist.map _).nodup hcrates
  · rintro a ha b hb rfl
    obtain ⟨c, hc, rfl⟩ := List.mem_map.mp hb
    obtain ⟨-, hfresh⟩ := Bool.and_eq_true_iff.mp (List.mem_filter.mp hc).2
    exact of_decide_eq_true hfresh (List.mem_of_mem_filter ha)

variable [DecidablePred (Touched covers repo latestTag)]

theorem detectStep_eq (s : List Text × Option Text)
    (h : ∀ t, latestTag c = some t → t ∈ repo.tags.map (·.1)) :
    detectStep u covers repo latestTag s c =
      some (if Touched covers repo latestTag c then s.1 ++ [c.name] else s.1,
        (latestTag c).toList.foldl (olderTag u) s.2) := by
  cases hc : latestTag c with
  | none => simp [detectStep, Touched, hc]
  | some t =>
    obtain ⟨b, hb, hiff⟩ := hasChangesSince_eq covers c.path (h t hc)
    have htouched : Touched covers repo latestTag c ↔ b = true := by simp [Touched, hc, hiff]
    simp [detectStep, hc, hb, htouched]

/-- The loop over the crates collects the touched ones, and the lowest tag. -/
theorem foldlM_detectStep (s : List Text × Option Text)
    (h : ∀ c ∈ crates, ∀ t, latestTag c = some t → t ∈ repo.tags.map (·.1)) :
    crates.foldlM (detectStep u covers repo latestTag) s =
      some (s.1 ++ (crates.filter (Touched covers repo latestTag ·)).map CrateConfig.name,
        (crates.filterMap latestTag).foldl (olderTag u) s.2) := by
  induction crates generalizing s with
  | nil => simp
  | cons c crates ih =>
    obtain ⟨hc, hcrates⟩ := List.forall_mem_cons.mp h
    rw [List.foldlM_cons, detectStep_eq s hc, Option.bind_eq_bind, Option.bind_some, ih _ hcrates,
      List.filter_cons, List.filterMap_cons]
    congr 2
    · by_cases htouched : Touched covers repo latestTag c <;> simp [htouched]
    · cases latestTag c <;> simp

omit [DecidablePred (Touched covers repo latestTag)] in
/-- Change detection gives all the crates when the workspace changed since the lowest tag, else
the touched ones and those that depend on them. -/
theorem detectChangedCrates_cases (crates : Universe)
    (h : ∀ c ∈ crates.crates, ∀ t, latestTag c = some t → t ∈ repo.tags.map (·.1)) :
    ∃ selected, detectChangedCrates u covers repo latestTag crates.crates = some selected ∧
      selected.Nodup ∧
      ((∃ t, LowestTag u (crates.crates.filterMap latestTag) t ∧
          Changed covers repo t workspaceFiles) ∧ selected = crates.crates.map CrateConfig.name ∨
        (¬ ∃ t, LowestTag u (crates.crates.filterMap latestTag) t ∧
          Changed covers repo t workspaceFiles) ∧
        ∀ n, n ∈ selected ↔ n ∈ crates.crates.map CrateConfig.name ∧
          Reaches crates.crates (Touched covers repo latestTag) n) := by
  classical
  set touched := (crates.crates.filter (Touched covers repo latestTag ·)).map CrateConfig.name
    with htouched
  have hsub : touched.Sublist (crates.crates.map CrateConfig.name) := List.filter_sublist.map _
  have hpropagate : ∀ n, n ∈ propagateDependents crates.crates touched ↔
      n ∈ crates.crates.map CrateConfig.name ∧
        Reaches crates.crates (Touched covers repo latestTag) n := by
    intro n
    rw [mem_propagateDependents hsub.subset, htouched]
    simp [Reaches, and_assoc]
  have hnodup : (propagateDependents crates.crates touched).Nodup :=
    nodup_propagateDependents (hsub.nodup crates.distinct) crates.distinct
  have htag : ∀ t, LowestTag u (crates.crates.filterMap latestTag) t →
      (checkWorkspaceFilesChanged covers repo t ↔ Changed covers repo t workspaceFiles) := by
    intro t ht
    obtain ⟨c, hc, hlatest⟩ := List.mem_filterMap.mp ht.parse.1
    exact checkWorkspaceFilesChanged_iff (h c hc t hlatest)
  simp only [detectChangedCrates, foldlM_detectStep _ h, List.nil_append, ← htouched,
    Option.map_some]
  refine ⟨_, rfl, ?_⟩
  rcases foldl_olderTag (u := u) (crates.crates.filterMap latestTag) with ⟨hnone, hall⟩ |
    ⟨t, ht, hlowest⟩
  · rw [hnone]
    refine ⟨hnodup, .inr ⟨?_, hpropagate⟩⟩
    rintro ⟨t, hlowest, -⟩
    rw [hlowest.foldl] at hnone
    cases hnone
  · rw [ht]
    by_cases hprobe : checkWorkspaceFilesChanged covers repo t
    · simp only [hprobe, if_true]
      exact ⟨crates.distinct, .inl ⟨⟨t, hlowest, (htag t hlowest).mp hprobe⟩, trivial⟩⟩
    · simp only [hprobe]
      refine ⟨hnodup, .inr ⟨?_, hpropagate⟩⟩
      rintro ⟨t', hlowest', hchanged⟩
      rw [hlowest'.unique hlowest] at hchanged
      exact hprobe ((htag t hlowest).mpr hchanged)

omit [DecidablePred (Touched covers repo latestTag)] in
/-- No crate is missed exactly when the workspace changed since the lowest tag, or each crate
since whose tag it changed is touched or depends on a touched one. -/
theorem detectChangedCrates_iff (crates : Universe)
    (h : ∀ c ∈ crates.crates, ∀ t, latestTag c = some t → t ∈ repo.tags.map (·.1)) :
    (∃ selected, detectChangedCrates u covers repo latestTag crates.crates = some selected ∧
      SelectsChanged covers repo latestTag crates.crates selected) ↔
    (∃ t, LowestTag u (crates.crates.filterMap latestTag) t ∧
      Changed covers repo t workspaceFiles) ∨
    ∀ c ∈ crates.crates, WorkspaceTouched covers repo latestTag c →
      Reaches crates.crates (Touched covers repo latestTag) c.name := by
  obtain ⟨selected, hselected, hnodup, ⟨hprobe, rfl⟩ | ⟨hprobe, hmem⟩⟩ :=
    detectChangedCrates_cases crates h
  · refine iff_of_true ⟨_, hselected, ⟨fun c hc _ => List.mem_map_of_mem hc, ?_⟩⟩ (.inl hprobe)
    obtain ⟨t, hlowest, hchanged⟩ := hprobe
    obtain ⟨c, hc, hlatest⟩ := List.mem_filterMap.mp hlowest.parse.1
    exact fun hnone => absurd ⟨t, hlatest, hchanged⟩ (hnone c hc)
  · constructor
    · rintro ⟨_, heq, hs⟩
      obtain rfl := Option.some.inj (hselected.symm.trans heq)
      refine .inr fun c hc hworkspace => ((hmem c.name).mp ?_).2
      exact hs.complete c hc (.of_mem hc (.inr hworkspace))
    · intro hcond
      have hreach := hcond.resolve_left hprobe
      refine ⟨selected, hselected, ⟨fun c hc hc' => ?_, fun _ => ⟨hnodup, fun n hn =>
        (hmem n).mp hn⟩⟩⟩
      refine (hmem c.name).mpr ⟨List.mem_map_of_mem hc, hc'.bind fun d hd htouched => ?_⟩
      rcases htouched with htouched | hworkspace
      · exact .of_mem hd htouched
      · exact hreach d hd hworkspace

omit [DecidablePred (Touched covers repo latestTag)] in
/-- Tags that the repository lists are tags it has. -/
theorem findLatestTag_listed {listing : Bool → Text} {sort : TagSort} {ign : Ignore}
    {monorepoPrefix : Option Text}
    (h : ∀ b, ∀ t ∈ Lines.lines (listing b), t ∈ repo.tags.map (·.1))
    (ht : findLatestTagMatching u c.tagFamilyTemplate sort ign monorepoPrefix listing = some t) :
    t ∈ repo.tags.map (·.1) := by
  obtain ⟨vt, hvt, rfl⟩ := List.mem_map.mp (findLatestTagMatching_mem u ht)
  obtain ⟨s, hs, hmap⟩ := List.mem_filterMap.mp (List.mem_of_mem_filter hvt)
  obtain ⟨v, -, rfl⟩ := Option.map_eq_some_iff.mp hmap
  exact h _ s (List.mem_of_mem_filter hs)

/-- Change detection answers in every repository that lists its own tags. -/
theorem detectChangedCratesPub_isSome (crates : Universe) {listing : Bool → Text} {sort : TagSort}
    {ign : Ignore} {monorepoPrefix : Option Text}
    (h : ∀ b, ∀ t ∈ Lines.lines (listing b), t ∈ repo.tags.map (·.1)) :
    (detectChangedCratesPub u covers repo sort ign monorepoPrefix listing crates.crates).isSome := by
  obtain ⟨selected, heq, -⟩ := detectChangedCrates_cases (u := u) crates
    (fun c _ t ht => findLatestTag_listed (c := c) (t := t) h ht)
  exact Option.isSome_iff_exists.mpr ⟨selected, heq⟩

/-! ### Two tracks -/

/-- A pathspec covers the file it names and what is below it. -/
def below : Pathspec := fun p f => p = f || (p ++ ['/']).isPrefixOf f

/-- Cargo.lock changes between the commits of the tags. -/
def twoTracks (a b : Fin 2) : Repo where
  commits := [[("Cargo.lock".toList, ['1'])], [("Cargo.lock".toList, ['2'])]]
  tags := [("a-v5.0.0".toList, a), ("b-v0.1.0".toList, b)]
  head := by simp
  tagged := List.forall_mem_cons.mpr ⟨a.2, List.forall_mem_cons.mpr ⟨b.2, by simp⟩⟩

def crateA : CrateConfig := ⟨['a'], "crates/a".toList, none, none, none⟩

def crateB : CrateConfig := ⟨['b'], "crates/b".toList, none, none, none⟩

def twoCrates : Universe := ⟨[crateA, crateB], by decide⟩

def twoTags (c : CrateConfig) : Option Text :=
  some (if c = crateA then "a-v5.0.0".toList else "b-v0.1.0".toList)

theorem twoTags_listed (a b : Fin 2) : ∀ c ∈ twoCrates.crates, ∀ t, twoTags c = some t →
    t ∈ (twoTracks a b).tags.map (·.1) := by
  rintro c - t ht
  obtain rfl := Option.some.inj ht
  by_cases hc : c = crateA <;> simp [twoTracks, hc]

/-- The lower version has the older tag. -/
theorem detects_older_tag : ∃ selected,
    detectChangedCrates .ascii below (twoTracks 1 0) twoTags twoCrates.crates = some selected ∧
      SelectsChanged below (twoTracks 1 0) twoTags twoCrates.crates selected := by
  refine (detectChangedCrates_iff twoCrates (twoTags_listed 1 0)).mpr (.inl ?_)
  refine ⟨"b-v0.1.0".toList, ⟨["a-v5.0.0".toList], [], ⟨0, 1, 0, none, none⟩, by decide,
    by decide +kernel, ?_, by simp⟩, ?_⟩
  · intro s hs w hw
    obtain rfl := List.mem_singleton.mp hs
    have hparse : parseSemverTag .ascii "a-v5.0.0".toList = some ⟨5, 0, 0, none, none⟩ := by
      decide +kernel
    obtain rfl := Option.some.inj (hparse.symm.trans hw)
    exact SemVer.compare_eq_lt.mp (by decide)
  · exact ⟨[("Cargo.lock".toList, ['1'])], "Cargo.lock".toList, by decide, by decide,
      "Cargo.lock".toList, by decide, by decide⟩

/-- The lower version has the newer tag, and the crate with the older one is missed. -/
theorem misses_older_tag : ¬ ∃ selected,
    detectChangedCrates .ascii below (twoTracks 0 1) twoTags twoCrates.crates = some selected ∧
      SelectsChanged below (twoTracks 0 1) twoTags twoCrates.crates selected := by
  rintro ⟨selected, heq, hs⟩
  have hnone : detectChangedCrates .ascii below (twoTracks 0 1) twoTags twoCrates.crates =
      some [] := by
    decide +kernel
  obtain rfl := Option.some.inj (hnone.symm.trans heq)
  have hchanged : WorkspaceTouched below (twoTracks 0 1) twoTags crateA :=
    ⟨"a-v5.0.0".toList, by decide, [("Cargo.lock".toList, ['1'])], "Cargo.lock".toList,
      by decide, by decide, "Cargo.lock".toList, by decide, by decide⟩
  have hmem := hs.complete crateA (by decide) (.of_mem (by decide) (.inr hchanged))
  exact absurd hmem (by simp)

end Anodizer.Tag
