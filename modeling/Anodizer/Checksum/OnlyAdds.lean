import Anodizer.Checksum.Combined
import Anodizer.Lib.Traverse

/-! # What the refresh does to the combined file

The refresh rewrites the file from the registry as a whole. Artifacts registered since add their
lines, and a second refresh writes the same again; what it leaves of the lines of the stage is
a matter of the two selections.
-/

namespace Anodizer

namespace Checksum

open PublishOnly (ArtifactKind)
open Template (Text)
open Traverse (mapM_eq_ok exists_mapM_eq_ok mapM_ok_map)

/-! ### Lines and digests -/

section Digests

variable {β : Type} {l : List β}

/-- The digests listed under a name, in their order. -/
def digests (hash name : β → Except Text Text) (l : List β) (n : Text) :
    List (Except Text Text) := (l.filter fun b => (name b).toOption = some n).map hash

variable {hash name : β → Except Text Text} {lines : List Text}

theorem filter_sortKey (hex : ∀ b h, hash b = .ok h → ' ' ∉ h)
    (hl : l.mapM (fun b => checksumLine (hash b) (name b)) = .ok lines) (n : Text) :
    (lines.filter (sortKey · = n)).map Except.ok =
      (digests hash name l n).map (Except.map (formatChecksumLine · n)) := by
  rw [mapM_eq_ok] at hl
  induction l generalizing lines with
  | nil =>
    obtain rfl : lines = [] := by simpa using hl.symm
    rfl
  | cons b l ih =>
    cases lines with
    | nil => simp at hl
    | cons line lines =>
      obtain ⟨hline, hrest⟩ := List.cons.inj hl
      have hih := ih hrest
      cases hh : hash b with
      | error e => simp [checksumLine, hh, bind, Except.bind] at hline
      | ok h =>
        cases hn : name b with
        | error e => simp [checksumLine, hh, hn, bind, Except.bind] at hline
        | ok m =>
          obtain rfl : formatChecksumLine h m = line := by
            simpa [checksumLine, hh, hn, bind, Except.bind, pure, Except.pure] using hline
          have hkey := sortKey_formatChecksumLine (hex b h hh) m
          unfold digests at hih ⊢
          by_cases hm : m = n
          · rw [List.filter_cons_of_pos (by simpa using hkey.trans hm),
              List.filter_cons_of_pos (by simp [hn, hm, Except.toOption]), List.map_cons,
              List.map_cons, List.map_cons, hih, hh, hm]
            rfl
          · rw [List.filter_cons_of_neg (by simpa [hkey] using hm),
              List.filter_cons_of_neg (by simp [hn, hm, Except.toOption]), hih]

theorem map_formatChecksumLine_injective (n : Text) : Function.Injective
    (Except.map (formatChecksumLine · n) : Except Text Text → Except Text Text) := by
  intro x y h
  cases x <;> cases y <;> simp_all [Except.map, formatChecksumLine]

/-- Two sorted files are the same when they list the same digests under each name. -/
theorem sortBy_eq_iff {β' : Type} {l' : List β'} {hash' name' : β' → Except Text Text}
    {lines' : List Text} (hex : ∀ b h, hash b = .ok h → ' ' ∉ h)
    (hex' : ∀ b h, hash' b = .ok h → ' ' ∉ h)
    (hl : l.mapM (fun b => checksumLine (hash b) (name b)) = .ok lines)
    (hl' : l'.mapM (fun b => checksumLine (hash' b) (name' b)) = .ok lines') :
    StableSort.sortBy sortKey lines = StableSort.sortBy sortKey lines' ↔
      ∀ n, digests hash name l n = digests hash' name' l' n := by
  rw [StableSort.sortBy_eq_sortBy]
  apply forall_congr'
  intro n
  rw [← List.map_inj_right fun _ _ h => Except.ok.inj h, filter_sortKey hex hl,
    filter_sortKey hex' hl', List.map_inj_right (map_formatChecksumLine_injective n)]

end Digests

/-! ### One refresh -/

variable {Path : Type} [DecidableEq Path] {files : Files Path} {artifacts : List (Artifact Path)}
  {l : List (CombinedFile Path)} {p : Path} {lines : List Text}

/-- The combined files up to the one at `p`. -/
def upTo (p : Path) : List (CombinedFile Path) → List (CombinedFile Path)
  | [] => []
  | c :: l => if c.path = p then [c] else c :: upTo p l

/-- The lines the refresh writes to `p`, if it gets there. -/
def rewritten (files : Files Path) (artifacts : List (Artifact Path)) (p : Path) :
    List (CombinedFile Path) → Option (List Text)
  | [] => none
  | c :: l =>
    match refreshedLines files artifacts c with
    | .error _ => none
    | .ok lines => if c.path = p then some lines else rewritten files artifacts p l

theorem rewriteAll_of_not_mem (h : p ∉ l.map CombinedFile.path)
    (sums : Path → Option (List Text)) : (rewriteAll files artifacts l sums).2 p = sums p := by
  induction l generalizing sums with
  | nil => rfl
  | cons c l ih =>
    simp only [List.map_cons, List.mem_cons, not_or] at h
    rw [rewriteAll]
    split
    · rfl
    · rw [ih h.2, writeLines, if_neg h.1]

theorem rewriteAll_sums (hl : (l.map CombinedFile.path).Nodup)
    (sums : Path → Option (List Text)) : (rewriteAll files artifacts l sums).2 p =
      (rewritten files artifacts p l).or (sums p) := by
  induction l generalizing sums with
  | nil => rfl
  | cons c l ih =>
    rw [List.map_cons, List.nodup_cons] at hl
    rw [rewriteAll, rewritten]
    cases refreshedLines files artifacts c with
    | error e => rfl
    | ok lines =>
      by_cases hp : c.path = p
      · rw [rewriteAll_of_not_mem (hp ▸ hl.1), writeLines, if_pos hp.symm]
        simp [hp]
      · rw [ih hl.2, writeLines, if_neg (Ne.symm hp)]
        simp [hp]

theorem exists_of_rewritten (h : rewritten files artifacts p l = some lines) :
    ∃ c ∈ l, c.path = p ∧ refreshedLines files artifacts c = .ok lines := by
  induction l with
  | nil => simp [rewritten] at h
  | cons c l ih =>
    rw [rewritten] at h
    cases hr : refreshedLines files artifacts c with
    | error e => simp [hr] at h
    | ok all =>
      simp only [hr] at h
      by_cases hp : c.path = p
      · obtain rfl : all = lines := by simpa [hp] using h
        exact ⟨c, List.mem_cons_self, hp, hr⟩
      · rw [if_neg hp] at h
        obtain ⟨d, hd, hdp, hdr⟩ := ih h
        exact ⟨d, List.mem_cons_of_mem _ hd, hdp, hdr⟩

theorem rewritten_append (h : p ∈ l.map CombinedFile.path) (l' : List (CombinedFile Path)) :
    rewritten files artifacts p (l ++ l') = rewritten files artifacts p l := by
  induction l with
  | nil => simp at h
  | cons c l ih =>
    rw [List.cons_append, rewritten, rewritten]
    split
    · rfl
    · split
      · rfl
      · next hp =>
        have hl : p ∈ l.map CombinedFile.path := by simpa [Ne.symm hp] using h
        rw [ih hl]

omit [DecidableEq Path] in
theorem exists_refreshedLines {c : CombinedFile Path} :
    (∃ lines, refreshedLines files artifacts c = .ok lines) ↔
      ∀ q ∈ refreshSubjects files artifacts c.crateName, ∃ h, files.hashFile c.algorithm q = .ok h := by
  have hline : ∀ q, (∃ line, refreshLine files c.algorithm q = .ok line) ↔
      ∃ h, files.hashFile c.algorithm q = .ok h := by
    intro q
    unfold refreshLine checksumLine
    cases files.hashFile c.algorithm q <;> simp [bind, Except.bind, pure, Except.pure]
  rw [← forall₂_congr fun q _ => hline q, ← exists_mapM_eq_ok, refreshedLines]
  cases (refreshSubjects files artifacts c.crateName).mapM (refreshLine files c.algorithm) <;>
    simp [bind, Except.bind, pure, Except.pure]

/-- The refresh stops at a file it cannot hash. -/
theorem rewritten_eq_none (h : p ∈ l.map CombinedFile.path) :
    rewritten files artifacts p l = none ↔ ∃ c ∈ upTo p l,
      ∃ q ∈ refreshSubjects files artifacts c.crateName,
        ∀ h, files.hashFile c.algorithm q ≠ .ok h := by
  induction l with
  | nil => simp at h
  | cons c l ih =>
    have hc : (∃ lines, refreshedLines files artifacts c = .ok lines) ↔ _ := exists_refreshedLines
    rw [rewritten, upTo]
    cases hr : refreshedLines files artifacts c with
    | error e =>
      rw [hr] at hc
      have hq : ¬∀ q ∈ refreshSubjects files artifacts c.crateName,
          ∃ h, files.hashFile c.algorithm q = .ok h := fun hall => by simpa using hc.mpr hall
      push Not at hq
      simp only [true_iff]
      refine ⟨c, ?_, hq⟩
      split <;> exact List.mem_cons_self
    | ok lines =>
      have hall := hc.mp ⟨lines, hr⟩
      have hne : ¬∃ q ∈ refreshSubjects files artifacts c.crateName,
          ∀ h, files.hashFile c.algorithm q ≠ .ok h := by
        rintro ⟨q, hq, hno⟩
        obtain ⟨h, hh⟩ := hall q hq
        exact hno h hh
      by_cases hp : c.path = p
      · simp [hp, hne]
      · have hl : p ∈ l.map CombinedFile.path := by simpa [Ne.symm hp] using h
        simp [hp, hne, ih hl]

/-! ### Registering further artifacts -/

section Append

variable {base extra : List (Artifact Path)} {crateName : Text}

omit [DecidableEq Path] in
theorem refreshSubjects_append : refreshSubjects files (base ++ extra) crateName =
    refreshSubjects files base crateName ++ refreshSubjects files extra crateName := by
  rw [refreshSubjects, List.filter_append, List.map_append]
  rfl

omit [DecidableEq Path] in
theorem refreshedLines_append {c : CombinedFile Path}
    (h : refreshedLines files (base ++ extra) c = .ok lines) :
    ∃ lines' added, refreshedLines files base c = .ok lines' ∧ lines.Perm (lines' ++ added) ∧
      ∀ line ∈ added, ∃ q ∈ refreshSubjects files extra c.crateName,
        refreshLine files c.algorithm q = .ok line := by
  unfold refreshedLines at h
  cases hm : (refreshSubjects files (base ++ extra) c.crateName).mapM
      (refreshLine files c.algorithm) with
  | error e => simp [hm, bind, Except.bind] at h
  | ok all =>
    obtain rfl : StableSort.sortBy sortKey all = lines := by
      simpa [hm, bind, Except.bind, pure, Except.pure] using h
    rw [mapM_eq_ok, refreshSubjects_append, List.map_append] at hm
    obtain ⟨own, added, rfl, hown, hadded⟩ := List.map_eq_append_iff.mp hm.symm
    refine ⟨StableSort.sortBy sortKey own, added, ?_, ?_, ?_⟩
    · rw [refreshedLines, mapM_eq_ok.mpr hown.symm]
      rfl
    · exact (StableSort.perm_sortBy sortKey (own ++ added)).trans
        ((StableSort.perm_sortBy sortKey own).symm.append_right added)
    · intro line hline
      have hmem : Except.ok line ∈ (refreshSubjects files extra c.crateName).map
          (refreshLine files c.algorithm) := hadded ▸ List.mem_map_of_mem hline
      exact List.mem_map.mp hmem

/-- What is registered adds its lines to a file the refresh rewrites. -/
theorem rewritten_append_artifacts (h : rewritten files (base ++ extra) p l = some lines) :
    ∃ c ∈ l, ∃ lines' added, c.path = p ∧ rewritten files base p l = some lines' ∧
      lines.Perm (lines' ++ added) ∧ ∀ line ∈ added,
        ∃ q ∈ refreshSubjects files extra c.crateName, refreshLine files c.algorithm q = .ok line := by
  induction l with
  | nil => simp [rewritten] at h
  | cons c l ih =>
    rw [rewritten] at h
    cases hr : refreshedLines files (base ++ extra) c with
    | error e => simp [hr] at h
    | ok all =>
      obtain ⟨lines', added, hbase, hperm, hadded⟩ := refreshedLines_append hr
      simp only [hr] at h
      by_cases hp : c.path = p
      · obtain rfl : all = lines := by simpa [hp] using h
        exact ⟨c, List.mem_cons_self, lines', added, hp, by simp [rewritten, hbase, hp], hperm,
          hadded⟩
      · rw [if_neg hp] at h
        obtain ⟨d, hd, lines'', added', hdp, hbase', hperm', hadded'⟩ := ih h
        exact ⟨d, List.mem_cons_of_mem _ hd, lines'', added', hdp,
          by simp [rewritten, hbase, hp, hbase'], hperm', hadded'⟩

end Append

section Register

variable {a : Artifact Path} {base extra more : List (Artifact Path)} {crateName : Text}

theorem absorbFirst_append (h : a.place ∉ base.map Artifact.place) :
    absorbFirst a (base ++ extra) = base ++ absorbFirst a extra := by
  induction base with
  | nil => rfl
  | cons b base ih =>
    simp only [List.map_cons, List.mem_cons, not_or] at h
    rw [List.cons_append, absorbFirst, if_neg (Ne.symm h.1), ih h.2, List.cons_append]

theorem addArtifact_append (h : a.kind.isDerivedSidecar → a.place ∉ base.map Artifact.place) :
    addArtifact files (base ++ extra) a = base ++ addArtifact files extra a := by
  unfold addArtifact
  by_cases ha : a.kind.isDerivedSidecar
  · have hbase := h ha
    have hnamed : (a.named files).place ∉ base.map Artifact.place := by rwa [place_named]
    rw [List.map_append, absorbFirst_append hnamed]
    by_cases hextra : a.place ∈ extra.map Artifact.place
    · simp [ha, hextra]
    · simp [ha, hextra, hbase]
  · simp [ha]

theorem mem_of_mem_absorbFirst {b : Artifact Path} (h : b ∈ absorbFirst a extra) :
    b ∈ extra ∨ b.place = a.place := by
  induction extra with
  | nil => simp [absorbFirst] at h
  | cons d extra ih =>
    rw [absorbFirst] at h
    split at h
    · next hd =>
      rcases List.mem_cons.mp h with rfl | h
      · exact .inr hd
      · exact .inl (List.mem_cons_of_mem _ h)
    · rcases List.mem_cons.mp h with rfl | h
      · exact .inl List.mem_cons_self
      · exact (ih h).imp_left (List.mem_cons_of_mem _)

theorem mem_of_mem_addArtifact {b : Artifact Path} (h : b ∈ addArtifact files extra a) :
    b ∈ extra ∨ b.place = a.place := by
  unfold addArtifact at h
  split at h
  · rw [← place_named files a]
    exact mem_of_mem_absorbFirst h
  · rcases List.mem_append.mp h with h | h
    · exact .inl h
    · rw [List.mem_singleton.mp h, place_named]
      exact .inr rfl

/-- Artifacts at places of their own are registered behind the others. -/
theorem foldl_addArtifact (h : ∀ a ∈ more, a.kind.isDerivedSidecar →
    a.place ∉ base.map Artifact.place) : ∃ added, (more.foldl (addArtifact files) (base ++ extra)) =
      base ++ added ∧ ∀ b ∈ added, b ∈ extra ∨ ∃ a ∈ more, b.path = a.path := by
  induction more generalizing extra with
  | nil => exact ⟨extra, rfl, fun b hb => .inl hb⟩
  | cons a more ih =>
    rw [List.forall_mem_cons] at h
    rw [List.foldl_cons, addArtifact_append h.1]
    obtain ⟨added, heq, hadded⟩ := @ih (addArtifact files extra a) h.2
    refine ⟨added, heq, ?_⟩
    intro b hb
    rcases hadded b hb with hb | ⟨d, hd, hpath⟩
    · rcases mem_of_mem_addArtifact hb with hb | hplace
      · exact .inl hb
      · exact .inr ⟨a, List.mem_cons_self, congrArg Prod.snd hplace⟩
    · exact .inr ⟨d, List.mem_cons_of_mem _ hd, hpath⟩

theorem artifacts_addAll (r : Registry Path) (more : List (Artifact Path)) :
    (r.addAll files more).artifacts = more.foldl (addArtifact files) r.artifacts := by
  unfold Registry.addAll
  induction more generalizing r with
  | nil => rfl
  | cons a more ih =>
    rw [List.foldl_cons, List.foldl_cons, ih]
    rfl

theorem nodup_combinedFiles (r : Registry Path) :
    ((r.artifacts.filterMap combinedFile).map CombinedFile.path).Nodup := by
  have honce := List.pairwise_map.mp r.once
  rw [List.Nodup, List.pairwise_map, List.pairwise_filterMap]
  refine honce.imp ?_
  intro a b hab c hc d hd hpath
  have hkind : ∀ {x : Artifact Path} {e : CombinedFile Path}, combinedFile x = some e →
      x.kind = .checksum ∧ x.path = e.path := by
    intro x e hx
    unfold combinedFile at hx
    split at hx
    · next hcombined =>
      simp only [Artifact.isCombinedChecksum, Bool.and_eq_true, decide_eq_true_eq] at hcombined
      obtain ⟨alg, -, rfl⟩ := Option.map_eq_some_iff.mp hx
      exact ⟨hcombined.1, rfl⟩
    · simp at hx
  obtain ⟨ha, hac⟩ := hkind hc
  obtain ⟨hb, hbd⟩ := hkind hd
  refine hab ?_ ?_
  · simp [Artifact.place, ha, ArtifactKind.isDerivedSidecar]
  · simp [Artifact.place, ha, hb, hac, hbd, hpath]

end Register

/-! ### What the stage leaves -/

section Stage

variable {env : Env Path} {cfg : ResolvedChecksumConfig Path} {dist : Path} {crateName : Text}
  {s s' : Dist Path} {a : Artifact Path}

theorem isDirectoryBundle_propagateChecksum {algorithm : Text} (h : algorithm ∈ supportedAlgorithms)
    (checksums : List (Path × Text)) (a : Artifact Path) :
    (propagateChecksum algorithm checksums a).isDirectoryBundle = a.isDirectoryBundle := by
  have hformat : "format".toList ≠ algorithm := by
    rintro rfl
    revert h
    decide
  unfold propagateChecksum
  split
  · unfold Artifact.isDirectoryBundle
    rw [Metadata.get_orInsert_ne _ _ hformat, Metadata.get_orInsert_ne _ _ (by decide)]
  · rfl

theorem crateName_propagateChecksum (algorithm : Text) (checksums : List (Path × Text))
    (a : Artifact Path) : (propagateChecksum algorithm checksums a).crateName = a.crateName := by
  unfold propagateChecksum
  split <;> rfl

theorem refreshSubjects_propagateChecksum {algorithm : Text} (h : algorithm ∈ supportedAlgorithms)
    (checksums : List (Path × Text)) (artifacts : List (Artifact Path)) :
    refreshSubjects files (artifacts.map (propagateChecksum algorithm checksums)) crateName =
      refreshSubjects files artifacts crateName := by
  unfold refreshSubjects
  rw [List.filter_map, List.map_map]
  have hplace := place_propagateChecksum algorithm checksums
  have hkind : ∀ a, (propagateChecksum algorithm checksums a).kind = a.kind :=
    fun a => congrArg Prod.fst (hplace a)
  have hpath : ∀ a, (propagateChecksum algorithm checksums a).path = a.path :=
    fun a => congrArg Prod.snd (hplace a)
  congr 1
  · exact funext hpath
  · apply List.filter_congr
    intro a _
    simp only [Function.comp_apply, hkind, hpath, crateName_propagateChecksum,
      isDirectoryBundle_propagateChecksum h]

theorem refreshSubjects_absorbFirst (h : a.kind.isDerivedSidecar) :
    refreshSubjects files (absorbFirst a artifacts) crateName =
      refreshSubjects files artifacts crateName := by
  unfold refreshSubjects
  congr 1
  induction artifacts with
  | nil => rfl
  | cons b artifacts ih =>
    rw [absorbFirst]
    split
    · next hb =>
      have hkind : b.kind = a.kind := congrArg Prod.fst hb
      rw [List.filter_cons_of_neg, List.filter_cons_of_neg]
      · simp [hkind, h]
      · simp [Artifact.absorb, hkind, h]
    · rw [List.filter_cons, List.filter_cons, ih]

/-- A derived artifact is no subject of the refresh. -/
theorem refreshSubjects_addArtifact (h : a.kind.isDerivedSidecar) :
    refreshSubjects files (addArtifact files artifacts a) crateName =
      refreshSubjects files artifacts crateName := by
  have hkind : (a.named files).kind = a.kind := congrArg Prod.fst (place_named files a)
  have hnamed : (a.named files).kind.isDerivedSidecar := by rwa [hkind]
  unfold addArtifact
  split
  · exact refreshSubjects_absorbFirst hnamed
  · rw [refreshSubjects_append]
    simp [refreshSubjects, hnamed]

theorem mem_absorbFirst (h : a.place ∈ artifacts.map Artifact.place) :
    ∃ b ∈ artifacts, b.place = a.place ∧ b.absorb a ∈ absorbFirst a artifacts := by
  induction artifacts with
  | nil => simp at h
  | cons b artifacts ih =>
    rw [absorbFirst]
    by_cases hb : b.place = a.place
    · rw [if_pos hb]
      exact ⟨b, List.mem_cons_self, hb, List.mem_cons_self⟩
    · rw [if_neg hb]
      obtain ⟨d, hd, hplace, hmem⟩ := ih (by simpa [Ne.symm hb] using h)
      exact ⟨d, List.mem_cons_of_mem _ hd, hplace, List.mem_cons_of_mem _ hmem⟩

omit [DecidableEq Path] in
theorem combinedFile_of_metadata {b : Artifact Path} (hkind : b.kind = .checksum)
    (hcombined : b.metadata.get "combined".toList = some "true".toList)
    (halgorithm : b.metadata.get "algorithm".toList = some cfg.algorithm) :
    combinedFile b = some ⟨b.path, cfg.algorithm, b.crateName⟩ := by
  rw [combinedFile, if_pos, halgorithm, Option.map_some]
  simp only [Artifact.isCombinedChecksum, Bool.and_eq_true, decide_eq_true_eq]
  exact ⟨hkind, hcombined⟩

omit [DecidableEq Path] in
theorem combinedFile_absorb {b : Artifact Path} (hkind : b.kind = .checksum)
    (hcrate : b.crateName = crateName) (a : Artifact Path)
    (ha : a.metadata = [("algorithm".toList, cfg.algorithm), ("combined".toList, "true".toList)]) :
    combinedFile (b.absorb a) = some ⟨b.path, cfg.algorithm, crateName⟩ := by
  have hcombined : (b.absorb a).metadata.get "combined".toList = some "true".toList := by
    simp only [Artifact.absorb, ha, List.foldl_cons, List.foldl_nil]
    exact Metadata.get_insert_self _ _ _
  have halgorithm : (b.absorb a).metadata.get "algorithm".toList = some cfg.algorithm := by
    simp only [Artifact.absorb, ha, List.foldl_cons, List.foldl_nil]
    rw [Metadata.get_insert_ne _ _ (by decide)]
    exact Metadata.get_insert_self _ _ _
  rw [← hcrate]
  exact combinedFile_of_metadata (b := b.absorb a) hkind hcombined halgorithm

/-- The combined file of the stage is registered under its algorithm. -/
theorem mem_combinedFiles (hcrate : ∀ b ∈ artifacts, b.crateName = crateName) (path : Path) :
    ⟨path, cfg.algorithm, crateName⟩ ∈
      (addArtifact env.toFiles artifacts (combinedArtifact env cfg crateName path)).filterMap
        combinedFile := by
  have hnamed : ∃ name, (combinedArtifact env cfg crateName path).named env.toFiles =
      { combinedArtifact env cfg crateName path with name := name } := by
    unfold Artifact.named
    split
    · exact ⟨_, rfl⟩
    · exact ⟨_, rfl⟩
  obtain ⟨name, hname⟩ := hnamed
  rw [List.mem_filterMap]
  unfold addArtifact
  rw [hname]
  split
  · next hold =>
    simp only [Bool.and_eq_true, decide_eq_true_eq] at hold
    obtain ⟨b, hb, hplace, hmem⟩ := mem_absorbFirst
      (a := { combinedArtifact env cfg crateName path with name := name }) hold.2
    have hkind : b.kind = .checksum := congrArg Prod.fst hplace
    have hpath : b.path = path := congrArg Prod.snd hplace
    refine ⟨_, hmem, ?_⟩
    exact (combinedFile_absorb hkind (hcrate b hb) _ rfl).trans (by rw [hpath])
  · refine ⟨_, List.mem_append_right _ List.mem_cons_self, ?_⟩
    exact combinedFile_of_metadata rfl rfl rfl

/-! ### Whether the refresh only adds -/

def refreshed (files : Files Path) (s : Dist Path) : Dist Path :=
  (refreshCombinedChecksums files s).2

def Dist.register (files : Files Path) (s : Dist Path) (more : List (Artifact Path)) : Dist Path :=
  { s with registry := s.registry.addAll files more }

/-- The artifacts are registered for the first time. -/
def Fresh (s : Dist Path) (more : List (Artifact Path)) : Prop :=
  ∀ a ∈ more, a.kind.isDerivedSidecar → a.place ∉ s.registry.artifacts.map Artifact.place

/-- Refreshing the combined file at `p` leaves it as it is, adds the lines of what is registered
afterwards to it, and does the same whether it is done once or twice. -/
structure OnlyAdds (files : Files Path) (algorithm : Text) (s : Dist Path) (p : Path) : Prop where
  unchanged : (refreshed files s).sums p = s.sums p
  adds : ∀ more, Fresh s more → ∀ lines, s.sums p = some lines → ∃ lines' added,
    (refreshed files (s.register files more)).sums p = some lines' ∧
      lines'.Perm (lines ++ added) ∧
      ∀ line ∈ added, ∃ a ∈ more, refreshLine files algorithm a.path = .ok line
  twice : ∀ more, Fresh s more →
    (refreshed files (refreshed files (s.register files more))).sums p =
      (refreshed files (s.register files more)).sums p

/-- The refresh stops before it gets to `p`: a file cannot be hashed. -/
def Stops (files : Files Path) (s : Dist Path) (p : Path) : Prop :=
  ∃ c ∈ upTo p (s.registry.artifacts.filterMap combinedFile),
    ∃ q ∈ refreshSubjects files s.registry.artifacts c.crateName,
      ∀ h, files.hashFile c.algorithm q ≠ .ok h

/-- Under every name, the sources of the stage and the subjects of the refresh have the same
digests in the same order. -/
def SameDigests (env : Env Path) (cfg : ResolvedChecksumConfig Path) (dist : Path)
    (crateName : Text) (s : Dist Path) : Prop :=
  ∀ sources, collectSourceArtifacts env cfg dist crateName s.registry.artifacts = .ok sources →
    ∀ n, digests (fun a => env.hashFile cfg.algorithm a.path) (resolveChecksumDisplayName env cfg)
        sources n =
      digests (env.hashFile cfg.algorithm) (fun q => .ok (refreshName env.toFiles q))
        (refreshSubjects env.toFiles s.registry.artifacts crateName) n

theorem refreshed_sums (s : Dist Path) (p : Path) : (refreshed files s).sums p =
    (rewritten files s.registry.artifacts p
      (s.registry.artifacts.filterMap combinedFile)).or (s.sums p) :=
  rewriteAll_sums (nodup_combinedFiles s.registry) s.sums

/-- The refresh writes what it would write again. -/
theorem refreshed_twice (s : Dist Path) (p : Path) :
    (refreshed files (refreshed files s)).sums p = (refreshed files s).sums p := by
  have hregistry : (refreshed files s).registry = s.registry := rfl
  rw [refreshed_sums, hregistry, refreshed_sums]
  cases rewritten files s.registry.artifacts p (s.registry.artifacts.filterMap combinedFile) <;>
    simp

/-- What is registered later adds its lines to a file that the refresh leaves as it is. -/
theorem adds_of_unchanged {algorithm : Text} {crateName : Text}
    (hmem : ⟨p, algorithm, crateName⟩ ∈ s.registry.artifacts.filterMap combinedFile)
    (hsame : (refreshed files s).sums p = s.sums p) (hlines : s.sums p = some lines)
    {more : List (Artifact Path)} (hmore : Fresh s more) : ∃ lines' added,
      (refreshed files (s.register files more)).sums p = some lines' ∧
        lines'.Perm (lines ++ added) ∧
        ∀ line ∈ added, ∃ a ∈ more, refreshLine files algorithm a.path = .ok line := by
  have hpath : p ∈ (s.registry.artifacts.filterMap combinedFile).map CombinedFile.path :=
    List.mem_map_of_mem hmem
  obtain ⟨extra, hextra, hfrom⟩ := @foldl_addArtifact Path _ files s.registry.artifacts [] more hmore
  rw [List.append_nil] at hextra
  have hartifacts : (s.register files more).registry.artifacts = s.registry.artifacts ++ extra :=
    (artifacts_addAll s.registry more).trans hextra
  have hsums : (s.register files more).sums p = some lines := hlines
  rw [refreshed_sums, hartifacts, hsums, List.filterMap_append, rewritten_append hpath]
  cases hw : rewritten files (s.registry.artifacts ++ extra) p
      (s.registry.artifacts.filterMap combinedFile) with
  | none => exact ⟨lines, [], rfl, by simp, by simp⟩
  | some lines' =>
    obtain ⟨c, hc, own, added, hcp, hown, hperm, hadded⟩ := rewritten_append_artifacts hw
    rw [refreshed_sums, hown, hlines, Option.some_or, Option.some.injEq] at hsame
    subst hsame
    refine ⟨lines', added, rfl, hperm, ?_⟩
    intro line hline
    obtain ⟨q, hq, hl⟩ := hadded line hline
    have hcalg : c.algorithm = algorithm := by
      have hnodup := nodup_combinedFiles s.registry
      have := List.inj_on_of_nodup_map hnodup hc hmem hcp
      rw [this]
    obtain ⟨b, hb, rfl⟩ := List.mem_map.mp hq
    obtain h | ⟨a, ha, hba⟩ := hfrom b (List.mem_filter.mp hb).1
    · simp at h
    · exact ⟨a, ha, by rw [← hba, ← hcalg]; exact hl⟩

theorem checksumStage_ok {p : Path} (h : checksumStage env cfg dist crateName s = .ok (some (p, s'))) :
    ∃ sources entries, cfg.algorithm ∈ supportedAlgorithms ∧
      collectSourceArtifacts env cfg dist crateName s.registry.artifacts = .ok sources ∧
      sources.mapM (hashSource env cfg) = .ok entries ∧
      s' =
        { registry := (s.registry.propagateChecksumMetadata cfg.algorithm
              ((sources.map (·.path)).zip (entries.map (·.1)))).add env.toFiles
            (combinedArtifact env cfg crateName p)
          sums := writeLines s.sums p (StableSort.sortBy sortKey (entries.map (·.2))) } := by
  unfold checksumStage validateAlgorithm at h
  split at h
  · next hvalid =>
    cases hsources : collectSourceArtifacts env cfg dist crateName s.registry.artifacts with
    | error e => simp [hsources, bind, Except.bind] at h
    | ok sources =>
      by_cases hempty : sources = []
      · simp [hsources, hempty, bind, Except.bind, pure, Except.pure] at h
      · cases hentries : sources.mapM (hashSource env cfg) with
        | error e =>
          simp [hsources, hempty, hashSources, hentries, bind, Except.bind] at h
        | ok entries =>
          cases hname : withContext ("checksum: render name_template for ".toList ++ crateName)
              (env.render [] (cfg.nameTemplate.getD defaultNameTemplate)) with
          | error e =>
            simp only [hsources, hempty, hashSources, hentries, hname, bind, Except.bind, pure,
              Except.pure, if_false, reduceCtorEq] at h
          | ok name =>
            simp only [hsources, hempty, hashSources, hentries, hname, bind, Except.bind, pure,
              Except.pure, if_false, Except.ok.injEq, Option.some.injEq, Prod.mk.injEq] at h
            obtain ⟨rfl, rfl⟩ := h
            exact ⟨sources, entries, hvalid, rfl, hentries, rfl⟩
  · simp [bind, Except.bind] at h

omit [DecidableEq Path] in
theorem checksumLine_of_hashSource {e : Text × Text} (h : hashSource env cfg a = .ok e) :
    checksumLine (env.hashFile cfg.algorithm a.path) (resolveChecksumDisplayName env cfg a) =
      .ok e.2 := by
  unfold hashSource at h
  cases hh : computeArtifactHash env cfg a with
  | error e => simp [hh, bind, Except.bind] at h
  | ok hash =>
    cases hn : resolveChecksumDisplayName env cfg a with
    | error e => simp [hh, hn, bind, Except.bind] at h
    | ok name =>
      obtain rfl : (hash, formatChecksumLine hash name) = e := by
        simpa [hh, hn, bind, Except.bind, pure, Except.pure] using h
      rw [withContext_ok.mp hh]
      rfl

/-- After the stage the refresh only adds to the combined file exactly when it stops before the
file, or both list the same digests under every name. -/
theorem onlyAdds_iff {p : Path} (hcrate : ∀ a ∈ s.registry.artifacts, a.crateName = crateName)
    (hrun : checksumStage env cfg dist crateName s = .ok (some (p, s'))) :
    OnlyAdds env.toFiles cfg.algorithm s' p ↔
      Stops env.toFiles s' p ∨ SameDigests env cfg dist crateName s := by
  obtain ⟨sources, entries, hvalid, hsources, hentries, hs'⟩ := checksumStage_ok hrun
  have hsubjects : refreshSubjects env.toFiles s'.registry.artifacts crateName =
      refreshSubjects env.toFiles s.registry.artifacts crateName := by
    rw [hs']
    exact (refreshSubjects_addArtifact (a := combinedArtifact env cfg crateName p) rfl).trans
      (refreshSubjects_propagateChecksum hvalid _ _)
  have hmem : ⟨p, cfg.algorithm, crateName⟩ ∈ s'.registry.artifacts.filterMap combinedFile := by
    rw [hs']
    apply mem_combinedFiles
    intro b hb
    obtain ⟨a, ha, rfl⟩ := List.mem_map.mp hb
    rw [crateName_propagateChecksum, hcrate a ha]
  have hlines : s'.sums p = some (StableSort.sortBy sortKey (entries.map (·.2))) := by
    rw [hs']
    exact if_pos rfl
  have hline : sources.mapM (fun a => checksumLine (env.hashFile cfg.algorithm a.path)
      (resolveChecksumDisplayName env cfg a)) = .ok (entries.map (·.2)) :=
    mapM_ok_map (·.2) (fun a e => checksumLine_of_hashSource) hentries
  have hpath : p ∈ (s'.registry.artifacts.filterMap combinedFile).map CombinedFile.path :=
    List.mem_map_of_mem hmem
  have hunchanged : (refreshed env.toFiles s').sums p = s'.sums p ↔
      Stops env.toFiles s' p ∨ SameDigests env cfg dist crateName s := by
    rw [refreshed_sums, hlines]
    cases hw : rewritten env.toFiles s'.registry.artifacts p
        (s'.registry.artifacts.filterMap combinedFile) with
    | none =>
      have hstops : Stops env.toFiles s' p := (rewritten_eq_none hpath).mp hw
      simp [hstops]
    | some lines =>
      have hstops : ¬Stops env.toFiles s' p := by
        intro h
        have hnone := (rewritten_eq_none hpath).mpr h
        simp [hw] at hnone
      obtain ⟨c, hc, hcp, hr⟩ := exists_of_rewritten hw
      obtain rfl := List.inj_on_of_nodup_map (nodup_combinedFiles s'.registry) hc hmem hcp
      unfold refreshedLines at hr
      rw [hsubjects] at hr
      cases hm : (refreshSubjects env.toFiles s.registry.artifacts crateName).mapM
          (refreshLine env.toFiles cfg.algorithm) with
      | error e => simp [hm, bind, Except.bind] at hr
      | ok all =>
        obtain rfl : StableSort.sortBy sortKey all = lines := by
          simpa [hm, bind, Except.bind, pure, Except.pure] using hr
        have hsame := sortBy_eq_iff (fun a h => env.hex_of_hashFile) (fun q h => env.hex_of_hashFile)
          hline hm
        rw [Option.some_or, Option.some.injEq, eq_comm, hsame, SameDigests, hsources]
        simp only [hstops, false_or, Except.ok.injEq, forall_eq']
  constructor
  · intro h
    exact hunchanged.mp h.unchanged
  · intro h
    have hsame := hunchanged.mpr h
    exact ⟨hsame, fun more hmore lines hl => adds_of_unchanged hmem hsame hl hmore,
      fun more _ => refreshed_twice _ p⟩

end Stage

/-! ### A run -/

/-- Two files in the working directory. -/
def sampleEnv : Env Text where
  fileName p := some p
  display p := p
  present p := p ∈ ["app.tar.gz".toList, "notes.txt".toList]
  hashFile _ p :=
    if p ∈ ["app.tar.gz".toList, "notes.txt".toList] then .ok "c0ffee".toList
    else .error "No such file or directory".toList
  present_of_hashFile := by
    intro _ p _ h
    split at h
    · next hp => simpa using hp
    · simp at h
  hex_of_hashFile := by
    intro _ p h hh
    split at hh
    · obtain rfl := Except.ok.inj hh
      decide
    · simp at hh
  render _ tmpl := .ok tmpl
  join _ name := name
  pathLe p q := p ≤ q
  glob pattern := .ok [.ok pattern]
  isFile _ := true
  readToString _ := .error "No such file or directory".toList
  install _ _ _ := .ok ()

def sampleConfig (extraFiles : Option (List ExtraFileSpec)) : ResolvedChecksumConfig Text where
  algorithm := "sha256".toList
  nameTemplate := some "checksums.txt".toList
  extraFiles := extraFiles
  templatedExtraFiles := none
  idsFilter := none

def sampleArchive : Artifact Text where
  kind := .archive
  name := "app.tar.gz".toList
  path := "app.tar.gz".toList
  target := none
  crateName := "app".toList
  metadata := []
  size := none

def sampleDist : Dist Text where
  registry := { artifacts := [sampleArchive], once := List.pairwise_singleton _ _ }
  sums _ := none

def sampleRun (extraFiles : Option (List ExtraFileSpec)) : Option (Text × Dist Text) :=
  (checksumStage sampleEnv (sampleConfig extraFiles) [] "app".toList sampleDist).toOption.join

def plainRun : Text × Dist Text := (sampleRun none).get (by decide)

def notes : List ExtraFileSpec := [⟨"notes.txt".toList, none⟩]

def notesRun : Text × Dist Text := (sampleRun (some notes)).get (by decide)

theorem onlyAdds_sample : OnlyAdds sampleEnv.toFiles "sha256".toList plainRun.2 plainRun.1 := by
  have hrun : checksumStage sampleEnv (sampleConfig none) [] "app".toList sampleDist =
      .ok (some (plainRun.1, plainRun.2)) := rfl
  refine (onlyAdds_iff (by decide) hrun).mpr (.inr ?_)
  intro sources hsources n
  obtain rfl : [sampleArchive] = sources := Except.ok.inj hsources
  have hsubjects : refreshSubjects sampleEnv.toFiles sampleDist.registry.artifacts "app".toList =
      ["app.tar.gz".toList] := by decide
  have hshown : resolveChecksumDisplayName sampleEnv (sampleConfig none) sampleArchive =
      .ok "app.tar.gz".toList := rfl
  have hname : refreshName sampleEnv.toFiles "app.tar.gz".toList = "app.tar.gz".toList := rfl
  rw [hsubjects, digests, digests, List.filter_singleton, List.filter_singleton, hshown, hname]
  cases decide ((Except.ok "app.tar.gz".toList : Except Text Text).toOption = some n) <;> rfl

/-- The line of an extra file is lost. -/
theorem not_onlyAdds : ¬∀ (env : Env Text) (cfg : ResolvedChecksumConfig Text)
    (dist crateName p : Text) (s s' : Dist Text),
    (∀ a ∈ s.registry.artifacts, a.crateName = crateName) →
      checksumStage env cfg dist crateName s = .ok (some (p, s')) →
        OnlyAdds env.toFiles cfg.algorithm s' p := by
  intro h
  have hadds := h sampleEnv (sampleConfig (some notes)) [] "app".toList notesRun.1 sampleDist
    notesRun.2 (by decide) rfl
  have hlost : (refreshed sampleEnv.toFiles notesRun.2).sums notesRun.1 ≠
      notesRun.2.sums notesRun.1 := by decide
  exact hlost hadds.unchanged

end Checksum

end Anodizer
