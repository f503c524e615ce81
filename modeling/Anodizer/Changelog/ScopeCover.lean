import Anodizer.Changelog.Scope

/-! # When the filter may be skipped

A path that covers a directory by its text matches every file of it, if it is a literal path without
a slash at its end, or a valid pattern without brackets that ends in one of the suffixes.
-/

namespace Anodizer.Changelog.Scope

open Template (Text)

def belowSuffixes : List Text := ["/**".toList, "/**/*".toList, "/*".toList]

/-- What is documented of patterns: stars match across directories, and each character of a valid
pattern without brackets matches itself. -/
structure GlobPattern (pattern : Text → Option (Text → Bool)) : Prop where
  everything : ∃ m, pattern "**".toList = some m ∧ ∀ file, m file
  below : ∀ {base suffix m} (rest : Text), '[' ∉ base → suffix ∈ belowSuffixes →
    pattern (base ++ suffix) = some m → m (base ++ '/' :: rest)

/-- A file of a directory, or a manifest. -/
inductive FileOf (dir : Text) : Text → Prop
  | below (rest : Text) : FileOf dir (trimEndSlashes dir ++ '/' :: rest)
  | manifest : dir ∈ workspaceManifests → FileOf dir dir

/-- The directory does not start with a space. -/
def Unpadded (dir : Text) : Prop := Template.trimStart (trimEndSlashes dir) = trimEndSlashes dir

/-- An entry matches every file of a directory. -/
inductive Covers (pattern : Text → Option (Text → Bool)) (dir entry : Text) : Prop
  | repository : normalizeDir entry = none → Covers pattern dir entry
  | everything : normalizeDir entry = some "**".toList → Covers pattern dir entry
  | literal {p : Text} : normalizeDir entry = some p → Unpadded dir → isIn (trimEndSlashes dir) p →
    Covers pattern dir entry
  | wildcard {base suffix : Text} : normalizeDir entry = some (base ++ suffix) → Unpadded dir →
    isIn (trimEndSlashes dir) base → suffix ∈ belowSuffixes → '[' ∉ base →
    (pattern (base ++ suffix)).isSome → dir ∉ workspaceManifests → Covers pattern dir entry

def IsLiteral (p : Text) : Prop := ∀ c ∈ "*?[".toList, c ∉ p

instance (p : Text) : Decidable (IsLiteral p) :=
  inferInstanceAs (Decidable (∀ c ∈ "*?[".toList, c ∉ p))

variable {pattern : Text → Option (Text → Bool)} {dir path entry file p rest : Text}

/-! ### Paths -/

theorem not_prefix_trimDotSlash (s : Text) : ¬ ['.', '/'] <+: trimDotSlash s := by
  fun_induction trimDotSlash s with
  | case1 s ih => exact ih
  | case2 s hs =>
    rintro ⟨t, ht⟩
    exact hs t ht.symm

theorem trimDotSlash_eq_self {s : Text} (h : ¬ ['.', '/'] <+: s) : trimDotSlash s = s := by
  rw [trimDotSlash.eq_2]
  rintro t rfl
  exact h ⟨t, rfl⟩

theorem normalizeDir_eq_some (h : normalizeDir path = some dir) :
    dir ≠ [] ∧ dir ≠ ['.'] ∧ subject path = dir := by
  rw [normalizeDir] at h
  split at h
  · cases h
  · next hne =>
    obtain rfl := Option.some.inj h
    exact ⟨fun h => hne (.inl h), fun h => hne (.inr h), rfl⟩

theorem normalizeDir_eq_none (h : normalizeDir path = none) :
    subject path = [] ∨ subject path = ['.'] := by
  by_contra hne
  rw [normalizeDir, if_neg hne] at h
  cases h

/-- A normalized directory does not start with a step to the current one. -/
theorem not_prefix_below (h : normalizeDir path = some dir) (rest : Text) :
    ¬ ['.', '/'] <+: trimEndSlashes dir ++ '/' :: rest := by
  obtain ⟨-, hdot, rfl⟩ := normalizeDir_eq_some h
  have hpre := not_prefix_trimDotSlash (Template.trim path)
  have hcut : trimEndSlashes (subject path) ++ (subject path).rtakeWhile (· = '/') = subject path :=
    List.rdropWhile_append_rtakeWhile
  rintro ⟨t, ht⟩
  rcases hs : trimEndSlashes (subject path) with _ | ⟨a, _ | ⟨b, s⟩⟩
  · rw [hs] at ht
    cases ht
  · -- a single dot, with slashes behind it
    rw [hs] at ht hcut
    obtain ⟨rfl, -⟩ := List.cons.inj ht
    cases htail : (subject path).rtakeWhile (· = '/') with
    | nil =>
      rw [htail] at hcut
      exact hdot hcut.symm
    | cons c cs =>
      have hc : c = '/' := by
        simpa using List.mem_rtakeWhile_imp (p := fun x => decide (x = '/'))
          (htail ▸ List.mem_cons_self : c ∈ (subject path).rtakeWhile (· = '/'))
      rw [htail, hc] at hcut
      exact hpre ⟨cs, hcut⟩
  · rw [hs] at ht hcut
    obtain ⟨ha, hb⟩ := List.cons.inj ht
    rw [← ha, ← (List.cons.inj hb).1] at hcut
    exact hpre ⟨_, hcut⟩

/-- A file of a directory is read as such. -/
theorem subject_below (h : normalizeDir path = some dir) (hpad : Unpadded dir) (rest : Text) :
    subject (trimEndSlashes dir ++ '/' :: rest) = trimEndSlashes dir ++ '/' :: trimEnd rest := by
  have hstart : (trimEndSlashes dir ++ '/' :: rest).dropWhile Template.isWhitespace =
      trimEndSlashes dir ++ '/' :: rest := by
    rw [List.dropWhile_append]
    split
    · next hnil =>
      have hdir : trimEndSlashes dir = [] := by
        rw [← hpad]
        exact List.isEmpty_iff.mp hnil
      rw [hdir]
      rfl
    · rw [show (trimEndSlashes dir).dropWhile Template.isWhitespace = trimEndSlashes dir from hpad]
  have htrim : Template.trim (trimEndSlashes dir ++ '/' :: rest) =
      trimEndSlashes dir ++ '/' :: trimEnd rest := by
    rw [show Template.trim _ = trimEnd (List.dropWhile Template.isWhitespace _) from rfl, hstart]
    exact trimEnd_append _ _ (by decide)
  rw [subject, htrim]
  exact trimDotSlash_eq_self (not_prefix_below h _)

theorem isIn_iff : isIn path dir ↔ path = dir ∨ ∃ rest, path = dir ++ '/' :: rest := by
  rw [isIn, Bool.or_eq_true, decide_eq_true_eq, List.isPrefixOf_iff_prefix]
  refine or_congr_right ⟨fun ⟨rest, h⟩ => ⟨rest, ?_⟩, fun ⟨rest, h⟩ => ⟨rest, ?_⟩⟩
  · rw [← h, List.append_assoc]
    rfl
  · rw [h, List.append_assoc]
    rfl

/-- What lies below a directory lies below the ones above it. -/
theorem below_of_isIn (h : isIn dir p) (rest : Text) :
    ∃ rest', dir ++ '/' :: rest = p ++ '/' :: rest' := by
  rcases isIn_iff.mp h with rfl | ⟨mid, rfl⟩
  · exact ⟨rest, rfl⟩
  · exact ⟨mid ++ '/' :: rest, by simp⟩

theorem manifest_spec (h : dir ∈ workspaceManifests) :
    subject dir = dir ∧ trimEndSlashes dir = dir := by
  revert dir
  decide

/-! ### Covering -/

theorem subject_of_normalizeDir (h : normalizeDir path = some dir) : subject path = dir :=
  (normalizeDir_eq_some h).2.2

theorem pathMatchesGlob_of_isIn (h : isIn (subject file) (subject entry)) :
    pathMatchesGlob pattern entry file := by
  rw [pathMatchesGlob, h, Bool.or_true]

theorem pathMatchesGlob_of_pattern {m : Text → Bool} (h : pattern (subject entry) = some m)
    (hm : m (subject file)) : pathMatchesGlob pattern entry file := by
  rw [pathMatchesGlob, h, Option.any_some, hm, Bool.or_true, Bool.true_or]

/-- An entry that covers a directory matches each file of it. -/
theorem Covers.matches (hglob : GlobPattern pattern) (h : Covers pattern dir entry)
    (hdir : normalizeDir path = some dir) (hfile : FileOf dir file) :
    pathMatchesGlob pattern entry file := by
  cases h with
  | repository hentry =>
    rw [pathMatchesGlob]
    rcases normalizeDir_eq_none hentry with h | h <;> simp [h]
  | everything hentry =>
    obtain ⟨m, hm, hall⟩ := hglob.everything
    rw [← subject_of_normalizeDir hentry] at hm
    exact pathMatchesGlob_of_pattern hm (hall _)
  | literal hentry hpad hin =>
    refine pathMatchesGlob_of_isIn ?_
    rw [subject_of_normalizeDir hentry]
    cases hfile with
    | below rest =>
      rw [subject_below hdir hpad]
      obtain ⟨rest', hrest⟩ := below_of_isIn hin (trimEnd rest)
      exact isIn_iff.mpr (.inr ⟨rest', hrest⟩)
    | manifest hman =>
      obtain ⟨hsub, htrim⟩ := manifest_spec hman
      rw [htrim] at hin
      rwa [hsub]
  | @wildcard base suffix hentry hpad hin hsuffix hbase hvalid hman =>
    cases hfile with
    | manifest h => exact absurd h hman
    | below rest =>
      obtain ⟨m, hm⟩ := Option.isSome_iff_exists.mp hvalid
      rw [← subject_of_normalizeDir hentry] at hm
      refine pathMatchesGlob_of_pattern hm ?_
      rw [subject_below hdir hpad]
      obtain ⟨rest', hrest⟩ := below_of_isIn hin (trimEnd rest)
      rw [hrest]
      rw [subject_of_normalizeDir hentry] at hm
      exact hglob.below rest' hbase hsuffix hm

/-! ### The scope -/

theorem mem_crateDirs {allCrateDirs : List Text} (h : dir ∈ crateDirs allCrateDirs) :
    ∃ path, normalizeDir path = some dir := by
  have hgen : ∀ (l dirs : List Text), dir ∈ l.foldl
      (fun dirs d => if d ∈ dirs then dirs else dirs ++ [d]) dirs → dir ∈ dirs ∨ dir ∈ l := by
    intro l
    induction l with
    | nil => exact fun dirs h => .inl h
    | cons d l ih =>
      intro dirs h
      by_cases hd : d ∈ dirs
      · rw [List.foldl_cons, if_pos hd] at h
        exact (ih dirs h).imp_right (List.mem_cons_of_mem d)
      · rw [List.foldl_cons, if_neg hd] at h
        rcases ih _ h with h | h
        · rcases List.mem_append.mp h with h | h
          · exact .inl h
          · exact .inr (List.mem_cons.mpr (.inl (List.mem_singleton.mp h)))
        · exact .inr (List.mem_cons_of_mem d h)
  rcases hgen _ _ h with h | h
  · cases h
  · obtain ⟨path, -, hpath⟩ := List.mem_filterMap.mp h
    exact ⟨path, hpath⟩

/-- The directories of a scope are normalized. -/
theorem mem_derivedDirs {cratePath : Text} {allCrateDirs : List Text} {monorepoDir : Option Text}
    (h : dir ∈ derivedDirs cratePath allCrateDirs monorepoDir) :
    ∃ path, normalizeDir path = some dir := by
  have hagg : dir ∈ aggregateDirs allCrateDirs monorepoDir → ∃ path, normalizeDir path = some dir := by
    intro h
    rw [aggregateDirs] at h
    split at h
    · obtain ⟨mono, -, hmono⟩ := Option.bind_eq_some_iff.mp (Option.mem_toList.mp h)
      exact ⟨mono, hmono⟩
    · rcases List.mem_append.mp h with h | h
      · exact mem_crateDirs h
      · have hall : ∀ d ∈ workspaceManifests, normalizeDir d = some d := by decide
        exact ⟨dir, hall dir h⟩
  rw [derivedDirs] at h
  split at h
  · next d hd =>
    split at h
    · exact hagg h
    · obtain rfl := List.mem_singleton.mp h
      exact ⟨cratePath, hd⟩
  · exact hagg h

/-- All directories are covered, by the comparison of texts. -/
def AllCovered (derived entries : List Text) : Prop :=
  derived ≠ [] ∧ ∀ d ∈ derived, dirCoveredBy d entries

theorem resolveNarrow_of_covered {derived changelogPaths : List Text}
    (h : AllCovered derived (nonBlank changelogPaths)) : resolveNarrow derived changelogPaths = none := by
  rw [resolveNarrow]
  simp only [if_neg h.1]
  split
  · rfl
  · rw [if_pos (List.all_eq_true.mpr h.2)]

theorem resolveNarrow_of_not_covered {derived changelogPaths : List Text}
    (h : ¬ AllCovered derived (nonBlank changelogPaths)) (hne : nonBlank changelogPaths ≠ []) :
    resolveNarrow derived changelogPaths = some (nonBlank changelogPaths) := by
  rw [resolveNarrow]
  simp only [if_neg hne]
  split
  · rfl
  · next hderived => rw [if_neg fun hall => h ⟨hderived, List.all_eq_true.mp hall⟩]

/-- A file of a directory that an entry names, or any file where it names the repository. -/
def Names (entry file : Text) : Prop :=
  ∀ p, normalizeDir entry = some p → IsLiteral p ∧ ∃ rest, file = trimEndSlashes p ++ '/' :: rest

/-- The filter is skipped only where it would keep every file, and it keeps what a literal entry
names. -/
structure Exact (pattern : Text → Option (Text → Bool)) (scope : ChangelogScope)
    (changelogPaths : List Text) : Prop where
  skip : scope.narrow = none → nonBlank changelogPaths ≠ [] → ∀ dir ∈ scope.dirs, ∀ file,
    FileOf dir file → ∃ entry ∈ nonBlank changelogPaths, pathMatchesGlob pattern entry file
  keep : ∀ entry ∈ nonBlank changelogPaths, ∀ file, Names entry file → ∀ touchedFiles,
    file ∈ touchedFiles → commitSurvivesNarrow pattern scope touchedFiles

/-- Where all directories are covered, some entry covers each of them as a pattern too. Elsewhere
some entry covers each directory that is named by a literal entry. -/
structure CoversAgree (pattern : Text → Option (Text → Bool)) (derived entries : List Text) :
    Prop where
  skip : AllCovered derived entries → ∀ dir ∈ derived, ∃ entry ∈ entries, Covers pattern dir entry
  keep : ¬ AllCovered derived entries → ∀ entry ∈ entries, ∀ p, normalizeDir entry = some p →
    IsLiteral p → ∃ entry' ∈ entries, Covers pattern p entry'

theorem exact_of_coversAgree (hglob : GlobPattern pattern) {cratePath : Text}
    {allCrateDirs changelogPaths : List Text} {monorepoDir : Option Text}
    (h : CoversAgree pattern (derivedDirs cratePath allCrateDirs monorepoDir)
      (nonBlank changelogPaths)) :
    Exact pattern (resolveChangelogScope cratePath allCrateDirs monorepoDir changelogPaths)
      changelogPaths := by
  by_cases hall : AllCovered (derivedDirs cratePath allCrateDirs monorepoDir)
    (nonBlank changelogPaths)
  · have hnone := resolveNarrow_of_covered hall
    constructor
    · intro _ _ dir hdir file hfile
      obtain ⟨entry, hentry, hcovers⟩ := h.skip hall dir hdir
      obtain ⟨path, hpath⟩ := mem_derivedDirs hdir
      exact ⟨entry, hentry, hcovers.matches hglob hpath hfile⟩
    · intro entry _ file _ touchedFiles _
      simp only [commitSurvivesNarrow, resolveChangelogScope, hnone]
  · constructor
    · intro hnone hne
      rw [resolveChangelogScope, resolveNarrow_of_not_covered hall hne] at hnone
      cases hnone
    · intro entry hentry file hnames touchedFiles hfile
      have hsome := resolveNarrow_of_not_covered hall (List.ne_nil_of_mem hentry)
      have hmatch : ∃ entry' ∈ nonBlank changelogPaths, pathMatchesGlob pattern entry' file := by
        cases hp : normalizeDir entry with
        | none =>
          refine ⟨entry, hentry, ?_⟩
          rw [pathMatchesGlob]
          rcases normalizeDir_eq_none hp with h | h <;> simp [h]
        | some p =>
          obtain ⟨hlit, rest, rfl⟩ := hnames p hp
          obtain ⟨entry', hentry', hcovers⟩ := h.keep hall entry hentry p hp hlit
          exact ⟨entry', hentry', hcovers.matches hglob hp (.below rest)⟩
      simp only [commitSurvivesNarrow, resolveChangelogScope, hsome]
      exact List.any_eq_true.mpr ⟨file, hfile, List.any_eq_true.mpr hmatch⟩

/-! ### Two paths -/

/-- A pattern that has a suffix matches what is below its base, and another one only itself. -/
def belowPattern (p : Text) : Option (Text → Bool) :=
  some fun file => p = "**".toList || file = p ||
    belowSuffixes.any fun suffix => (stripSuffix suffix p).any fun base =>
      (base ++ ['/']).isPrefixOf file

theorem stripSuffix_append (base suffix : Text) : stripSuffix suffix (base ++ suffix) = some base := by
  rw [stripSuffix, if_pos (List.isSuffixOf_iff_suffix.mpr (List.suffix_append _ _)),
    List.length_append, Nat.add_sub_cancel, List.take_left']
  rfl

theorem globPattern_belowPattern : GlobPattern belowPattern where
  everything := ⟨_, rfl, fun _ => rfl⟩
  below := by
    intro base suffix m rest _ hsuffix hm
    obtain rfl := Option.some.inj hm
    simp only [Bool.or_eq_true, List.any_eq_true]
    refine .inr ⟨suffix, hsuffix, ?_⟩
    rw [stripSuffix_append, Option.any_some, List.isPrefixOf_iff_prefix]
    exact ⟨rest, by simp⟩

def twoCrates : List Text := ["crates/core".toList, "crates/cli".toList]

theorem exact_belowCrates : Exact belowPattern
    (resolveChangelogScope "crates/core".toList twoCrates none ["crates/**".toList])
    ["crates/**".toList] := by
  refine exact_of_coversAgree globPattern_belowPattern ⟨fun _ => ?_, fun h => ?_⟩
  · have hdirs : derivedDirs "crates/core".toList twoCrates none = ["crates/core".toList] := by decide
    rw [hdirs]
    rintro dir hdir
    obtain rfl := List.mem_singleton.mp hdir
    refine ⟨"crates/**".toList, by decide, ?_⟩
    exact @Covers.wildcard _ _ _ "crates".toList "/**".toList (by decide) (by rfl) (by decide)
      (by decide) (by decide) (by rfl) (by decide)
  · exact absurd ⟨by decide, by decide⟩ h

/-- The entry has a slash at its end, and no file is below it. -/
theorem endSlash_drops : ¬ Exact belowPattern
    (resolveChangelogScope "crates/core".toList twoCrates none ["crates/".toList])
    ["crates/".toList] := by
  intro h
  have hnames : Names "crates/".toList "crates/core/lib.rs".toList := by
    intro p hp
    obtain rfl : "crates/".toList = p := Option.some.inj hp
    have htrim : trimEndSlashes "crates/".toList = "crates".toList := by decide
    exact ⟨by simp [IsLiteral], "core/lib.rs".toList, by rw [htrim]; rfl⟩
  have hkept := h.keep _ (by decide) _ hnames ["crates/core/lib.rs".toList] (by decide)
  revert hkept
  decide

end Anodizer.Changelog.Scope
