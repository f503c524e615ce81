import Anodizer.Changelog.MergeParts

/-! # Merging in place

A merge that can be repeated, keeps the bytes around the section and links the tag of the
version. Each of the three comes down to a property of the file and of the release.
-/

namespace Anodizer.Changelog

open Git
open Template (Text CharTables)

variable {u : CharTables} {r : CrateRelease} {x y t p base tag tag' : Text} {v : SemVer}
  {ls ls' : List Text}

/-! ### Behind the title -/

/-- The blank line at the start of some lines. -/
def leadingBlank (ls : List Text) : List Text := (ls.head?.filter isBlank).toList

/-- The file with a section behind the title and the blank line after it. -/
def CrateRelease.splicedIn (r : CrateRelease) (x : Text) (ls : List Text) : Text :=
  match cutAfter isTitle ls with
  | none => r.h1 ++ "\n\n".toList ++ r.newSection ++ '\n' :: x
  | some (head, tail) =>
    unlines (head ++ leadingBlank tail) ++ r.newSection ++
      '\n' :: unlines (tail.drop (leadingBlank tail).length)

theorem Reread.title {line line' : Text} (h : Reread line line') : isTitle line = isTitle line' := by
  rcases h with rfl | rfl
  · rfl
  · rcases stripCr_cases line with h | h
    · rw [h]
    · generalize Lines.stripCr line = s at h
      rw [h, isTitle, isTitle, isPrefixOf_cr (by decide)]

theorem cutAfter_reread (h : List.Forall₂ Reread ls ls') :
    Option.Rel (fun p q => List.Forall₂ Reread p.1 q.1 ∧ List.Forall₂ Reread p.2 q.2)
      (cutAfter isTitle ls) (cutAfter isTitle ls') := by
  induction h with
  | nil => exact .none
  | @cons line line' ls ls' hline htail ih =>
    rw [cutAfter, cutAfter, hline.title]
    split
    · exact .some ⟨.cons hline .nil, htail⟩
    · cases hls : cutAfter isTitle ls with
      | none =>
        rw [hls] at ih
        generalize cutAfter isTitle ls' = cut at ih
        cases ih
        exact .none
      | some cut =>
        rw [hls] at ih
        generalize cutAfter isTitle ls' = cut' at ih
        cases ih with
        | some hcut => exact .some ⟨.cons hline hcut.1, hcut.2⟩

theorem cutAfter_append {p : Text → Bool} {head tail : List Text}
    (h : cutAfter p ls = some (head, tail)) : ls = head ++ tail := by
  rcases cutAfter_cases (p := p) ls with ⟨hnone, -⟩ | ⟨init, a, rest, hsome, hls, -⟩
  · rw [hnone] at h
    cases h
  · rw [hsome] at h
    obtain ⟨rfl, rfl⟩ := Prod.mk.inj (Option.some.inj h)
    simpa using hls

theorem newline_notMem_spelled {line : Text} (h : line ∈ Lines.spelled x) : '\n' ∉ line := by
  simp only [Lines.spelled, List.mem_append, List.mem_filter, Option.mem_toList] at h
  rcases h with h | ⟨h, -⟩
  · exact Lines.not_mem_of_mem_splitOn (List.dropLast_subset _ h)
  · exact Lines.not_mem_of_mem_splitOn (List.mem_of_getLast? h)

/-- The text behind the title, with the blank line there as it is written again. -/
theorem unlines_splice_iff {head head' tail tail' : List Text}
    (hhead : List.Forall₂ Reread head head') (htail : List.Forall₂ Reread tail tail')
    (hline : ∀ line ∈ tail, '\n' ∉ line) (s : Text) :
    unlines (head ++ leadingBlank tail) ++ s ++
        '\n' :: unlines (tail.drop (leadingBlank tail).length) =
      unlines head' ++ (if tail'.head?.any isBlank then ['\n'] else []) ++ s ++
        '\n' :: unlines (if tail'.head?.any isBlank then tail'.tail else tail') ↔
    head ++ tail = head' ++ tail' ∧ ∀ line ∈ leadingBlank tail, line = [] := by
  have happend : ∀ ls ls' : List Text, unlines (ls ++ ls') = unlines ls ++ unlines ls' :=
    fun _ _ => List.flatMap_append
  cases htail with
  | nil =>
    simp only [leadingBlank, List.append_nil, List.head?_nil, Option.any_none, Bool.false_eq_true,
      if_false, List.append_assoc, Option.filter_none, Option.toList_none, List.not_mem_nil,
      false_implies, implies_true, and_true, List.drop_nil]
    exact ⟨fun heq => (eq_of_unlines hhead heq).1, fun heq => by rw [heq]⟩
  | @cons line line' tail tail' hread htail =>
    rw [List.head?_cons, Option.any_some, ← hread.isBlank]
    by_cases hblank : isBlank line
    · have hlead : leadingBlank (line :: tail) = [line] := by simp [leadingBlank, hblank]
      simp only [hlead, hblank, if_true, happend, List.append_assoc, List.tail_cons,
        List.length_singleton, List.drop_one, List.mem_singleton, forall_eq]
      have hone : unlines [line] = line ++ ['\n'] := by simp [unlines]
      rw [hone]
      constructor
      · intro heq
        obtain ⟨rfl, hrest⟩ := eq_of_unlines hhead heq
        obtain rfl : line = [] := by
          cases line with
          | nil => rfl
          | cons c line =>
            -- a blank line of a file holds no newline
            obtain ⟨rfl, -⟩ := List.cons.inj hrest
            simp at hline
        have hnil : line' = [] := by
          rcases hread with h | h
          · exact h
          · exact h
        have hunlines := (List.cons.inj (List.append_cancel_left (List.cons.inj hrest).2)).2
        rw [← List.append_nil (unlines tail), ← List.append_nil (unlines tail')] at hunlines
        rw [hnil, (eq_of_unlines htail hunlines).1]
        exact ⟨rfl, rfl⟩
      · rintro ⟨heq, rfl⟩
        obtain ⟨rfl, hrest⟩ := List.append_inj heq hhead.length_eq
        rw [(List.cons.inj hrest).2]
        rfl
    · have hlead : leadingBlank (line :: tail) = [] := by simp [leadingBlank, hblank]
      simp only [hlead, hblank, Bool.false_eq_true, if_false, List.append_nil, List.append_assoc,
        List.length_nil, List.drop_zero, List.not_mem_nil, false_implies, implies_true, and_true]
      constructor
      · intro heq
        obtain ⟨rfl, hrest⟩ := eq_of_unlines hhead heq
        have htails := (List.cons.inj (List.append_cancel_left hrest)).2
        rw [← List.append_nil (unlines (line :: tail)),
          ← List.append_nil (unlines (line' :: tail'))] at htails
        rw [(eq_of_unlines (.cons hread htail) htails).1]
      · intro heq
        obtain ⟨rfl, hrest⟩ := List.append_inj heq hhead.length_eq
        rw [hrest]

/-- No line ending is rewritten around the place behind the title. -/
def SplicesClean (x : Text) : Prop :=
  ∀ head tail, cutAfter isTitle (Lines.spelled x) = some (head, tail) →
    Lines.spelled x = Lines.lines x ∧ ∀ line ∈ leadingBlank tail, line = []

theorem splicedIn_eq_iff (r : CrateRelease) (x : Text) :
    r.splicedIn x (Lines.spelled x) = r.spliced x ↔ SplicesClean x := by
  have hcut := cutAfter_reread (reread_spelled x)
  unfold SplicesClean CrateRelease.splicedIn CrateRelease.spliced spliceAfterH1
  cases hs : cutAfter isTitle (Lines.spelled x) with
  | none =>
    rw [hs] at hcut
    generalize cutAfter isTitle (Lines.lines x) = cut at hcut
    cases hcut
    simp
  | some cut =>
    obtain ⟨head, tail⟩ := cut
    rw [hs] at hcut
    cases hl : cutAfter isTitle (Lines.lines x) with
    | none =>
      rw [hl] at hcut
      cases hcut
    | some cut' =>
      obtain ⟨head', tail'⟩ := cut'
      rw [hl] at hcut
      cases hcut with
      | some hcut =>
        have hline : ∀ line ∈ tail, '\n' ∉ line := fun line hmem => newline_notMem_spelled (x := x)
          (cutAfter_append hs ▸ List.mem_append_right _ hmem)
        have hiff := unlines_splice_iff hcut.1 hcut.2 hline r.newSection
        rw [← cutAfter_append hs, ← cutAfter_append hl] at hiff
        refine hiff.trans ⟨?_, fun h => h head tail rfl⟩
        rintro h head' tail' heq
        obtain ⟨rfl, rfl⟩ := Prod.mk.inj (Option.some.inj heq)
        exact h

/-! ### The links -/

theorem footer_inj (h : unlines (pushCompareFooter base t tag r.version) =
    unlines (pushCompareFooter base t tag' r.version)) : tag = tag' := by
  have hlength : tag.length = tag'.length := by
    have hlengths := congrArg List.length h
    simp [unlines, pushCompareFooter, unreleasedLink, link] at hlengths
    omega
  simp only [unlines, pushCompareFooter, List.flatMap_cons, List.append_assoc] at h
  have hfirst := (List.append_inj h (by simp [unreleasedLink, link, hlength])).1
  simpa [unreleasedLink, link] using hfirst

/-- The tag that is linked can be read off the file. -/
theorem join_links (block ls : List Text) :
    joinLines (withRelease block (r.linksTo ls base t tag) ls) =
      joinLines (withRelease block (r.linksTo ls base t tag') ls) ↔ tag = tag' := by
  refine ⟨fun heq => ?_, fun heq => by rw [heq]⟩
  have hne : ∀ tag, withRelease block (r.linksTo ls base t tag) ls ≠ [] := by
    simp [withRelease, CrateRelease.linksTo, pushCompareFooter]
  have hunlines := congrArg (· ++ ['\n']) heq
  simp only [← unlines_eq_join (hne _)] at hunlines
  have happend : ∀ ls ls' : List Text, unlines (ls ++ ls') = unlines ls ++ unlines ls' :=
    fun _ _ => List.flatMap_append
  simp only [withRelease, CrateRelease.linksTo, happend, List.append_assoc,
    List.append_cancel_left_eq, List.append_cancel_right_eq] at hunlines
  exact footer_inj hunlines

/-! ### Merging in place -/

namespace CrateRelease

/-- The section takes the place of the unreleased changes. -/
def Rolls (r : CrateRelease) (x : Text) : Prop :=
  has isUnreleasedHeading x ∧ ¬ has (isVersionHeading · r.version) x

/-- The file with the section of a release, and every other byte as it is spelled. -/
def mergedInPlace (u : CharTables) (r : CrateRelease) (x : Text) : Text :=
  if has isUnreleasedHeading x then
    if has (isVersionHeading · r.version) x then x
    else joinLines (withRelease (r.releaseBlock (Lines.lines x)) (r.releaseLinks u (Lines.lines x))
      (Lines.spelled x)) ++ Lines.ending x
  else r.splicedIn x (Lines.spelled x)

/-- The file with links that name a tag. -/
def linkedTo (r : CrateRelease) (x base t tag : Text) : Text :=
  joinLines (withRelease (r.releaseBlock (Lines.lines x)) (r.linksTo (Lines.lines x) base t tag)
    (Lines.lines x)) ++ Lines.ending x

end CrateRelease

/-- What a merge of a release behind a tag of a family promises. -/
structure MergesInPlace (u : CharTables) (r : CrateRelease) (x t p : Text) : Prop where
  again : ∀ y, r.merge u x = .ok y → r.merge u y = .ok y
  kept : r.merge u x = .ok (r.mergedInPlace u x)
  links : r.Rolls x → ∀ base, r.rolledFrom (Lines.lines x) = some (base, t) →
    r.merge u x = .ok (r.linkedTo x base t (p ++ r.version))

/-- The files and releases whose merge keeps its promises. -/
structure Mergeable (u : CharTables) (r : CrateRelease) (x t p : Text) : Prop where
  again : (has isUnreleasedHeading x ∨ has isUnreleasedHeading (r.inserted x)) ∧ Plain r.version
  rolled : r.Rolls x → outside (Lines.spelled x) = outside (Lines.lines x)
  spliced : ¬ has isUnreleasedHeading x → SplicesClean x
  links : r.Rolls x → (∃ base, r.rolledFrom (Lines.lines x) = some (base, t)) →
    '\n' ∉ t ∧ ¬ HoldsVersion u p

theorem merge_rolls (h : r.Rolls x) : r.merge u x = .ok (joinLines (withRelease
    (r.releaseBlock (Lines.lines x)) (r.releaseLinks u (Lines.lines x)) (Lines.lines x)) ++
      Lines.ending x) := by
  rw [merge_eq, if_pos h.1, if_neg h.2, CrateRelease.rolled, rolledLines_eq]

theorem kept_iff : r.merge u x = .ok (r.mergedInPlace u x) ↔
    (r.Rolls x → outside (Lines.spelled x) = outside (Lines.lines x)) ∧
      (¬ has isUnreleasedHeading x → SplicesClean x) := by
  by_cases hun : has isUnreleasedHeading x
  · by_cases hver : has (isVersionHeading · r.version) x
    · have hrolls : ¬ r.Rolls x := fun h => h.2 hver
      simp [merge_eq, CrateRelease.mergedInPlace, hun, hver, hrolls]
    · have hrolls : r.Rolls x := ⟨hun, hver⟩
      rw [merge_rolls hrolls, CrateRelease.mergedInPlace, if_pos hun, if_neg hver, Except.ok.injEq,
        List.append_cancel_right_eq, eq_comm, join_withRelease (reread_spelled x)]
      simp [hrolls, hun]
  · have hrolls : ¬ r.Rolls x := fun h => hun h.1
    rw [merge_eq, CrateRelease.mergedInPlace, if_neg hun, if_neg hun, Except.ok.injEq, eq_comm,
      splicedIn_eq_iff]
    simp [hrolls, hun]

theorem links_iff (h : splitTagFamily u t = some (p, v)) :
    (r.Rolls x → ∀ base, r.rolledFrom (Lines.lines x) = some (base, t) →
      r.merge u x = .ok (r.linkedTo x base t (p ++ r.version))) ↔
    (r.Rolls x → (∃ base, r.rolledFrom (Lines.lines x) = some (base, t)) →
      '\n' ∉ t ∧ ¬ HoldsVersion u p) := by
  refine imp_congr_right fun hrolls => ?_
  rw [forall_exists_index]
  refine forall_congr' fun base => imp_congr_right fun hfrom => ?_
  rw [merge_rolls hrolls, CrateRelease.linkedTo, Except.ok.injEq, List.append_cancel_right_eq,
    CrateRelease.releaseLinks, hfrom, Option.map_some, Option.getD_some, join_links,
    List.append_cancel_right_eq, tagPrefix_family h]

/-- A merge can be repeated, keeps the bytes around the section and links the tag of the version
exactly if the file shows it where to put the section, the version can be read back, no line
ending is rewritten and the family of the tag holds no other version. -/
theorem mergesInPlace_iff (h : splitTagFamily u t = some (p, v)) :
    MergesInPlace u r x t p ↔ Mergeable u r x t p := by
  have hagain : (∀ y, r.merge u x = .ok y → r.merge u y = .ok y) ↔
      (has isUnreleasedHeading x ∨ has isUnreleasedHeading (r.inserted x)) ∧ Plain r.version := by
    constructor
    · exact fun hall => (merge_again_iff (merge_eq u r x)).mp (hall _ (merge_eq u r x))
    · exact fun hcond y hy => (merge_again_iff hy).mpr hcond
  constructor
  · rintro ⟨hmerge, hkept, hlinks⟩
    obtain ⟨hrolled, hspliced⟩ := kept_iff.mp hkept
    exact ⟨hagain.mp hmerge, hrolled, hspliced, (links_iff h).mp hlinks⟩
  · rintro ⟨hmerge, hrolled, hspliced, hlinks⟩
    exact ⟨hagain.mpr hmerge, kept_iff.mpr ⟨hrolled, hspliced⟩, (links_iff h).mpr hlinks⟩

def secondRelease : CrateRelease :=
  ⟨"# C".toList, "1.1.0".toList, "- fix".toList, "2024-01-01".toList, some "v1.0.0".toList, none⟩

theorem mergesInPlace_second : MergesInPlace .ascii secondRelease
    "## [Unreleased]\n[Unreleased]: h/compare/v1.0.0...HEAD\n".toList "v1.0.0".toList ['v'] := by
  have hsplit : splitTagFamily .ascii "v1.0.0".toList = some (['v'], ⟨1, 0, 0, none, none⟩) := by
    decide +kernel
  refine (mergesInPlace_iff hsplit).mpr ⟨⟨.inl (by decide +kernel), ?_⟩, ?_, ?_, ?_⟩
  · rw [Plain]
    decide +kernel
  · intro _
    decide +kernel
  · exact fun hno => absurd (by decide +kernel) hno
  · intro _ _
    refine ⟨by decide, ?_⟩
    rintro ⟨a, c, d, m, b, heq, -⟩
    have hdot : '.' ∈ ['v'] := heq ▸ by simp
    simp at hdot

/-- Without a heading for unreleased changes the section is spliced in again. -/
theorem not_mergesInPlace : ¬ ∀ (u : CharTables) (r : CrateRelease) (x t p : Text) (v : SemVer),
    r.fromTag = some t → splitTagFamily u t = some (p, v) → MergesInPlace u r x t p := by
  intro h
  have hagain := (h .ascii secondRelease "# C\n".toList "v1.0.0".toList ['v'] ⟨1, 0, 0, none, none⟩
    rfl (by decide +kernel)).again _ (merge_eq _ _ _)
  have hnone : ¬ (has isUnreleasedHeading "# C\n".toList ∨
      has isUnreleasedHeading (secondRelease.inserted "# C\n".toList)) := by decide +kernel
  exact hnone ((merge_again_iff (merge_eq _ _ _)).mp hagain).1

end Anodizer.Changelog
