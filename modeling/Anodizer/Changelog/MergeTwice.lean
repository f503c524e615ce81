import Anodizer.Changelog.Merge

/-! # Merging a release again

A merge leaves a file as it is exactly if it has both a heading for unreleased
changes and one for the version.
-/

namespace Anodizer.Changelog

open Template (Text CharTables)

variable {u : CharTables} {r : CrateRelease} {x y w line : Text} {ls : List Text}

/-! ### Properties of lines -/

/-- What is said of a line does not depend on a carriage return at its end, or on blank lines. -/
structure OfLines (p : Text → Bool) : Prop where
  stripCr : ∀ line, p (Lines.stripCr line) = p line
  blank : ∀ line, isBlank line → p line = false

theorem OfLines.nil {p : Text → Bool} (hp : OfLines p) : p [] = false := hp.blank [] rfl

theorem ofLines_unreleased : OfLines isUnreleasedHeading where
  stripCr _ := (@Reread.opens _ _ [] (.inr rfl)).1.symm
  blank _ h := (@blank_opens _ [] h).1

theorem ofLines_version (w : Text) : OfLines (isVersionHeading · w) where
  stripCr line := by
    have hsame := (Reread.same (.inr rfl : Reread line (Lines.stripCr line))).1
    have hlabel : headingLabel (Lines.stripCr line) = headingLabel line := by
      rw [headingLabel, headingLabel, hsame]
    rw [isVersionHeading, isVersionHeading, hlabel]
  blank line h := by
    have hlabel : headingLabel line = none := by
      rw [headingLabel, trimEnd_of_blank h]
      rfl
    simp [isVersionHeading, hlabel]

/-- A line of the text has the property. -/
def has (p : Text → Bool) (x : Text) : Bool := (Lines.lines x).any p

theorem has_eq {p : Text → Bool} (hp : OfLines p) (x : Text) :
    has p x = (x.splitOn '\n').any p := Lines.any_lines hp.stripCr hp.nil x

theorem ending_cases (x : Text) : Lines.ending x = [] ∨ Lines.ending x = ['\n'] := by
  rw [Lines.ending]
  split
  · exact .inr rfl
  · exact .inl rfl

theorem has_join {p : Text → Bool} (hp : OfLines p) (ls : List Text) (x : Text) :
    has p (joinLines ls ++ Lines.ending x) = ls.any (has p) := by
  rw [has_eq hp, joinLines, Lines.any_join hp.nil (ending_cases x)]
  exact congrArg _ (funext fun l => (has_eq hp l).symm)

theorem has_append {p : Text → Bool} (hp : OfLines p) (s t : Text) :
    has p (s ++ '\n' :: t) = (has p s || has p t) := by
  rw [has_eq hp, has_eq hp, has_eq hp, Lines.splitOn_append, List.any_append]

theorem has_line {p : Text → Bool} (hp : OfLines p) (h : '\n' ∉ line) : has p line = p line := by
  rw [has_eq hp, List.splitOn_eq_singleton h, List.any_cons, List.any_nil, Bool.or_false]

theorem has_unlines {p : Text → Bool} (hp : OfLines p) (h : ∀ line ∈ ls, '\n' ∉ line) (t : Text) :
    has p (unlines ls ++ t) = (ls.any p || has p t) := by
  induction ls with
  | nil => rfl
  | cons line ls ih =>
    obtain ⟨hline, hls⟩ := List.forall_mem_cons.mp h
    have hcons : unlines (line :: ls) ++ t = line ++ '\n' :: (unlines ls ++ t) := by
      simp [unlines]
    rw [hcons, has_append hp, has_line hp hline, ih hls, List.any_cons, Bool.or_assoc]

/-! ### The parts of a changelog -/

def beforeBlock (ls : List Text) : List Text := ls.takeWhile fun line => !isUnreleasedHeading line

def unreleasedBody (ls : List Text) : List Text :=
  (ls.dropWhile fun line => !isUnreleasedHeading line).tail.takeWhile fun line => !endsBlock line

def afterBlock (ls : List Text) : List Text :=
  (ls.dropWhile fun line => !isUnreleasedHeading line).tail.dropWhile fun line => !endsBlock line

theorem dropWhile_unreleased (h : ls.any isUnreleasedHeading) : ∃ line rest,
    ls.dropWhile (fun line => !isUnreleasedHeading line) = line :: rest ∧
      isUnreleasedHeading line := by
  have hne : ls.dropWhile (fun line => !isUnreleasedHeading line) ≠ [] := by
    rw [Ne, List.dropWhile_eq_nil_iff]
    intro hnone
    obtain ⟨line, hline, hh⟩ := List.any_eq_true.mp h
    have hnot : (!isUnreleasedHeading line) = true := hnone line hline
    rw [hh] at hnot
    cases hnot
  obtain ⟨line, rest, hrest⟩ := List.exists_cons_of_ne_nil hne
  have hline := List.head_dropWhile_not (fun line => !isUnreleasedHeading line) hne
  simp only [hrest, List.head_cons, Bool.not_eq_false'] at hline
  exact ⟨line, rest, hrest, hline⟩

theorem parts_eq (h : ls.any isUnreleasedHeading) : ∃ line,
    ls = beforeBlock ls ++ line :: (unreleasedBody ls ++ afterBlock ls) := by
  obtain ⟨line, rest, hrest, -⟩ := dropWhile_unreleased h
  refine ⟨line, ?_⟩
  rw [unreleasedBody, afterBlock, List.takeWhile_append_dropWhile, hrest, List.tail_cons, ← hrest,
    beforeBlock, List.takeWhile_append_dropWhile]

/-! ### What a merge gives -/

namespace CrateRelease

/-- The lines of the file with the section in the place of the unreleased changes. -/
def rolledLines (u : CharTables) (r : CrateRelease) (ls : List Text) : List Text :=
  rollFooter u
    (beforeBlock ls ++ promotedBlock (trimEnd r.body) r.version r.date (unreleasedBody ls))
    (afterBlock ls) r.fromTag r.remoteBase r.version

def rolled (u : CharTables) (r : CrateRelease) (x : Text) : Text :=
  joinLines (r.rolledLines u (Lines.lines x)) ++ Lines.ending x

def spliced (r : CrateRelease) (x : Text) : Text :=
  spliceAfterH1 x r.newSection (r.h1 ++ "\n\n".toList)

end CrateRelease

open CrateRelease

theorem merge_eq (u : CharTables) (r : CrateRelease) (x : Text) : r.merge u x = .ok
    (if has isUnreleasedHeading x then
      if has (isVersionHeading · r.version) x then x else r.rolled u x
    else r.spliced x) := by
  rw [merge, mergeIntoChangelog, args]
  dsimp only
  by_cases hun : has isUnreleasedHeading x
  · rw [if_pos hun, if_pos (by exact hun), rollKeepAChangelog]
    dsimp only
    by_cases hver : has (isVersionHeading · r.version) x
    · rw [if_pos hver, if_pos (by exact hver)]
    · rw [if_neg hver, if_neg (by exact hver)]
      obtain ⟨line, rest, hrest, -⟩ := dropWhile_unreleased hun
      simp only [hrest, Except.map, rolled, rolledLines, beforeBlock, unreleasedBody, afterBlock,
        List.tail_cons]
      rfl
  · rw [if_neg hun, if_neg (by exact hun)]
    rfl

/-! ### A merge that changes nothing -/

/-- What stands before the footer stays, and nothing behind it is lost. -/
theorem rollFooter_spec (u : CharTables) (out tail : List Text) (fromTag remoteBase : Option Text)
    (w : Text) : ∃ more, rollFooter u out tail fromTag remoteBase w = out ++ more ∧
      tail.length ≤ more.length := by
  rw [rollFooter]
  split
  · unfold synthesizeFooter
    split
    · next base => exact ⟨_, by rw [List.append_assoc, List.append_assoc], by simp⟩
    · exact ⟨tail, rfl, le_refl _⟩
  · next footer rest hdrop =>
    split
    · exact ⟨tail, rfl, le_refl _⟩
    · refine ⟨_, by rw [List.append_assoc, List.append_assoc], ?_⟩
      have hlength := congrArg List.length (List.takeWhile_append_dropWhile (p := notFooter) (l := tail))
      rw [hdrop, List.length_append, List.length_cons] at hlength
      simp only [List.length_append, pushCompareFooter, List.length_cons, List.length_nil]
      omega

/-- The heading of a section is read as one, whatever its tag holds. -/
theorem lines_heading (w s : Text) : ∃ line rest, Lines.lines (heading w s) = line :: rest ∧
    endsBlock line := by
  obtain ⟨t, line, rest, hlines, hline⟩ := @Lines.lines_within "## [".toList (by decide) (by decide)
    (w ++ ("] - ".toList ++ s))
  refine ⟨line, rest, hlines, ?_⟩
  have hread : Reread ("## [".toList ++ t) line := hline
  rw [← (@Reread.ends _ _ hread).1]
  rfl

theorem heading_append (w d t : Text) : heading w d ++ t = heading w (d ++ t) := by simp [heading]

/-- The first lines of a file that a section was promoted in. -/
theorem lines_promoted {pre : List Text} (hpre : ∀ line ∈ pre, '\n' ∉ line) (w d e : Text)
    (more : List Text) :
    ∃ line rest, endsBlock line ∧ Lines.lines (joinLines ((pre ++ ["## [Unreleased]".toList, []]) ++
      heading w d :: [] :: more) ++ e) = pre.map Lines.stripCr ++
        "## [Unreleased]".toList :: [] :: line :: rest := by
  have hcut : joinLines ((pre ++ ["## [Unreleased]".toList, []]) ++ heading w d :: [] :: more) ++ e =
      joinLines (pre ++ ["## [Unreleased]".toList, []]) ++
        '\n' :: heading w (d ++ ('\n' :: (joinLines ([] :: more) ++ e))) := by
    rw [joinLines, Lines.intercalate_append (by simp) (by simp), Lines.intercalate_cons _ (by simp),
      ← heading_append]
    simp [joinLines]
  obtain ⟨line, rest, hline, hends⟩ :=
    lines_heading w (d ++ ('\n' :: (joinLines ([] :: more) ++ e)))
  have hparts : (pre ++ ["## [Unreleased]".toList, []]).flatMap (·.splitOn '\n') =
      pre ++ ["## [Unreleased]".toList, []] := by
    have hself : ∀ ls : List Text, (∀ line ∈ ls, '\n' ∉ line) → ls.flatMap (·.splitOn '\n') = ls := by
      intro ls hls
      rw [List.flatMap_congr fun line hline => List.splitOn_eq_singleton (hls line hline),
        List.flatMap_singleton']
    refine hself _ fun line hline => ?_
    rcases List.mem_append.mp hline with hline | hline
    · exact hpre line hline
    · rcases List.mem_pair.mp hline with rfl | rfl <;> decide
  refine ⟨line, rest, hends, ?_⟩
  rw [hcut, Lines.lines_append, joinLines, Lines.splitOn_join (by simp), hparts, hline,
    List.map_append]
  simp [Lines.stripCr]

theorem count_ending (x : Text) : (Lines.ending x).count '\n' = (Lines.ending x).length := by
  rcases ending_cases x with h | h <;> rw [h] <;> rfl

/-- Text that has the lines of a file and its ending has no more lines than the file. -/
theorem length_le_of_join {out : List Text} (hx : x ≠ [])
    (h : joinLines out ++ Lines.ending x = x) : out.length ≤ (Lines.lines x).length := by
  have hlines := Lines.length_lines hx
  have hcount := congrArg (List.count '\n') h
  rw [List.count_append, count_ending] at hcount
  have hout := Lines.length_le_count_join out
  rw [← joinLines] at hout
  omega

theorem unreleasedBody_eq (ls : List Text) : unreleasedBody ls =
    (unreleasedBody ls ++ afterBlock ls).takeWhile fun line => !endsBlock line := by
  conv_lhs => rw [unreleasedBody]
  rw [unreleasedBody, afterBlock, List.takeWhile_append_dropWhile]

/-- A file that a section was promoted in holds more lines. -/
theorem rolled_ne (h : has isUnreleasedHeading x) : r.rolled u x ≠ x := by
  intro heq
  have hx : x ≠ [] := by
    rintro rfl
    cases h
  obtain ⟨hd, hparts⟩ := parts_eq h
  have hbody := unreleasedBody_eq (Lines.lines x)
  obtain ⟨more, hmore, hmoreLength⟩ := rollFooter_spec u
    (beforeBlock (Lines.lines x) ++
      promotedBlock (trimEnd r.body) r.version r.date (unreleasedBody (Lines.lines x)))
    (afterBlock (Lines.lines x)) r.fromTag r.remoteBase r.version
  obtain ⟨text, htext⟩ : ∃ text, promotedBlock (trimEnd r.body) r.version r.date
      (unreleasedBody (Lines.lines x)) =
        "## [Unreleased]".toList :: [] :: heading r.version r.date :: [] :: (text ++ [[]]) :=
    ⟨_, rfl⟩
  have hpre : ∀ line ∈ beforeBlock (Lines.lines x), '\n' ∉ line := fun line hline =>
    Lines.newline_not_mem ((List.takeWhile_sublist _).subset hline)
  have hout : r.rolledLines u (Lines.lines x) =
      (beforeBlock (Lines.lines x) ++ ["## [Unreleased]".toList, []]) ++
        heading r.version r.date :: [] :: (text ++ [[]] ++ more) := by
    rw [rolledLines, hmore, htext]
    simp
  rw [rolled, hout] at heq
  have hlength := length_le_of_join hx heq
  obtain ⟨line, rest, hends, hlines⟩ := lines_promoted hpre r.version r.date (Lines.ending x)
    (text ++ [[]] ++ more)
  rw [heq] at hlines
  generalize beforeBlock (Lines.lines x) = pre at *
  generalize unreleasedBody (Lines.lines x) = body at *
  generalize afterBlock (Lines.lines x) = tail at *
  -- the first heading is the one that was written, and a section follows it
  have hrest : body ++ tail = [] :: line :: rest := by
    have hinj := List.append_inj_right (hparts.symm.trans hlines) (by simp)
    exact (List.cons.inj hinj).2
  have hnil : endsBlock [] = false := (blank_ends rfl).1
  have hone : body = [[]] := by
    rw [hbody, hrest]
    simp [hnil, hends]
  rw [hparts, hone] at hlength
  simp only [List.length_append, List.length_cons, List.length_nil] at hlength
  omega

theorem count_unlines (ls : List Text) : ls.length ≤ (unlines ls).count '\n' := by
  induction ls with
  | nil => exact Nat.zero_le _
  | cons line ls ih =>
    have hcons : unlines (line :: ls) = line ++ '\n' :: unlines ls := by simp [unlines]
    rw [hcons, List.count_append, List.count_cons_self, List.length_cons]
    omega

/-- A file that a section was spliced in holds more newlines. -/
theorem spliced_ne (r : CrateRelease) (x : Text) : r.spliced x ≠ x := by
  intro heq
  rw [spliced, spliceAfterH1] at heq
  rcases cutAfter_cases (p := isTitle) (Lines.lines x) with
    ⟨hnone, -⟩ | ⟨init, title, rest, hsome, hlines, -, -⟩
  · rw [hnone] at heq
    have hlength := congrArg List.length heq
    simp only [List.length_append, List.length_cons] at hlength
    omega
  · rw [hsome] at heq
    have hcount := congrArg (List.count '\n') heq
    have hle := Lines.count_le_length_lines x
    have hhead := count_unlines (init ++ [title])
    rw [hlines, List.length_append, List.length_cons] at hle
    rw [List.length_append, List.length_singleton] at hhead
    simp only [List.count_append, List.count_cons_self] at hcount
    have hrest : rest.length ≤ (if rest.head?.any isBlank then ['\n'] else []).count '\n' +
        (unlines (if rest.head?.any isBlank then rest.tail else rest)).count '\n' := by
      split
      · have htail := count_unlines rest.tail
        rw [List.length_tail] at htail
        simp only [List.count_singleton_self]
        omega
      · have htail := count_unlines rest
        omega
    omega

/-- A merge changes nothing exactly if both headings are there. -/
theorem merge_eq_self_iff : r.merge u x = .ok x ↔
    has isUnreleasedHeading x ∧ has (isVersionHeading · r.version) x := by
  rw [merge_eq, Except.ok.injEq]
  by_cases hun : has isUnreleasedHeading x
  · by_cases hver : has (isVersionHeading · r.version) x
    · simp [hun, hver]
    · simp [hun, hver, rolled_ne hun]
  · simp [hun, spliced_ne]

/-! ### The second merge -/

/-- A version that is read back from the heading of its section. -/
def Plain (w : Text) : Prop := ']' ∉ w ∧ '\n' ∉ w

theorem headingLabel_subset (h : headingLabel line = some w) : ']' ∉ w ∧ w ⊆ line := by
  simp only [headingLabel, Option.bind_eq_bind, Option.bind_eq_some_iff] at h
  obtain ⟨marked, hmarked, rest, hrest, ⟨label, after⟩, hlabel, hw⟩ := h
  obtain rfl : label = w := Option.some.inj hw
  rw [List.isPrefixOf?_eq_some_iff_append_eq] at hmarked hrest
  rw [upToBracket] at hlabel
  split at hlabel
  · obtain rfl := (Prod.mk.inj (Option.some.inj hlabel)).1
    refine ⟨fun hmem => ?_, fun c hc => ?_⟩
    · simpa using List.mem_takeWhile_imp hmem
    · have hstart : c ∈ Template.trimStart marked :=
        hrest ▸ List.mem_append_right _ ((List.takeWhile_sublist _).subset hc)
      have hend : c ∈ trimEnd line :=
        hmarked ▸ List.mem_append_right _ ((List.dropWhile_sublist _).subset hstart)
      exact (List.rdropWhile_prefix _ _).subset hend
  · cases hlabel

/-- A version that is found in a file is plain. -/
theorem plain_of_has (h : has (isVersionHeading · w) x) : Plain w := by
  obtain ⟨line, hline, hlabel⟩ := List.any_eq_true.mp h
  rw [isVersionHeading, decide_eq_true_eq] at hlabel
  obtain ⟨hbracket, hsub⟩ := headingLabel_subset hlabel
  exact ⟨hbracket, fun hmem => Lines.newline_not_mem hline (hsub hmem)⟩

/-- The section of a plain version is found by its heading. -/
theorem has_heading (hw : Plain w) (s : Text) : has (isVersionHeading · w) (heading w s) := by
  have hcut : heading w s = ("## [".toList ++ (w ++ "] - ".toList)) ++ s := by simp [heading]
  have hline : '\n' ∉ "## [".toList ++ (w ++ "] - ".toList) := by
    simp [hw.2]
  obtain ⟨t, line, rest, hlines, hread⟩ := Lines.lines_within hline (by simp) s
  have hlabel : headingLabel ("## [".toList ++ (w ++ "] - ".toList) ++ t) = some w := by
    have hself : "## [".toList ++ (w ++ "] - ".toList) ++ t = heading w t := by simp [heading]
    rw [hself, headingLabel_heading hw.1]
  have hfound : isVersionHeading line w = true := by
    rcases hread with rfl | rfl
    · exact decide_eq_true hlabel
    · rw [(ofLines_version w).stripCr]
      exact decide_eq_true hlabel
  rw [hcut, has, hlines, List.any_cons, hfound, Bool.true_or]

theorem has_rolled (u : CharTables) (r : CrateRelease) (x : Text) :
    has isUnreleasedHeading (r.rolled u x) ∧
      (has (isVersionHeading · r.version) (r.rolled u x) ↔ Plain r.version) := by
  obtain ⟨more, hmore, -⟩ := rollFooter_spec u
    (beforeBlock (Lines.lines x) ++
      promotedBlock (trimEnd r.body) r.version r.date (unreleasedBody (Lines.lines x)))
    (afterBlock (Lines.lines x)) r.fromTag r.remoteBase r.version
  have hmem : ∀ line ∈ promotedBlock (trimEnd r.body) r.version r.date
      (unreleasedBody (Lines.lines x)), line ∈ r.rolledLines u (Lines.lines x) := by
    intro line hline
    rw [rolledLines, hmore]
    exact List.mem_append_left _ (List.mem_append_right _ hline)
  constructor
  · rw [rolled, has_join ofLines_unreleased]
    exact List.any_eq_true.mpr ⟨_, hmem "## [Unreleased]".toList (by simp [promotedBlock]), rfl⟩
  · refine ⟨plain_of_has, fun hw => ?_⟩
    rw [rolled, has_join (ofLines_version _)]
    exact List.any_eq_true.mpr
      ⟨_, hmem (heading r.version r.date) (by simp [promotedBlock]), has_heading hw _⟩

namespace CrateRelease

/-- The text that is spliced into a file. -/
def inserted (r : CrateRelease) (x : Text) : Text :=
  if (Lines.lines x).any isTitle then r.newSection
  else r.h1 ++ "\n\n".toList ++ r.newSection

end CrateRelease

/-- A file that a section was spliced in has the lines of both. -/
theorem has_spliced {p : Text → Bool} (hp : OfLines p) (r : CrateRelease) (x : Text) :
    has p (r.spliced x) = (has p x || has p (r.inserted x)) := by
  have hlines : ∀ line ∈ Lines.lines x, '\n' ∉ line := fun line => Lines.newline_not_mem
  rw [spliced, spliceAfterH1]
  rcases cutAfter_cases (p := isTitle) (Lines.lines x) with
    ⟨hnone, htitles⟩ | ⟨init, title, rest, hsome, hparts, htitle, -⟩
  · have hinserted : r.inserted x = r.h1 ++ "\n\n".toList ++ r.newSection := by
      rw [inserted, if_neg]
      simpa using htitles
    rw [hnone, hinserted]
    dsimp only
    rw [has_append hp, Bool.or_comm]
  · have hinserted : r.inserted x = r.newSection := by
      rw [inserted, if_pos]
      exact List.any_eq_true.mpr ⟨title, by rw [hparts]; simp, htitle⟩
    rw [hsome, hinserted]
    dsimp only
    rw [hparts] at hlines
    have hhead : ∀ line ∈ init ++ [title], '\n' ∉ line := fun line hline =>
      hlines line (by simp only [List.mem_append, List.mem_cons] at hline ⊢; tauto)
    have hrest : ∀ line ∈ rest, '\n' ∉ line := fun line hline => hlines line (by simp [hline])
    have hafter : ∀ ls : List Text, (∀ line ∈ ls, '\n' ∉ line) → has p (unlines ls) = ls.any p := by
      intro ls hls
      have h := has_unlines hp hls []
      rwa [List.append_nil, has_line hp List.not_mem_nil, hp.nil, Bool.or_false] at h
    have hx : has p x = ((init ++ [title]).any p || rest.any p) := by
      rw [has, hparts, ← List.any_append]
      simp
    rw [hx]
    split
    · next hblank =>
      cases rest with
      | nil => cases hblank
      | cons line rest =>
        have hline : p line = false := hp.blank line (by simpa using hblank)
        have hcut : unlines (init ++ [title]) ++ ['\n'] ++ r.newSection ++ '\n' :: unlines rest =
            unlines (init ++ [title]) ++ ([] ++ '\n' :: (r.newSection ++ '\n' :: unlines rest)) := by
          simp
        rw [List.tail_cons, hcut, has_unlines hp hhead, has_append hp, has_append hp,
          hafter rest fun l hl => hrest l (List.mem_cons_of_mem _ hl), has_line hp List.not_mem_nil,
          hp.nil, List.any_cons, hline]
        simp only [Bool.false_or, Bool.or_assoc, Bool.or_comm (rest.any p)]
    · rw [List.append_nil, List.append_assoc, has_unlines hp hhead, has_append hp,
        hafter rest hrest, Bool.or_assoc, Bool.or_comm (rest.any p)]

theorem has_inserted (hw : Plain r.version) (x : Text) :
    has (isVersionHeading · r.version) (r.inserted x) := by
  have hsection : has (isVersionHeading · r.version) r.newSection := by
    rw [newSection, heading_append]
    exact has_heading hw _
  rw [inserted]
  split
  · exact hsection
  · have hcut : r.h1 ++ "\n\n".toList ++ r.newSection =
        (r.h1 ++ ['\n']) ++ '\n' :: r.newSection := by simp
    rw [hcut, has_append (ofLines_version _), hsection, Bool.or_true]

/-- Merging a section again changes nothing exactly if the file has a heading for unreleased changes
and the version can be read back. -/
theorem merge_again_iff (h : r.merge u x = .ok y) : r.merge u y = .ok y ↔
    (has isUnreleasedHeading x ∨ has isUnreleasedHeading (r.inserted x)) ∧ Plain r.version := by
  rw [merge_eq, Except.ok.injEq] at h
  subst h
  rw [merge_eq_self_iff]
  by_cases hun : has isUnreleasedHeading x
  · rw [if_pos hun]
    by_cases hver : has (isVersionHeading · r.version) x
    · rw [if_pos hver]
      exact ⟨fun h => ⟨.inl h.1, plain_of_has h.2⟩, fun _ => ⟨hun, hver⟩⟩
    · rw [if_neg hver]
      obtain ⟨hhead, hlabel⟩ := has_rolled u r x
      rw [hlabel]
      exact ⟨fun h => ⟨.inl hun, h.2⟩, fun h => ⟨hhead, h.2⟩⟩
  · rw [if_neg hun, has_spliced ofLines_unreleased, has_spliced (ofLines_version _), Bool.or_eq_true]
    refine and_congr_right fun _ => ⟨fun h => plain_of_has (x := r.spliced x) ?_, fun hw => ?_⟩
    · rw [has_spliced (ofLines_version _), h]
    · rw [has_inserted hw, Bool.or_true]

end Anodizer.Changelog
