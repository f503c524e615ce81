import Anodizer.Changelog.Rewrite
import Anodizer.Lib.FirstOfEach

/-! # Runs of promotions

Each promotion adds its release to the record, so after any sequence of
promotions the file holds the record of the sequence.
-/

namespace Anodizer.Changelog

open Template (Text CharTables)
open Git

variable {u : CharTables} {h1 : Text} {base file : Option Text} {cl : Record u} {r : Release u}

/-! ### One promotion -/

section Step

variable {sub : MultitrackPromoteArgs → Except Text (Option Text)} {today : Except Text Text}

/-- A promotion of a tag that is there returns the file as it is. -/
theorem promote_present (hfile : Represents h1 base file cl) (htitle : isTitle h1)
    {args : MultitrackPromoteArgs} (hargs : args.existing = file) (htag : args.tag ∈ cl.tags)
    (hbody : args.generatedBody ≠ []) :
    promoteMultitrackSection u today sub args = .ok file := by
  cases hf : file with
  | none =>
    rw [hf] at hfile
    rw [show cl = .empty from hfile] at htag
    exact absurd htag (by simp [Record.tags, Record.empty])
  | some text =>
    rw [hf] at hfile hargs
    obtain ⟨chunks, hlines, -, -, hunreleased, hlabels⟩ := Written.lines hfile htitle
    have hpresent := (hlabels _).mpr htag
    simp only [promoteMultitrackSection, hargs, Option.any_some, hlines, hunreleased, hbody,
      Option.getD_some, hpresent, Bool.false_eq_true, if_false, if_true]

/-- The head of the file and its tail, whether the file is there or not. -/
theorem split_file (hfile : Represents h1 base file cl) (htitle : isTitle h1) (hh1 : OneLine h1) :
    ∃ rest chunks, (cutAfter isTitle (Lines.lines (file.getD []))).getD
        ([h1], Lines.lines (file.getD [])) = ([h1], rest) ∧
      rest.dropWhile isBlank = chunks.flatten ++ cl.footer base ∧
      List.Forall₂ Release.IsSection cl.sections chunks ∧
      Lines.Clean h1 ∧ ∀ line ∈ rest, Lines.Clean line := by
  cases file with
  | none =>
    rw [show cl = .empty from hfile]
    refine ⟨[], [], rfl, ?_, .nil, hh1.clean, by simp⟩
    cases base <;> rfl
  | some text =>
    obtain ⟨chunks, hlines, hchunks, hclean, -, -⟩ := Written.lines hfile htitle
    refine ⟨[] :: (chunks.flatten ++ cl.footer base), chunks, ?_, ?_, hchunks, hh1.clean, ?_⟩
    · rw [Option.getD_some, hlines, document, cutAfter, if_pos htitle]
      rfl
    · rw [List.dropWhile_cons_of_pos rfl]
      exact dropBlank_tail base hchunks
    · exact fun line hline => hclean line (List.mem_cons_of_mem _ hline)

theorem no_heading (hfile : Represents h1 base file cl) (htitle : isTitle h1) :
    (file.any fun e => (Lines.lines e).any isUnreleasedHeading) = false ∧
      (r.tag ∉ cl.tags → (Lines.lines (file.getD [])).any (isVersionHeading · r.tag) = false) := by
  cases file with
  | none => exact ⟨rfl, fun _ => rfl⟩
  | some text =>
    obtain ⟨chunks, hlines, -, -, hunreleased, hlabels⟩ := Written.lines hfile htitle
    refine ⟨by rw [Option.any_some, hlines, hunreleased], fun htag => ?_⟩
    rw [Option.getD_some, hlines, ← Bool.not_eq_true]
    exact fun h => htag ((hlabels _).mp h)

theorem ends_with_newline (hfile : Represents h1 base file cl) :
    ((file.getD []).isEmpty || (file.getD []).getLast? = some '\n') = true := by
  cases file with
  | none => rfl
  | some text =>
    obtain ⟨chunks, -, -, rfl⟩ := hfile
    simp

/-- A promotion of a new tag adds its release to the record. -/
theorem promote_new (hfile : Represents h1 base file cl) (htitle : isTitle h1) (hh1 : OneLine h1)
    (hbase : ∀ b ∈ base, OneLine b) (htag : r.tag ∉ cl.tags) (hbody : r.body ≠ []) :
    ∃ text, promoteMultitrackSection u (.ok r.date) sub
        ⟨file, h1, r.crateName, r.tag, r.fromTag, .tag, r.body, base⟩ = .ok (some text) ∧
      Written h1 base text (cl.add r) := by
  obtain ⟨rest, chunks, hsplit, htail, hchunks, hclean, hclean'⟩ := split_file hfile htitle hh1
  obtain ⟨hunreleased, habsent⟩ := no_heading (r := r) hfile htitle
  obtain ⟨written, hwritten, hsections⟩ := appendSlotted_document h1 base r htag
    hchunks
  obtain ⟨final, hfinal, hsections'⟩ :=
    collapsed_document base hsections (add_sections_ne cl htag) htitle (cl.add r)
  refine ⟨_, ?_, final, hsections', ?_, rfl⟩
  · simp only [promoteMultitrackSection, hunreleased, hbody, habsent htag, hsplit, htail,
      ends_with_newline hfile, buildPromotedSection, Bool.false_eq_true, if_false, Except.map,
      List.singleton_append, hwritten, finish, hfinal, if_true]
  · intro line hline
    rw [← hfinal, ← hwritten] at hline
    rcases mem_collapsed hline with rfl | hline
    · exact clean_blank
    · refine clean_appendSlotted r hbase (fun l hl => ?_) (fun l hl => ?_) line hline
      · rcases List.mem_pair.mp hl with rfl | rfl
        · exact hclean
        · exact clean_blank
      · rw [← htail] at hl
        exact hclean' l ((List.dropWhile_sublist _).mem hl)

end Step

/-! ### The order of the sections -/

/-- Sections go by family, and in a family from the newest version to the oldest. -/
def Precedes (s t : Release u) : Prop :=
  s.family < t.family ∨ s.family = t.family ∧ t.version.key ≤ s.version.key

instance : IsTrans (Release u) Precedes where
  trans := by
    rintro a b c (hab | ⟨hab, hab'⟩) (hbc | ⟨hbc, hbc'⟩)
    · exact .inl (hab.trans hbc)
    · exact .inl (hbc ▸ hab)
    · exact .inl (hab ▸ hbc)
    · exact .inr ⟨hab.trans hbc, hbc'.trans hab'⟩

theorem goesBefore_iff (r s : Release u) : goesBefore u r.tag s.tag = true ↔
    r.family < s.family ∨ r.family = s.family ∧ s.version.key < r.version.key := by
  have hcmp := SemVer.compares_text r.family s.family
  rw [goesBefore, r.cut, s.cut, r.parsed, s.parsed]
  cases hord : cmp r.family s.family with
  | lt =>
    rw [hord] at hcmp
    exact ⟨fun _ => .inl hcmp, fun _ => rfl⟩
  | eq =>
    rw [hord] at hcmp
    have heq : r.family = s.family := hcmp
    simp [heq, SemVer.compare_eq_gt]
  | gt =>
    rw [hord] at hcmp
    have hlt : s.family < r.family := hcmp
    simp [hlt.ne', hlt.le]

theorem add_precedes (h : cl.sections.Pairwise Precedes) (r : Release u) :
    (cl.add r).sections.Pairwise Precedes := by
  unfold Record.add
  split
  · exact h
  · refine SlotInsert.pairwise_orderedInsert h (fun s _ hbefore => ?_) fun s _ hafter => ?_
    · exact ((goesBefore_iff r s).mp hbefore).imp_right fun hv => ⟨hv.1, hv.2.le⟩
    · rw [goesBefore_iff, not_or, not_lt] at hafter
      rcases hafter.1.lt_or_eq with hlt | heq
      · exact .inl hlt
      · exact .inr ⟨heq, not_lt.mp fun hv => hafter.2 ⟨heq.symm, hv⟩⟩

/-! ### All the promotions -/

/-- The file after a promotion. One that has nothing to release leaves the file alone. -/
def promote (u : CharTables) (sub : MultitrackPromoteArgs → Except Text (Option Text)) (h1 : Text)
    (base file : Option Text) (p : Promotion) : Except Text (Option Text) :=
  (promoteMultitrackSection u (.ok p.date) sub
    ⟨file, h1, p.crateName, p.tag, p.fromTag, .tag, p.body, base⟩).map (·.or file)

/-- A sequence of promotions, from an absent file. -/
def promoteAll (u : CharTables) (sub : MultitrackPromoteArgs → Except Text (Option Text)) (h1 : Text)
    (base : Option Text) (ps : List Promotion) : Except Text (Option Text) :=
  ps.foldlM (promote u sub h1 base) none

/-- The first release of each tag that has something to say. -/
def firstReleases (rs : List (Release u)) : List (Release u) :=
  FirstOfEach.firstOfEach (·.tag) [] (rs.filter (·.body ≠ []))

section Run

variable {sub : MultitrackPromoteArgs → Except Text (Option Text)} {rs : List (Release u)}

/-- One promotion keeps the file and its record together. -/
theorem promote_step (hfile : Represents h1 base file cl) (htitle : isTitle h1) (hh1 : OneLine h1)
    (hbase : ∀ b ∈ base, OneLine b) (r : Release u) :
    ∃ file', promote u sub h1 base file r.toPromotion = .ok file' ∧
      Represents h1 base file' (if r.body ≠ [] then cl.add r else cl) := by
  unfold promote
  by_cases hbody : r.body = []
  · have hnone : promoteMultitrackSection u (.ok r.date) sub
        ⟨file, h1, r.crateName, r.tag, r.fromTag, .tag, r.body, base⟩ = .ok none := by
      simp only [promoteMultitrackSection, (no_heading (r := r) hfile htitle).1, hbody,
        Bool.false_eq_true, if_false, if_true]
    exact ⟨file, by rw [hnone]; rfl, by simpa [hbody] using hfile⟩
  · rw [if_pos hbody]
    by_cases htag : r.tag ∈ cl.tags
    · refine ⟨file, ?_, by rwa [Record.add, if_pos htag]⟩
      rw [promote_present hfile htitle rfl htag hbody]
      exact congrArg Except.ok Option.or_self
    · obtain ⟨text, htext, hwritten⟩ := promote_new hfile htitle hh1 hbase htag hbody
      exact ⟨some text, by rw [htext]; rfl, hwritten⟩

theorem promoteAll_represents (hfile : Represents h1 base file cl) (htitle : isTitle h1)
    (hh1 : OneLine h1) (hbase : ∀ b ∈ base, OneLine b) :
    ∃ file', (rs.map (·.toPromotion)).foldlM (promote u sub h1 base) file = .ok file' ∧
      Represents h1 base file' ((rs.filter (·.body ≠ [])).foldl Record.add cl) := by
  induction rs generalizing file cl with
  | nil => exact ⟨file, rfl, hfile⟩
  | cons r rs ih =>
    obtain ⟨file', hpromote, hfile'⟩ := promote_step hfile htitle hh1 hbase r
    obtain ⟨file'', hrest, hfile''⟩ := ih hfile'
    refine ⟨file'', by rw [List.map_cons, List.foldlM_cons, hpromote]; exact hrest, ?_⟩
    by_cases hbody : r.body = []
    · simpa [List.filter_cons, hbody] using hfile''
    · simpa [List.filter_cons, hbody] using hfile''

theorem add_tags (cl : Record u) (r : Release u) (t : Text) :
    t ∈ (cl.add r).tags ↔ t = r.tag ∨ t ∈ cl.tags := by
  unfold Record.add
  split
  · next h => simpa using fun heq : t = r.tag => heq ▸ h
  · simp only [Record.tags, ((List.perm_orderedInsert _ r cl.sections).map _).mem_iff, List.map_cons,
      List.mem_cons]

theorem add_nodup (h : cl.tags.Nodup) (r : Release u) : (cl.add r).tags.Nodup := by
  unfold Record.add
  split
  · exact h
  · next hnew =>
    exact ((List.perm_orderedInsert _ r cl.sections).map _).nodup_iff.mpr
      (List.nodup_cons.mpr ⟨hnew, h⟩)

variable (cl) in
/-- A record that has added releases holds the first ones, the newest link first. -/
theorem foldl_add (seen : List Text) (hseen : ∀ t, t ∈ seen ↔ t ∈ cl.tags) :
    (rs.foldl Record.add cl).links =
        (FirstOfEach.firstOfEach (·.tag) seen rs).reverse ++ cl.links ∧
      (rs.foldl Record.add cl).sections.Perm
        (FirstOfEach.firstOfEach (·.tag) seen rs ++ cl.sections) := by
  induction rs generalizing cl seen with
  | nil => exact ⟨rfl, .refl _⟩
  | cons r rs ih =>
    rw [List.foldl_cons, FirstOfEach.firstOfEach]
    by_cases htag : r.tag ∈ cl.tags
    · rw [if_pos ((hseen _).mpr htag), Record.add, if_pos htag]
      exact ih _ _ hseen
    · have hseen' : ∀ t, t ∈ r.tag :: seen ↔ t ∈ (cl.add r).tags := fun t => by
        rw [add_tags, List.mem_cons, hseen]
      obtain ⟨hlinks, hsections⟩ := ih _ _ hseen'
      rw [if_neg fun h => htag ((hseen _).mp h), hlinks]
      refine ⟨by rw [Record.add, if_neg htag]; simp, hsections.trans ?_⟩
      rw [Record.add, if_neg htag]
      exact (List.Perm.append_left _ (List.perm_orderedInsert _ r _)).trans List.perm_middle

variable (cl) in
theorem foldl_add_ordered (hnodup : cl.tags.Nodup) (hordered : cl.sections.Pairwise Precedes) :
    (rs.foldl Record.add cl).tags.Nodup ∧ (rs.foldl Record.add cl).sections.Pairwise Precedes := by
  induction rs generalizing cl with
  | nil => exact ⟨hnodup, hordered⟩
  | cons r rs ih => exact ih (cl.add r) (add_nodup hnodup r) (add_precedes hordered r)

/-- After any sequence of promotions the file holds one section for each tag, the families together
and each from its newest version to its oldest, and one link for each. -/
theorem promoteAll_complete (rs : List (Release u)) (htitle : isTitle h1) (hh1 : OneLine h1)
    (hbase : ∀ b ∈ base, OneLine b) : ∃ file cl,
      promoteAll u sub h1 base (rs.map (·.toPromotion)) = .ok file ∧ Represents h1 base file cl ∧ cl.tags.Nodup ∧
      cl.sections.Perm (firstReleases rs) ∧ cl.links = (firstReleases rs).reverse ∧
      cl.sections.Pairwise (fun s t => s.family = t.family → t.version.key ≤ s.version.key) ∧
      (∀ before x between y after, cl.sections = before ++ x :: (between ++ y :: after) →
        x.family = y.family → ∀ z ∈ between, z.family = x.family) ∧
      ∀ today args, args.existing = file → args.tag ∈ cl.tags → args.generatedBody ≠ [] →
        promoteMultitrackSection u today sub args = .ok file := by
  have hempty : Represents h1 base none (.empty : Record u) := rfl
  obtain ⟨file, hrun, hfile⟩ := promoteAll_represents hempty htitle hh1 hbase
  obtain ⟨hlinks, hsections⟩ := foldl_add (.empty : Record u) [] (by simp [Record.tags, Record.empty])
  obtain ⟨hnodup, hordered⟩ := foldl_add_ordered (.empty : Record u)
    List.nodup_nil List.Pairwise.nil
  simp only [Record.empty, List.append_nil] at hsections hlinks
  refine ⟨file, _, hrun, hfile, hnodup, hsections, hlinks, hordered.imp fun h heq => ?_, ?_, ?_⟩
  · rcases h with hlt | ⟨-, hle⟩
    · exact absurd heq hlt.ne
    · exact hle
  · intro before x between y after hcut hxy
    refine SlotInsert.class_contiguous (hordered.imp fun h => ?_) hcut hxy
    exact h.elim le_of_lt fun h => h.1.le
  · exact fun today args hargs htag hbody => promote_present hfile htitle hargs htag hbody

end Run

/-! ### Two tracks -/

/-- A first release of the application. -/
def appPromotion (tag body : Text) : Promotion :=
  ⟨"app".toList, tag, none, body, "2025-01-02".toList⟩

def coreRelease : Release .ascii where
  toPromotion := appPromotion "core-v1.1.0".toList "### Features\n\n* one".toList
  family := "core-v".toList
  version := ⟨1, 1, 0, none, none⟩
  accepted := by decide +kernel
  cut := by decide +kernel
  parsed := by decide +kernel
  closed := by decide +kernel
  tag_line := by decide +kernel
  from_line := by simp [appPromotion]
  date_line := by decide +kernel
  body_plain := by decide +kernel

def cliRelease : Release .ascii where
  toPromotion := ⟨"cli".toList, "cli-v0.2.0".toList, some "cli-v0.1.0".toList,
    "* two\n* three".toList, "2025-01-03".toList⟩
  family := "cli-v".toList
  version := ⟨0, 2, 0, none, none⟩
  accepted := by decide +kernel
  cut := by decide +kernel
  parsed := by decide +kernel
  closed := by decide +kernel
  tag_line := by decide +kernel
  from_line := by
    rintro f ⟨⟩
    decide +kernel
  date_line := by decide +kernel
  body_plain := by decide +kernel

theorem two_tracks_complete : ∃ file, ∃ cl : Record .ascii,
    promoteAll .ascii (fun _ => .ok none) "# Changelog".toList (some "https://x.y".toList)
      ([coreRelease, cliRelease, coreRelease].map (·.toPromotion)) = .ok file ∧
      Represents "# Changelog".toList (some "https://x.y".toList) file cl ∧ cl.tags.Nodup := by
  have hbase : ∀ b ∈ some "https://x.y".toList, OneLine b := by
    rintro b ⟨⟩
    decide +kernel
  obtain ⟨file, cl, hrun, hfile, hnodup, -⟩ := promoteAll_complete
    [coreRelease, cliRelease, coreRelease] (by decide +kernel : isTitle "# Changelog".toList)
    (by decide +kernel) hbase
  exact ⟨file, cl, hrun, hfile, hnodup⟩

/-- The lines of the file after promotions without a base. -/
def filed (h1 : Text) (ps : List Promotion) : List Text :=
  match promoteAll .ascii (fun _ => .ok none) h1 none ps with
  | .ok file => Lines.lines (file.getD [])
  | .error _ => []

/-- A family whose prefix holds a version is split, tags of one precedence do not descend, runs of
blank lines are cut, a bracket hides a tag, a body may name a later tag, nothing is written for an
empty body, and a title that is no heading is repeated. -/
theorem promotions_out_of_order :
    let title := "# Changelog".toList
    let mixed := filed title [appPromotion "py-3.4-v1.2.3".toList "* a".toList,
      appPromotion "py-3.5-v1.1.0".toList "* b".toList,
      appPromotion "py-3.4-v1.0.0".toList "* c".toList]
    (mixed.filterMap sectionHeadingTag).map (splitTagFamily .ascii) =
        [some ("py-3.4-v".toList, ⟨1, 2, 3, none, none⟩),
          some ("py-3.5-v".toList, ⟨1, 1, 0, none, none⟩),
          some ("py-3.4-v".toList, ⟨1, 0, 0, none, none⟩)] ∧
      ((filed title [appPromotion "v1.0.0+a".toList "* a".toList,
        appPromotion "v1.0.0+b".toList "* b\n\n\n* c".toList]).filterMap sectionHeadingTag).map
          (fun t => (parseSemverTag .ascii t).map (·.compare ⟨1, 0, 0, none, none⟩)) =
        [some .eq, some .eq] ∧
      filed title [appPromotion "v1.0.0".toList "* b\n\n\n* c".toList] =
        [title, [], heading "v1.0.0".toList "2025-01-02".toList, "* b".toList, [], "* c".toList] ∧
      ((splitTagFamily .ascii "a]-v1.0.0".toList).isSome ∧
        (filed title [appPromotion "a]-v1.0.0".toList "* a".toList,
          appPromotion "a]-v1.0.0".toList "* a".toList]).filter isSectionHeading =
        [heading "a]-v1.0.0".toList "2025-01-02".toList,
          heading "a]-v1.0.0".toList "2025-01-02".toList]) ∧
      (filed title [appPromotion "v1.0.0".toList "##[v2.0.0]".toList,
        appPromotion "v2.0.0".toList "* b".toList]).filter isSectionHeading =
        [heading "v1.0.0".toList "2025-01-02".toList] ∧
      filed title [appPromotion "v1.0.0".toList []] = [] ∧
      (filed "Changelog".toList [appPromotion "v1.0.0".toList "* a".toList,
        appPromotion "v1.1.0".toList "* b".toList]).count "Changelog".toList = 2 := by
  refine ⟨?_, ?_, ?_, ⟨?_, ?_⟩, ?_, ?_, ?_⟩ <;> decide +kernel

end Anodizer.Changelog
