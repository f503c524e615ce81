import Anodizer.Changelog.Record

/-! # Rewriting the file

A promotion splits the file it reads into the title, the sections and the
footer. What it writes holds the record with one more release.
-/

namespace Anodizer.Changelog

open Template (Text CharTables)
open Git

variable {u : CharTables} {h1 : Text} {base : Option Text} {cl : Record u}

/-! ### Reading the record -/

theorem blank_line {line : Text} (h : isBlank line) : isTitle line = false ∧
    headingLabel line = none ∧ isUnreleasedHeading line = false ∧
    parseUnreleasedFooter line = none := by
  have hall := isBlank_iff.mp h
  have htrim : trimEnd line = [] := List.rdropWhile_eq_nil_iff.mpr hall
  have hempty : Template.trim line = [] := List.isEmpty_iff.mp h
  refine ⟨?_, by rw [headingLabel, htrim]; rfl, by rw [isUnreleasedHeading, htrim]; rfl,
    by rw [parseUnreleasedFooter, hempty]; rfl⟩
  rw [← Bool.not_eq_true]
  intro ht
  rw [(title_line ht).2.2.2.1] at h
  cases h

/-- What a line under the title says of the releases. -/
structure RecordLine (cl : Record u) (line : Text) : Prop where
  unreleased : isUnreleasedHeading line = false
  label : ∀ t, headingLabel line = some t → t ∈ cl.tags

theorem recordLine_blank {line : Text} (h : isBlank line) : RecordLine cl line :=
  ⟨(blank_line h).2.2.1, by simp [(blank_line h).2.1]⟩

theorem footer_bracket {line : Text} (h : line ∈ cl.footer base) : ∃ s, line = '[' :: s := by
  unfold Record.footer at h
  split at h
  · rcases List.mem_cons.mp h with rfl | h
    · exact ⟨_, rfl⟩
    · obtain ⟨r, -, rfl⟩ := List.mem_map.mp h
      unfold Release.linkLine
      split <;> exact ⟨_, rfl⟩
  · cases h

theorem recordLine_footer {line : Text} (h : line ∈ cl.footer base) : RecordLine cl line := by
  obtain ⟨s, rfl⟩ := footer_bracket h
  obtain ⟨-, hlabel, hunreleased, -⟩ := bracket_line (s := s)
  exact ⟨hunreleased, by simp [hlabel]⟩

theorem heading_not_blank (tag date : Text) : isBlank (heading tag date) = false :=
  not_isBlank (c := '#') (by simp [heading]) (by decide)

theorem recordLine_sections {sections : List (Release u)} {chunks : List (List Text)}
    (h : List.Forall₂ Release.IsSection sections chunks) (hsections : sections ⊆ cl.sections) :
    ∀ line ∈ chunks.flatten, RecordLine cl line := by
  induction h with
  | nil => simp
  | @cons r chunk sections chunks hchunk _ ih =>
    obtain ⟨body, rfl, hbody⟩ := hchunk
    obtain ⟨hr, hsections⟩ := List.cons_subset.mp hsections
    intro line hline
    simp only [List.flatten_cons, List.cons_append, List.mem_cons, List.mem_append] at hline
    rcases hline with rfl | hline | hline
    · refine ⟨isUnreleasedHeading_heading _ _, fun t ht => ?_⟩
      rw [headingLabel_heading r.closed] at ht
      exact Option.some.inj ht ▸ List.mem_map_of_mem hr
    · rcases Release.plain_of_squeezed hbody hline with hb | hplain
      · exact recordLine_blank hb
      · exact ⟨hplain.unreleased, by simp [hplain.label]⟩
    · exact ih hsections line hline

theorem heading_mem {sections : List (Release u)} {chunks : List (List Text)}
    (h : List.Forall₂ Release.IsSection sections chunks) {r : Release u} (hr : r ∈ sections) :
    heading r.tag r.date ∈ chunks.flatten := by
  induction h with
  | nil => cases hr
  | cons hchunk _ ih =>
    obtain ⟨body, rfl, -⟩ := hchunk
    rw [List.flatten_cons, List.cons_append]
    rcases List.mem_cons.mp hr with rfl | hr
    · exact List.mem_cons_self
    · exact List.mem_cons_of_mem _ (List.mem_append_right _ (ih hr))

/-- What the lines of a file that holds the record say. -/
theorem Written.lines {file : Text} (h : Written h1 base file cl) (htitle : isTitle h1) :
    ∃ chunks, Lines.lines file = document h1 chunks (cl.footer base) ∧
      List.Forall₂ Release.IsSection cl.sections chunks ∧
      (∀ line ∈ document h1 chunks (cl.footer base), Lines.Clean line) ∧
      (document h1 chunks (cl.footer base)).any isUnreleasedHeading = false ∧
      ∀ t, (document h1 chunks (cl.footer base)).any (isVersionHeading · t) ↔ t ∈ cl.tags := by
  obtain ⟨chunks, hchunks, hclean, rfl⟩ := h
  have hmem : ∀ line ∈ document h1 chunks (cl.footer base), line = h1 ∨ RecordLine cl line := by
    intro line hline
    simp only [document, List.mem_cons, List.mem_append] at hline
    rcases hline with rfl | rfl | hline | hline
    · exact .inl rfl
    · exact .inr (recordLine_blank rfl)
    · exact .inr (recordLine_sections hchunks (List.Subset.refl _) line hline)
    · exact .inr (recordLine_footer hline)
  refine ⟨chunks, Lines.lines_intercalate (List.cons_ne_nil _ _) hclean, hchunks, hclean, ?_,
    fun t => ?_⟩
  · rw [List.any_eq_false]
    intro line hline
    rcases hmem line hline with rfl | hrec
    · simp [(title_line htitle).2.2.1]
    · simp [hrec.unreleased]
  · simp only [List.any_eq_true, isVersionHeading, decide_eq_true_eq]
    constructor
    · rintro ⟨line, hline, hlabel⟩
      rcases hmem line hline with rfl | hrec
      · rw [(title_line htitle).2.1] at hlabel
        cases hlabel
      · exact hrec.label t hlabel
    · intro ht
      obtain ⟨s, hs, rfl⟩ := List.mem_map.mp ht
      refine ⟨heading s.tag s.date, ?_, headingLabel_heading s.closed⟩
      exact List.mem_cons_of_mem _ (List.mem_cons_of_mem _
        (List.mem_append_left _ (heading_mem hchunks hs)))

/-! ### The sections and the footer -/

theorem notFooter_blank {line : Text} (h : isBlank line) : notFooter line := by
  rw [notFooter, (blank_line h).2.2.2]
  rfl

theorem notFooter_sections {sections : List (Release u)} {chunks : List (List Text)}
    (h : List.Forall₂ Release.IsSection sections chunks) :
    ∀ line ∈ chunks.flatten, notFooter line := by
  induction h with
  | nil => simp
  | cons hchunk _ ih =>
    obtain ⟨body, rfl, hbody⟩ := hchunk
    intro line hline
    simp only [List.flatten_cons, List.cons_append, List.mem_cons, List.mem_append] at hline
    rcases hline with rfl | hline | hline
    · rw [notFooter, parse_heading]
      rfl
    · rcases Release.plain_of_squeezed hbody hline with hb | hplain
      · exact notFooter_blank hb
      · rw [notFooter, hplain.footer]
        rfl
    · exact ih line hline

theorem not_notFooter_unreleased (b tag : Text) : notFooter (unreleasedLink b tag) = false := by
  obtain ⟨url, hurl⟩ := Option.isSome_iff_exists.mp (parse_unreleasedLink b tag)
  rw [notFooter, hurl]
  rfl

/-- The footer starts where the sections end. -/
theorem span_footer {chunks : List (List Text)} (base : Option Text)
    (h : List.Forall₂ Release.IsSection cl.sections chunks) :
    (chunks.flatten ++ cl.footer base).takeWhile notFooter = chunks.flatten ∧
      (chunks.flatten ++ cl.footer base).dropWhile notFooter = cl.footer base := by
  have hfooter : (cl.footer base).takeWhile notFooter = [] ∧
      (cl.footer base).dropWhile notFooter = cl.footer base := by
    unfold Record.footer
    split
    · rw [List.takeWhile_cons_of_neg (by simp [not_notFooter_unreleased]),
        List.dropWhile_cons_of_neg (by simp [not_notFooter_unreleased])]
      exact ⟨rfl, rfl⟩
    · exact ⟨rfl, rfl⟩
  have hsections := notFooter_sections h
  rw [List.takeWhile_append_of_pos hsections, List.dropWhile_append_of_pos hsections, hfooter.1,
    hfooter.2, List.append_nil]
  exact ⟨rfl, rfl⟩

/-- The tail of a changelog starts with a line that is not blank. -/
theorem dropBlank_tail {sections : List (Release u)} {chunks : List (List Text)}
    (base : Option Text) (h : List.Forall₂ Release.IsSection sections chunks) :
    (chunks.flatten ++ cl.footer base).dropWhile isBlank = chunks.flatten ++ cl.footer base := by
  cases h with
  | nil =>
    rw [List.flatten_nil, List.nil_append]
    cases hf : cl.footer base with
    | nil => rfl
    | cons line rest =>
      obtain ⟨s, rfl⟩ := footer_bracket (hf ▸ List.mem_cons_self : line ∈ cl.footer base)
      rw [List.dropWhile_cons_of_neg (by simp [bracket_line])]
  | cons hchunk _ =>
    obtain ⟨body, rfl, -⟩ := hchunk
    rw [List.flatten_cons, List.cons_append, List.cons_append,
      List.dropWhile_cons_of_neg (by simp [heading_not_blank])]

theorem filter_footer (cl : Record u) (b : Text) :
    (cl.footer (some b)).filter notFooter = cl.links.map (Release.linkLine · b) := by
  have hlinks : ∀ links : List (Release u), (links.map (Release.linkLine · b)).filter notFooter =
      links.map (Release.linkLine · b) := by
    intro links
    refine List.filter_eq_self.mpr fun line hline => ?_
    obtain ⟨r, -, rfl⟩ := List.mem_map.mp hline
    rw [notFooter, r.parse_linkLine]
    rfl
  cases hl : cl.links with
  | nil => simp only [Record.footer, hl, List.filter_nil, List.map_nil]
  | cons r rs =>
    simp only [Record.footer, hl]
    rw [List.filter_cons_of_neg (by simp [not_notFooter_unreleased]), hlinks]

theorem pushRootFooter_some (out : List Text) (r : Release u) (b : Text) :
    pushRootFooter out (cl.footer (some b)) r.tag r.fromTag (some b) =
      out.rdropWhile isBlank ++ [] :: (⟨cl.sections, r :: cl.links⟩ : Record u).footer (some b) := by
  have hnew : rolledLinks b r.tag r.fromTag = [unreleasedLink b r.tag, r.linkLine b] := by
    cases hfrom : r.fromTag <;> simp only [Release.linkLine, hfrom] <;> rfl
  have hold := filter_footer cl b
  unfold notFooter at hold
  simp only [pushRootFooter, hnew, hold, List.append_assoc]
  rfl

/-! ### The last section -/

/-- The end of the last section may change by blank lines. -/
theorem last_section {sections : List (Release u)} {chunks : List (List Text)}
    (h : List.Forall₂ Release.IsSection sections chunks) (hne : sections ≠ []) :
    ∃ front top body, chunks.flatten = front.flatten ++ top :: body ∧ isBlank top = false ∧
      ∀ body', squeezed body' = squeezed body →
        List.Forall₂ Release.IsSection sections (front ++ [top :: body']) := by
  induction h with
  | nil => exact absurd rfl hne
  | @cons r chunk sections chunks hchunk hrest ih =>
    cases hs : sections with
    | nil =>
      rw [hs] at hrest
      cases hrest
      obtain ⟨body, rfl, hbody⟩ := hchunk
      exact ⟨[], heading r.tag r.date, body, by simp, heading_not_blank _ _,
        fun body' hbody' => .cons ⟨body', rfl, hbody'.trans hbody⟩ .nil⟩
    | cons s rest =>
      rw [← hs]
      obtain ⟨front, top, body, hflat, htop, hlast⟩ := ih (by simp [hs])
      exact ⟨chunk :: front, top, body, by simp [hflat], htop,
        fun body' hbody' => .cons hchunk (hlast body' hbody')⟩

/-- Sections whose last one lost the blank lines at its end. -/
theorem rdropBlank_sections {sections : List (Release u)} {chunks : List (List Text)}
    (h : List.Forall₂ Release.IsSection sections chunks) (hne : sections ≠ []) (a : List Text) :
    ∃ chunks', (a ++ chunks.flatten).rdropWhile isBlank = a ++ chunks'.flatten ∧
      List.Forall₂ Release.IsSection sections chunks' := by
  obtain ⟨front, top, body, hflat, htop, hlast⟩ := last_section h hne
  refine ⟨front ++ [top :: body.rdropWhile isBlank], ?_, hlast _ (Squeeze.squeeze_rdropWhile body)⟩
  rw [hflat, ← List.append_assoc, Squeeze.rdropWhile_append_cons htop]
  simp

theorem appendBlank_sections {sections : List (Release u)} {chunks : List (List Text)}
    (h : List.Forall₂ Release.IsSection sections chunks) (hne : sections ≠ []) :
    ∃ chunks', chunks.flatten ++ [[]] = chunks'.flatten ∧
      List.Forall₂ Release.IsSection sections chunks' := by
  obtain ⟨front, top, body, hflat, -, hlast⟩ := last_section h hne
  have hblank : squeezed (body ++ [[]]) = squeezed body :=
    Squeeze.squeeze_append_gaps body fun line hline => by rw [List.mem_singleton.mp hline]; rfl
  exact ⟨front ++ [top :: (body ++ [[]])], by rw [hflat]; simp, hlast _ hblank⟩

/-! ### Collapsing a changelog -/

theorem heading_not_fence (tag date : Text) : isCodeFence (heading tag date) = false := rfl

theorem collapse_sections {sections : List (Release u)} {chunks : List (List Text)}
    (h : List.Forall₂ Release.IsSection sections chunks) (s : Collapse) : ∃ chunks',
    (chunks.flatten.foldl Collapse.push s).out = s.out ++ chunks'.flatten ∧
      List.Forall₂ Release.IsSection sections chunks' := by
  induction h generalizing s with
  | nil => exact ⟨[], by simp, .nil⟩
  | @cons r chunk sections chunks hchunk _ ih =>
    obtain ⟨body, rfl, hbody⟩ := hchunk
    rw [List.flatten_cons, List.cons_append, List.foldl_cons,
      push_plain s (heading_not_fence _ _) (heading_not_blank _ _), List.foldl_append]
    obtain ⟨body', hout, hbody', -⟩ :=
      foldl_push body ⟨s.out ++ [heading r.tag r.date], 0, s.inFence⟩
    obtain ⟨chunks', hout', hrest⟩ :=
      ih (body.foldl Collapse.push ⟨s.out ++ [heading r.tag r.date], 0, s.inFence⟩)
    refine ⟨(heading r.tag r.date :: body') :: chunks', ?_, .cons ⟨body', rfl, ?_⟩ hrest⟩
    · rw [hout', hout]
      simp
    · exact hbody'.trans hbody

variable (base) in
/-- A collapsed changelog holds the same sections and the same footer. -/
theorem collapsed_document {sections : List (Release u)} {chunks : List (List Text)}
    (h : List.Forall₂ Release.IsSection sections chunks) (hne : sections ≠ [])
    (htitle : isTitle h1) (cl : Record u) : ∃ chunks',
    collapsed (document h1 chunks (cl.footer base)) = document h1 chunks' (cl.footer base) ∧
      List.Forall₂ Release.IsSection sections chunks' := by
  have hfence : isCodeFence h1 = false := by
    obtain ⟨s, rfl⟩ := List.isPrefixOf_iff_prefix.mp htitle
    rfl
  have hplain : ∀ line ∈ cl.footer base, isCodeFence line = false ∧ isBlank line = false := by
    intro line hline
    obtain ⟨s, rfl⟩ := footer_bracket hline
    exact ⟨rfl, bracket_line.2.2.2⟩
  obtain ⟨chunks', hout, hsections⟩ := collapse_sections h ⟨[h1, []], 1, false⟩
  have hrun : ((document h1 chunks (cl.footer base)).foldl Collapse.push ⟨[], 0, false⟩).out =
      document h1 chunks' (cl.footer base) := by
    rw [document, List.foldl_cons, push_plain _ hfence (title_line htitle).2.2.2.1, List.foldl_cons,
      List.foldl_append, foldl_push_plain (fun l hl => (hplain l hl).1) fun l hl => (hplain l hl).2]
    have hstart : Collapse.push ⟨[] ++ [h1], 0, false⟩ [] = ⟨[h1, []], 1, false⟩ := rfl
    rw [hstart, hout]
    simp [document]
  simp only [collapsed]
  split
  · exact ⟨chunks', hrun, hsections⟩
  · rw [hrun]
    rcases List.eq_nil_or_concat (cl.footer base) with hnil | ⟨front, last, hlast⟩
    · obtain ⟨chunks'', hdrop, hsections'⟩ := rdropBlank_sections hsections hne [h1, []]
      refine ⟨chunks'', ?_, hsections'⟩
      rw [hnil]
      simpa [document] using hdrop
    · refine ⟨chunks', ?_, hsections⟩
      have hblank : ¬ isBlank last = true := by
        rw [(hplain last (by rw [hlast]; simp)).2]
        exact Bool.false_ne_true
      have hdoc : document h1 chunks' (cl.footer base) =
          (h1 :: [] :: (chunks'.flatten ++ front)) ++ [last] := by simp [document, hlast]
      rw [hdoc, List.rdropWhile_concat_neg _ _ _ hblank]

/-! ### Adding a section -/

/-- The new section stands among those of the record with the release. -/
theorem slotted_sections {chunks : List (List Text)} (r : Release u) (hnew : r.tag ∉ cl.tags)
    (h : List.Forall₂ Release.IsSection cl.sections chunks) : ∃ chunks',
    slotSections u chunks.flatten (heading r.tag r.date :: Lines.lines r.body ++ [[]]) r.tag .tag =
        chunks'.flatten ∧
      List.Forall₂ Release.IsSection (cl.add r).sections chunks' := by
  obtain ⟨before, after, htake, hdrop, hbefore, hafter⟩ := span_sections h r.tag
  have hneg : ∀ s : Release u, decide (¬ goesBefore u r.tag s.tag = true) =
      !goesBefore u r.tag s.tag := fun s => by simp
  have hblank : squeezed (Lines.lines r.body ++ [[]]) = squeezed (Lines.lines r.body) :=
    Squeeze.squeeze_append_gaps _ fun line hline => by rw [List.mem_singleton.mp hline]; rfl
  refine ⟨before ++ (heading r.tag r.date :: (Lines.lines r.body ++ [[]])) :: after, ?_, ?_⟩
  · rw [slotSections_tag, htake, hdrop]
    simp
  · rw [Record.add, if_neg hnew, List.orderedInsert_eq_take_drop]
    simp only [hneg]
    exact List.rel_append hbefore (.cons ⟨_, rfl, hblank⟩ hafter)

theorem add_sections_ne (cl : Record u) {r : Release u} (hnew : r.tag ∉ cl.tags) :
    (cl.add r).sections ≠ [] := by
  rw [Record.add, if_neg hnew]
  exact List.ne_nil_of_mem ((List.mem_orderedInsert _).mpr (.inl rfl))

variable (h1 base) in
/-- Promotion writes the record with the release. -/
theorem appendSlotted_document {chunks : List (List Text)} (r : Release u) (hnew : r.tag ∉ cl.tags)
    (h : List.Forall₂ Release.IsSection cl.sections chunks) : ∃ chunks',
    appendSlottedSection u [h1, []] (chunks.flatten ++ cl.footer base)
        (heading r.tag r.date :: Lines.lines r.body ++ [[]]) r.tag r.fromTag .tag base =
        document h1 chunks' ((cl.add r).footer base) ∧
      List.Forall₂ Release.IsSection (cl.add r).sections chunks' := by
  obtain ⟨chunks', hslot, hchunks'⟩ := slotted_sections r hnew h
  rw [appendSlottedSection, (span_footer base h).1, (span_footer base h).2, hslot]
  cases base with
  | none => exact ⟨chunks', by rw [pushRootFooter]; rfl, hchunks'⟩
  | some b =>
    obtain ⟨trimmed, hdrop, htrimmed⟩ :=
      rdropBlank_sections hchunks' (add_sections_ne cl hnew) [h1, []]
    obtain ⟨fenced, hblank, hfenced⟩ := appendBlank_sections htrimmed (add_sections_ne cl hnew)
    refine ⟨fenced, ?_, hfenced⟩
    have hfooter : (cl.add r).footer (some b) =
        (⟨cl.sections, r :: cl.links⟩ : Record u).footer (some b) := by
      rw [Record.add, if_neg hnew]
      rfl
    rw [pushRootFooter_some, hdrop, hfooter, document, ← hblank]
    simp

/-! ### Lines that can be read back -/

theorem forall_slotSections {P : Text → Prop} {sections promoted : List Text} {tag : Text}
    (hsections : ∀ line ∈ sections, P line) (hpromoted : ∀ line ∈ promoted, P line) :
    ∀ line ∈ slotSections u sections promoted tag .tag, P line := by
  intro line hline
  rw [slotSections_tag] at hline
  simp only [List.mem_append] at hline
  rcases hline with (hline | hline) | hline
  · exact hsections line ((List.takeWhile_sublist _).mem hline)
  · exact hpromoted line hline
  · exact hsections line ((List.dropWhile_sublist _).mem hline)

theorem forall_pushRootFooter {P : Text → Prop} {out footer : List Text} {tag : Text}
    {fromTag : Option Text} (hout : ∀ line ∈ out, P line) (hfooter : ∀ line ∈ footer, P line)
    (hblank : P []) (hlinks : ∀ b ∈ base, ∀ line ∈ rolledLinks b tag fromTag, P line) :
    ∀ line ∈ pushRootFooter out footer tag fromTag base, P line := by
  intro line hline
  cases base with
  | none => exact (List.mem_append.mp hline).elim (hout line) (hfooter line)
  | some b =>
    simp only [pushRootFooter, List.mem_append, List.mem_cons, List.mem_filter] at hline
    rcases hline with (hline | rfl | hline) | ⟨hline, -⟩
    · exact hout line ((List.rdropWhile_prefix _ _).subset hline)
    · exact hblank
    · exact hlinks b rfl line hline
    · exact hfooter line hline

theorem clean_rolledLinks {b : Text} (hb : OneLine b) (r : Release u) :
    ∀ line ∈ rolledLinks b r.tag r.fromTag, Lines.Clean line := by
  have hlit : ∀ s ∈ ["[".toList, "]: ".toList, "/compare/".toList, "...".toList,
      "...HEAD".toList, "Unreleased".toList, "/releases/tag/".toList], OneLine s := by decide
  have hlink : ∀ label url, OneLine label → OneLine url → OneLine (link label url) :=
    fun label url hl hu => oneLine_append.mpr ⟨hlit "[".toList (by decide),
      oneLine_append.mpr ⟨hl, oneLine_append.mpr ⟨hlit _ (by decide), hu⟩⟩⟩
  have hunreleased : OneLine (unreleasedLink b r.tag) := hlink _ _ (hlit _ (by decide))
    (oneLine_append.mpr ⟨hb, oneLine_append.mpr ⟨hlit _ (by decide),
      oneLine_append.mpr ⟨r.tag_line, hlit _ (by decide)⟩⟩⟩)
  intro line hline
  cases hfrom : r.fromTag with
  | none =>
    rw [hfrom] at hline
    rcases List.mem_pair.mp hline with rfl | rfl
    · exact hunreleased.clean
    · exact (hlink _ _ r.tag_line (oneLine_append.mpr ⟨hb, oneLine_append.mpr
        ⟨hlit _ (by decide), r.tag_line⟩⟩)).clean
  | some f =>
    rw [hfrom] at hline
    rcases List.mem_pair.mp hline with rfl | rfl
    · exact hunreleased.clean
    · exact (hlink _ _ r.tag_line (oneLine_append.mpr ⟨hb, oneLine_append.mpr
        ⟨hlit _ (by decide), oneLine_append.mpr ⟨r.from_line f hfrom, oneLine_append.mpr
          ⟨hlit _ (by decide), r.tag_line⟩⟩⟩⟩)).clean

theorem clean_blank : Lines.Clean [] := ⟨by simp, by simp⟩

theorem clean_promoted (r : Release u) :
    ∀ line ∈ heading r.tag r.date :: Lines.lines r.body ++ [[]], Lines.Clean line := by
  intro line hline
  simp only [List.cons_append, List.mem_cons, List.mem_append, List.not_mem_nil, or_false] at hline
  rcases hline with rfl | hline | rfl
  · have hopen : OneLine "## [".toList := by decide
    have hclose : OneLine "] - ".toList := by decide
    exact (oneLine_append.mpr ⟨hopen, oneLine_append.mpr ⟨r.tag_line,
      oneLine_append.mpr ⟨hclose, r.date_line⟩⟩⟩).clean
  · exact ⟨Lines.newline_not_mem hline, (r.body_plain line hline).ending⟩
  · exact clean_blank

theorem clean_appendSlotted {out tail : List Text} (r : Release u) (hbase : ∀ b ∈ base, OneLine b)
    (hout : ∀ line ∈ out, Lines.Clean line) (htail : ∀ line ∈ tail, Lines.Clean line) :
    ∀ line ∈ appendSlottedSection u out tail (heading r.tag r.date :: Lines.lines r.body ++ [[]])
      r.tag r.fromTag .tag base, Lines.Clean line := by
  refine forall_pushRootFooter ?_ ?_ clean_blank fun b hb => clean_rolledLinks (hbase b hb) r
  · intro line hline
    rcases List.mem_append.mp hline with hline | hline
    · exact hout line hline
    · exact forall_slotSections (fun l hl => htail l ((List.takeWhile_sublist _).mem hl))
        (clean_promoted r) line hline
  · exact fun line hline => htail line ((List.dropWhile_sublist _).mem hline)

end Anodizer.Changelog
