import Anodizer.Changelog.Refresh

/-! # The notes of a release

A root is refreshed for its crates, and then one of them is released. The
release takes every line of the subsection, its headings included.
-/

namespace Anodizer.Changelog

open Template (Text CharTables)
open Cuts

variable {body : List Notes} {c d : CrateName} {line h1 text : Text} {o : Option (List Text)}
  {compiled : List Compiled}

/-! ### Refreshes -/

/-- The subsection of the crate in the unreleased changes of a root. -/
def Holds (c : CrateName) (o : Option (List Text)) (text : Text) : Prop :=
  ∃ b, block (nonblank (Lines.lines text)) = some b ∧ sub c.name b = o

theorem eq_of_rel {o o' : Option (List Text)} (h : Option.Rel (List.Forall₂ Reread) o o')
    (hclean : ∀ ls ∈ o, ∀ line ∈ ls, Lines.Clean line) : o' = o := by
  cases h with
  | none => rfl
  | some hls => rw [eq_of_clean hls (hclean _ rfl)]

/-- Nothing is written for a crate without notes. -/
theorem refresh_nil (h : Holds c o text) : refresh h1 text (d, []) = text := by
  obtain ⟨b, hb, -⟩ := h
  rw [block_nonblank, Option.map_eq_some_iff] at hb
  obtain ⟨b₀, hb₀, -⟩ := hb
  rcases cutAfter_cases (p := isUnreleasedHeading) (Lines.lines text) with
    ⟨-, hall⟩ | ⟨init, heading, rest, hcut, -⟩
  · rw [block, part_eq_none.mpr hall] at hb₀
    cases hb₀
  · have hnil : joinLines (nested []) = [] := rfl
    simp only [refresh, replaceCrateSubsectionBody, demote_bodyText, hcut, hnil, if_true]

theorem holds_of_rewrites {b' : List Text}
    (hrel : Option.Rel (List.Forall₂ Reread) (some b') (block (nonblank (Lines.lines text))))
    (hsub : sub c.name b' = o) (hclean : ∀ ls ∈ o, ∀ line ∈ ls, Lines.Clean line) :
    Holds c o text := by
  generalize hblock : block (nonblank (Lines.lines text)) = found at hrel
  cases hrel with
  | some hb =>
    refine ⟨_, hblock, ?_⟩
    rw [← hsub] at hclean ⊢
    exact eq_of_rel (part_forall₂ (fun _ _ h => h.opens.2) (fun _ _ h => h.ends.2) hb) hclean

/-- A refresh of another crate keeps the subsection. -/
theorem Holds.refresh_of_ne (h : Holds c o text) (hne : d.name ≠ c.name)
    (hclean : ∀ ls ∈ o, ∀ line ∈ ls, Lines.Clean line) : Holds c o (refresh h1 text (d, body)) := by
  rcases eq_or_ne body [] with rfl | hbody
  · rwa [refresh_nil h]
  obtain ⟨b, hb, hsub⟩ := h
  obtain ⟨b', hrewrites, hrel⟩ := @refresh_spec _ d _ h1 _ hbody hb
  refine holds_of_rewrites hrel ?_ hclean
  rw [hrewrites.sub_of_ne hne fun line hline => (nested_quiet hline).2, hsub]

/-- The first refresh of a crate writes its subsection. -/
theorem Holds.refresh_self (h : Holds c none text) (hbody : body ≠ []) :
    Holds c (some (nested body)) (refresh h1 text (c, body)) := by
  obtain ⟨b, hb, hsub⟩ := h
  obtain ⟨b', hrewrites, hrel⟩ := @refresh_spec _ c _ h1 _ hbody hb
  refine holds_of_rewrites hrel
    (hrewrites.sub_self hsub fun line hline => (nested_quiet hline).2) ?_
  intro ls hls line hline
  obtain rfl := Option.some.inj hls
  exact (nested_clean hline).1

theorem Holds.refreshes {others : List (CrateName × List Notes)} (h : Holds c o text)
    (hothers : ∀ r ∈ others, r.1.name ≠ c.name)
    (hclean : ∀ ls ∈ o, ∀ line ∈ ls, Lines.Clean line) :
    Holds c o (others.foldl (refresh h1) text) := by
  induction others generalizing text with
  | nil => exact h
  | cons r others ih =>
    obtain ⟨hr, hrest⟩ := List.forall_mem_cons.mp hothers
    exact ih (h.refresh_of_ne hr hclean) hrest

/-! ### Buckets -/

/-- The lines of a group. -/
def Buckets.lines (s : Buckets) (i : ℕ) : List Text := (s.buckets[i]?).getD []

theorem put_length (s : Buckets) (line : Text) (o : Option ℕ) :
    (s.put line o).buckets.length = s.buckets.length := by
  cases o with
  | none => rfl
  | some i => exact List.length_modify ..

theorem put_last (s : Buckets) (line : Text) (o : Option ℕ) : (s.put line o).last = s.last := by
  cases o <;> rfl

theorem mem_put {s : Buckets} {i : ℕ} {x : Text} (o : Option ℕ) (h : x ∈ s.lines i) :
    x ∈ (s.put line o).lines i := by
  cases o with
  | none => exact h
  | some j =>
    rw [Buckets.lines] at h ⊢
    rw [Buckets.put, List.getElem?_modify]
    cases hs : s.buckets[i]? with
    | none => simp [hs] at h
    | some bucket =>
      rw [hs, Option.getD_some] at h
      by_cases hij : j = i
      · simp [hij, h]
      · simp [hij, h]

theorem mem_put_self {s : Buckets} {i : ℕ} (hi : i < s.buckets.length) :
    line ∈ (s.put line (some i)).lines i := by
  rw [Buckets.lines, Buckets.put, List.getElem?_modify, List.getElem?_eq_getElem hi]
  simp

/-- Every line of a state, whatever it is listed under. -/
def Buckets.all (s : Buckets) : List Text := s.buckets.flatten ++ s.unmatched

theorem flatten_modify {buckets : List (List Text)} {i : ℕ} (hi : i < buckets.length) :
    (buckets.modify i (· ++ [line])).flatten.Perm (line :: buckets.flatten) := by
  induction buckets generalizing i with
  | nil => cases hi
  | cons bucket buckets ih =>
    cases i with
    | zero =>
      rw [List.modify_zero_cons, List.flatten_cons, List.flatten_cons, List.append_assoc]
      exact List.perm_middle
    | succ i =>
      rw [List.modify_succ_cons, List.flatten_cons, List.flatten_cons]
      exact ((ih (Nat.lt_of_succ_lt_succ hi)).append_left bucket).trans List.perm_middle

theorem put_all {s : Buckets} {o : Option ℕ} (h : ∀ i ∈ o, i < s.buckets.length) :
    (s.put line o).all.Perm (line :: s.all) := by
  cases o with
  | none =>
    rw [Buckets.all, Buckets.put, ← List.append_assoc]
    exact List.perm_append_singleton line _
  | some i => exact (flatten_modify (h i rfl)).append_right s.unmatched

/-- The groups of a state are those that are configured. -/
structure Buckets.WellFormed (compiled : List Compiled) (s : Buckets) : Prop where
  length : s.buckets.length = compiled.length
  last : ∀ i ∈ s.last, i < compiled.length

theorem push_spec {s : Buckets} (h : s.WellFormed compiled) (line : Text) :
    (s.push compiled line).WellFormed compiled ∧ (s.push compiled line).all.Perm (line :: s.all) ∧
      (∀ i x, x ∈ s.lines i → x ∈ (s.push compiled line).lines i) ∧
      ∀ i, (stripListMarker line).bind (classify compiled) = some i →
        line ∈ (s.push compiled line).lines i := by
  rw [Buckets.push]
  cases hstrip : stripListMarker line with
  | none =>
    refine ⟨⟨(put_length ..).trans h.length, ?_⟩, put_all fun i hi => h.length ▸ h.last i hi,
      fun i x => mem_put s.last, fun i hi => by simp at hi⟩
    cases hlast : s.last with
    | none => exact fun i hi => h.last i hi
    | some j => exact fun i hi => h.last i hi
  | some raw =>
    have hlt : ∀ i ∈ classify compiled raw, i < compiled.length := fun i hi => classify_lt hi
    refine ⟨⟨(put_length ..).trans h.length, hlt⟩, put_all fun i hi => h.length ▸ hlt i hi,
      fun i x => mem_put _, fun i hi => ?_⟩
    rw [Option.bind_some] at hi
    dsimp only
    rw [hi]
    exact mem_put_self (h.length ▸ hlt i hi)

theorem foldl_push_spec (curated : List Text) {s : Buckets} (h : s.WellFormed compiled) :
    (curated.foldl (Buckets.push compiled) s).WellFormed compiled ∧
      (curated.foldl (Buckets.push compiled) s).all.Perm (curated ++ s.all) ∧
      (∀ i x, x ∈ s.lines i → x ∈ (curated.foldl (Buckets.push compiled) s).lines i) ∧
      ∀ line ∈ curated, ∀ i, (stripListMarker line).bind (classify compiled) = some i →
        line ∈ (curated.foldl (Buckets.push compiled) s).lines i := by
  induction curated generalizing s with
  | nil => exact ⟨h, .refl _, fun _ _ hx => hx, by simp⟩
  | cons line curated ih =>
    obtain ⟨hwell, hall, hmono, hput⟩ := push_spec h line
    obtain ⟨hwell', hall', hmono', hput'⟩ := ih hwell
    refine ⟨hwell', ?_, fun i x hx => hmono' i x (hmono i x hx), ?_⟩
    · exact (hall'.trans (hall.append_left curated)).trans List.perm_middle
    · intro x hx i hi
      rcases List.mem_cons.mp hx with rfl | hx
      · exact hmono' i _ (hput i hi)
      · exact hput' x hx i hi

/-- The group that a bullet belongs to. -/
def groupOf (compiled : List Compiled) (line : Text) : Option ℕ :=
  (stripListMarker line).bind (classify compiled)

/-- A group is in use only after one of its bullets. -/
theorem foldl_push_used (curated : List Text) {s : Buckets} {bullets : ℕ → Prop}
    (hs : ∀ i, s.lines i ≠ [] ∨ s.last = some i → bullets i)
    (hbullets : ∀ line ∈ curated, ∀ i, groupOf compiled line = some i → bullets i) :
    ∀ i, (curated.foldl (Buckets.push compiled) s).lines i ≠ [] → bullets i := by
  induction curated generalizing s with
  | nil => exact fun i hi => hs i (.inl hi)
  | cons line curated ih =>
    obtain ⟨hline, hcurated⟩ := List.forall_mem_cons.mp hbullets
    refine ih (fun i hi => ?_) hcurated
    have hput : ∀ o : Option ℕ, (s.put line o).lines i ≠ [] → s.lines i ≠ [] ∨ o = some i := by
      intro o ho
      cases o with
      | none => exact .inl ho
      | some j =>
        by_cases hij : j = i
        · exact .inr (congrArg some hij)
        · rw [Buckets.lines, Buckets.put, List.getElem?_modify] at ho
          simp only [hij, if_false, Option.map_eq_map, Option.map_id'] at ho
          exact .inl ho
    rw [Buckets.push] at hi
    cases hstrip : stripListMarker line with
    | none =>
      rw [hstrip] at hi
      rcases hi with hi | hi
      · exact hs i (hput _ hi)
      · exact hs i (.inr ((put_last ..).symm.trans hi))
    | some raw =>
      have hgroup : groupOf compiled line = classify compiled raw := by rw [groupOf, hstrip]; rfl
      rw [hstrip] at hi
      rcases hi with hi | hi
      · rcases hput _ hi with hi | hi
        · exact hs i (.inl hi)
        · exact hline i (hgroup.trans hi)
      · exact hline i (hgroup.trans hi)

/-- The heading of a group that is in use. -/
def headOf (compiled : List Compiled) (s : Buckets) (i : ℕ) : List Text :=
  if s.lines i = [] then [] else [h3 ++ groupTitle compiled i]

theorem emitGroup_eq (s : Buckets) (i : ℕ) :
    emitGroup compiled s i = headOf compiled s i ++ s.lines i := by
  rw [emitGroup, headOf, Buckets.lines]
  cases (s.buckets[i]?).getD [] with
  | nil => rfl
  | cons line bucket => rfl

def emptyBuckets (compiled : List Compiled) : Buckets := ⟨compiled.map fun _ => [], [], none⟩

theorem emptyBuckets_lines (i : ℕ) : (emptyBuckets compiled).lines i = [] := by
  rw [Buckets.lines, emptyBuckets, List.getElem?_map]
  cases compiled[i]? <;> rfl

theorem emptyBuckets_wellFormed : (emptyBuckets compiled).WellFormed compiled :=
  ⟨List.length_map .., fun i hi => by cases hi⟩

variable (compiled) in
/-- The released lines are those of the subsection under the headings of their groups. -/
theorem bucketLines_spec (curated : List Text) : ∃ heads,
    (bucketLines compiled curated).Perm (heads ++ curated) ∧
      (∀ line ∈ curated, ∀ i, groupOf compiled line = some i →
        h3 ++ groupTitle compiled i ∈ heads) ∧
      ∀ x ∈ heads, ∃ line ∈ curated, ∃ i, groupOf compiled line = some i ∧
        x = h3 ++ groupTitle compiled i := by
  obtain ⟨⟨hlength, -⟩, hall, -, hput⟩ :=
    @foldl_push_spec compiled curated _ emptyBuckets_wellFormed
  have hused : ∀ i, (bucketed compiled curated).lines i ≠ [] →
      ∃ line ∈ curated, groupOf compiled line = some i :=
    foldl_push_used curated
      (fun i hi => hi.elim (absurd (emptyBuckets_lines i)) fun h => by cases h)
      fun line hline i hi => ⟨line, hline, hi⟩
  have hempty : (emptyBuckets compiled).all = [] := by simp [emptyBuckets, Buckets.all]
  rw [hempty, List.append_nil] at hall
  change (bucketed compiled curated).all.Perm curated at hall
  change (bucketed compiled curated).buckets.length = compiled.length at hlength
  generalize hs : bucketed compiled curated = s at hlength hall hused
  let indexed := (List.range compiled.length).mergeSort
    fun i j => decide (orderKey compiled i ≤ orderKey compiled j)
  have hindexed : indexed.Perm (List.range compiled.length) := List.mergeSort_perm ..
  have hemit : bucketLines compiled curated =
      indexed.flatMap (fun i => headOf compiled s i ++ s.lines i) ++ s.unmatched := by
    rw [bucketLines, hs]
    simp only [← emitGroup_eq]
    rfl
  have hflat : (List.range compiled.length).flatMap s.lines = s.buckets.flatten := by
    rw [List.flatMap_def, ← hlength]
    congr 1
    refine List.ext_getElem (by simp) fun i h _ => ?_
    simp [Buckets.lines, List.getElem?_eq_getElem (show i < s.buckets.length by simpa using h)]
  refine ⟨indexed.flatMap (headOf compiled s), ?_, ?_, ?_⟩
  · rw [hemit]
    have hsplit := (List.flatMap_append_perm indexed (headOf compiled s) s.lines).symm
    have hbuckets : (indexed.flatMap s.lines).Perm s.buckets.flatten :=
      hflat ▸ hindexed.flatMap_right s.lines
    have hrest : (indexed.flatMap s.lines ++ s.unmatched).Perm curated :=
      (hbuckets.append_right _).trans hall
    refine (hsplit.append_right _).trans ?_
    rw [List.append_assoc]
    exact hrest.append_left _
  · intro line hline i hi
    have hmem := hput line hline i hi
    change line ∈ (bucketed compiled curated).lines i at hmem
    rw [hs] at hmem
    refine List.mem_flatMap.mpr ⟨i, hindexed.mem_iff.mpr ?_, ?_⟩
    · obtain ⟨raw, -, hraw⟩ := Option.bind_eq_some_iff.mp hi
      exact List.mem_range.mpr (classify_lt hraw)
    · rw [headOf, if_neg (List.ne_nil_of_mem hmem)]
      exact List.mem_singleton_self _
  · intro x hx
    obtain ⟨i, -, hx⟩ := List.mem_flatMap.mp hx
    rw [headOf] at hx
    split at hx
    · cases hx
    · next hne =>
      obtain ⟨line, hline, hi⟩ := hused i hne
      exact ⟨line, hline, i, hi, List.mem_singleton.mp hx⟩

/-! ### The section of a release -/

section Release

variable (regex : Text → Except Text (Text → Bool))

/-- The section that a promotion builds from a root. -/
def promotedSection (today : Except Text Text) (args : PromoteArgs) :
    Except PromoteError (Option (List Text)) :=
  releasedSection regex today args ((block (Lines.lines args.existing)).getD [])

/-- The body was generated for the groups: its blocks are of groups of their own, and each bullet
belongs to the group of its block. -/
def Generated (groups : List ChangelogGroup) (body : List Notes) : Prop :=
  ∃ compiled, compileGroupRegexes regex groups = .ok compiled ∧ ∃ indices : List ℕ,
    indices.Nodup ∧ List.Forall₂ (fun i b => (compiled[i]?).map (·.2.title) = some b.title ∧
      ∀ bullet ∈ b.bullets, groupOf compiled bullet = some i) indices body

/-- The bullets under a heading, up to the next heading. -/
def bulletsUnder (heading : Text) (section' : List Text) : List Text :=
  ((part (· = heading) (h3.isPrefixOf ·) section').getD []).filter (stripListMarker · |>.isSome)

/-- Two sections have the same bullets under each heading of the body, and the lines of the
subsection occur elsewhere in neither. -/
structure SameNotes (body : List Notes) (refreshed direct : List Text) : Prop where
  under : ∀ b ∈ body, bulletsUnder b.heading refreshed = bulletsUnder b.heading direct
  elsewhere : ∀ line ∈ nested body, refreshed.count line = direct.count line

/-- A root before the first refresh of a crate. -/
def Fresh (c : CrateName) (root : Text) : Prop :=
  ∃ b, block (Lines.lines root) = some b ∧ sub c.name b = none

/-- The arguments of a promotion of the crate. -/
structure NotesRelease where
  crate : CrateName
  body : List Notes
  tag : Text
  fromTag : Option Text
  chronology : Chronology
  groups : List ChangelogGroup
  base : Option Text

def NotesRelease.args (p : NotesRelease) (root : Text) : PromoteArgs :=
  ⟨root, p.crate.name, p.tag, p.fromTag, p.chronology, p.groups, bodyText p.body, p.base⟩

/-- The crate is refreshed, then others. -/
def NotesRelease.refreshed (p : NotesRelease) (h1 root : Text) (others : List (CrateName × List Notes)) :
    Text := others.foldl (refresh h1) (refresh h1 root (p.crate, p.body))

/-- A refreshed root releases the notes that the root releases as it is. -/
def ReleasesSame (date h1 root : Text) (p : NotesRelease) (others : List (CrateName × List Notes)) :
    Prop :=
  ∀ s, promotedSection regex (.ok date) (p.args (p.refreshed h1 root others)) = .ok (some s) →
    ∃ s', promotedSection regex (.ok date) (p.args root) = .ok (some s') ∧ SameNotes p.body s s'

variable {regex} {date root : Text} {p : NotesRelease} {others : List (CrateName × List Notes)}
  {groups : List ChangelogGroup}

theorem block_of_cut {lines head rest : List Text}
    (h : cutAfter isUnreleasedHeading lines = some (head, rest)) :
    block lines = some (rest.takeWhile fun line => !endsBlock line) := by
  rcases cutAfter_cases (p := isUnreleasedHeading) lines with
    ⟨hnone, -⟩ | ⟨init, heading, rest', hsome, rfl, hheading, hinit⟩
  · rw [hnone] at h
    cases h
  · rw [hsome, Option.some.injEq, Prod.mk.injEq] at h
    rw [block, part_append_of_none hinit, part, after, if_pos hheading, h.2]
    rfl

/-- A promotion slots this section among the released ones. -/
theorem promoteSubsection_eq {u : CharTables} {today : Except Text Text} {args : PromoteArgs}
    {head rest : List Text}
    (htag : (Lines.lines args.existing).any (isVersionHeading · args.tag) = false)
    (hcut : cutAfter isUnreleasedHeading (Lines.lines args.existing) = some (head, rest)) :
    promoteSubsection regex u today args =
      (promotedSection regex today args).map fun section? => section?.map fun promoted =>
        joinLines (appendSlottedSection u
          (rebuildUnreleased head (rest.takeWhile fun line => !endsBlock line) args.crateName)
          (rest.dropWhile fun line => !endsBlock line) promoted args.tag args.fromTag
          args.chronology args.base) ++ if args.existing.getLast? = some '\n' then ['\n'] else [] := by
  simp only [promoteSubsection, htag, hcut, promotedSection, block_of_cut hcut, Option.getD_some,
    Bool.false_eq_true, if_false]

theorem curatedLines_eq (n : Text) (b : List Text) :
    curatedLines n b = nonblank ((sub n b).getD []) := by
  rw [curatedLines]
  rcases cutAfter_cases (p := opensCrate n) b with
    ⟨hnone, hall⟩ | ⟨init, a, rest, hsome, rfl, ha, hinit⟩
  · rw [hnone, sub, part_eq_none.mpr hall]
    rfl
  · rw [hsome, sub, part_append_of_none hinit, part, after, if_pos ha]
    rfl

theorem curated_of_holds (h : Holds c o text) :
    curatedLines c.name ((block (Lines.lines text)).getD []) = o.getD [] := by
  obtain ⟨b, hb, hsub⟩ := h
  rw [block_nonblank, Option.map_eq_some_iff] at hb
  obtain ⟨b₀, hb₀, rfl⟩ := hb
  rw [sub_nonblank] at hsub
  rw [hb₀, Option.getD_some, curatedLines_eq, ← hsub]
  cases sub c.name b₀ <;> rfl

theorem Fresh.holds (h : Fresh c root) : Holds c none root := by
  obtain ⟨b, hb, hsub⟩ := h
  refine ⟨nonblank b, by rw [block_nonblank, hb]; rfl, ?_⟩
  rw [sub_nonblank, hsub]
  rfl

/-- A body is of groups that are there. -/
theorem Generated.exists_group {body : List Notes} (h : Generated regex groups body) :
    ∃ compiled, compileGroupRegexes regex groups = .ok compiled ∧ (body ≠ [] → groups ≠ []) ∧
      ∀ b ∈ body, ∃ i, groupTitle compiled i = b.title ∧
        ∀ bullet ∈ b.bullets, groupOf compiled bullet = some i := by
  obtain ⟨compiled, hcompiled, indices, -, hbody⟩ := h
  refine ⟨compiled, hcompiled, ?_, ?_⟩
  · rintro hne rfl
    obtain rfl := Except.ok.inj hcompiled
    cases hbody with
    | nil => exact hne rfl
    | cons h => exact absurd h.1 (by simp)
  · clear hcompiled
    induction hbody with
    | nil => simp
    | cons h _ ih =>
      refine List.forall_mem_cons.mpr ⟨⟨_, ?_, h.2⟩, ih⟩
      rw [groupTitle, h.1]
      rfl

theorem stripListMarker_heading (t : Text) : stripListMarker (demoteLine (h3 ++ t)) = none := by
  have hpre : h3.isPrefixOf? (h3 ++ t) = some t := List.isPrefixOf?_eq_some_iff_append_eq.mpr rfl
  rw [demoteLine, hpre]
  dsimp only
  split <;> rfl

/-- A bullet of a subsection is one of the body. -/
theorem bullet_of_nested {i : ℕ} (h : line ∈ nested body) (hi : groupOf compiled line = some i) :
    ∃ b ∈ body, line ∈ b.bullets := by
  obtain ⟨line, hline, rfl⟩ := List.mem_map.mp h
  rcases mem_bodyLines hline with ⟨b, -, rfl⟩ | ⟨b, hb, hline⟩
  · rw [Notes.heading, groupOf, stripListMarker_heading] at hi
    cases hi
  · rw [(marked_quiet (b.marked _ hline)).2.2.1]
    exact ⟨b, hb, hline⟩

theorem mem_nested_bullet {b : Notes} (hb : b ∈ body) (h : line ∈ b.bullets) : line ∈ nested body := by
  refine List.mem_map.mpr ⟨line, List.mem_flatMap.mpr ⟨b, hb, List.mem_cons_of_mem _ h⟩, ?_⟩
  exact (marked_quiet (b.marked _ h)).2.2.1

theorem mem_nested_heading {b : Notes} (hb : b ∈ body) : demoteLine b.heading ∈ nested body :=
  List.mem_map_of_mem (List.mem_flatMap.mpr ⟨b, hb, List.mem_cons_self⟩)

/-- The section of a root without the subsection. -/
theorem section_direct (h : Fresh p.crate root) (hbody : p.body ≠ []) :
    promotedSection regex (.ok date) (p.args root) =
      .ok (some (heading p.tag date :: bodyLines p.body ++ [[]])) := by
  have hcurated := curated_of_holds h.holds
  have htext : bodyText p.body ≠ [] := by
    intro hnil
    have hlines := lines_bodyText p.body
    rw [hnil] at hlines
    have hne := nested_eq_nil.not.mpr hbody
    rw [nested, ← hlines] at hne
    exact hne rfl
  rw [Option.getD_none] at hcurated
  simp only [promotedSection, releasedSection, NotesRelease.args, hcurated]
  simp only [ne_eq, not_true_eq_false, if_false, htext, not_false_eq_true, if_true]
  change Except.map some ((Except.ok _).mapError PromoteError.date) = _
  rw [lines_bodyText]
  rfl

/-- The section of a root with the subsection. -/
theorem section_refreshed (h : Holds p.crate (some (nested p.body)) text) (hbody : p.body ≠ [])
    (hgenerated : Generated regex p.groups p.body) : ∃ heads out,
    promotedSection regex (.ok date) (p.args text) =
      .ok (some (heading p.tag date :: out ++ [[]])) ∧
    out.Perm (heads ++ nested p.body) ∧
    ∀ b ∈ p.body, b.heading ∈ heads := by
  have hcurated := curated_of_holds h
  obtain ⟨compiled, hcompiled, hgroups, hblocks⟩ := hgenerated.exists_group
  obtain ⟨heads, hperm, hheads, hused⟩ := bucketLines_spec compiled (nested p.body)
  refine ⟨heads, bucketLines compiled (nested p.body), ?_, hperm, ?_⟩
  · have hlines : ∀ x ∈ bucketLines compiled (nested p.body), Lines.Clean x ∧ x ≠ [] := by
      intro x hx
      rcases List.mem_append.mp (hperm.subset hx) with hx | hx
      · obtain ⟨line, hline, i, hi, rfl⟩ := hused x hx
        obtain ⟨b, hb, hbullet⟩ := bullet_of_nested hline hi
        obtain ⟨j, htitle, hj⟩ := hblocks b hb
        obtain rfl : i = j := Option.some.inj (hi.symm.trans (hj line hbullet))
        rw [htitle]
        exact ⟨b.title_clean, by simp [h3]⟩
      · exact nested_clean hx
    have hread : Lines.lines (joinLines (bucketLines compiled (nested p.body))) =
        bucketLines compiled (nested p.body) :=
      lines_joinLines (fun x hx => (hlines x hx).1) (getLast?_ne_of_forall fun x hx => (hlines x hx).2)
    rw [Option.getD_some] at hcurated
    simp only [promotedSection, releasedSection, NotesRelease.args, hcurated]
    simp only [ne_eq, nested_eq_nil.not.mpr hbody, not_false_eq_true, if_true, bucketCuratedBullets,
      hgroups hbody, if_false, hcompiled]
    change Except.map some ((Except.ok _).mapError PromoteError.date) = _
    rw [hread]
    rfl
  · intro b hb
    obtain ⟨i, htitle, hi⟩ := hblocks b hb
    obtain ⟨bullet, bullets, hbullets⟩ := List.exists_cons_of_ne_nil b.ne_nil
    have hmem : bullet ∈ b.bullets := hbullets ▸ List.mem_cons_self
    have hhead := hheads bullet (mem_nested_bullet hb hmem) i (hi bullet hmem)
    rwa [htitle] at hhead

/-- The heading of a group is one line more in the section, or a line of its own. -/
theorem count_heading {b : Notes} {heads : List Text} (hb : b ∈ body) (hheads : b.heading ∈ heads) :
    (bodyLines body).count (demoteLine b.heading) <
      (heads ++ nested body).count (demoteLine b.heading) := by
  have hpos : 0 < (nested body).count (demoteLine b.heading) :=
    List.count_pos_iff.mpr (mem_nested_heading hb)
  have hpre : h3.isPrefixOf? b.heading = some b.title :=
    List.isPrefixOf?_eq_some_iff_append_eq.mpr rfl
  rw [List.count_append]
  by_cases hhash : b.title.head? = some '#'
  · have hself : demoteLine b.heading = b.heading := by
      rw [demoteLine, hpre]
      exact if_pos hhash
    have hle : (bodyLines body).count b.heading ≤ (nested body).count (demoteLine b.heading) :=
      List.count_le_count_map
    have hone : 0 < heads.count b.heading := List.count_pos_iff.mpr hheads
    rw [hself] at hle ⊢
    omega
  · have hdemoted : demoteLine b.heading = "#### ".toList ++ b.title := by
      rw [demoteLine, hpre]
      exact if_neg hhash
    have hnone : (bodyLines body).count (demoteLine b.heading) = 0 := by
      rw [List.count_eq_zero, hdemoted]
      intro hmem
      rcases mem_bodyLines hmem with ⟨b', -, heq⟩ | ⟨b', -, hbullet⟩
      · exact absurd (congrArg (·[3]?) heq) (by simp [Notes.heading, h3])
      · exact (marked_quiet (b'.marked _ hbullet)).2.2.2 rfl
    omega

/-- The headings of the subsection are released with its bullets. -/
theorem differs_of_ne (hroot : Fresh p.crate root) (hgenerated : Generated regex p.groups p.body)
    (hothers : ∀ r ∈ others, r.1.name ≠ p.crate.name) (hbody : p.body ≠ []) :
    ¬ReleasesSame regex date h1 root p others := by
  intro hsame
  have hclean : ∀ ls ∈ some (nested p.body), ∀ line ∈ ls, Lines.Clean line := by
    intro ls hls line hline
    obtain rfl := Option.some.inj hls
    exact (nested_clean hline).1
  have hholds : Holds p.crate (some (nested p.body)) (p.refreshed h1 root others) :=
    (hroot.holds.refresh_self hbody).refreshes hothers hclean
  obtain ⟨heads, out, hsection, hperm, hheads⟩ := section_refreshed hholds hbody hgenerated
  obtain ⟨s', hs', hnotes⟩ := hsame _ hsection
  rw [section_direct hroot hbody] at hs'
  obtain rfl := Option.some.inj (Except.ok.inj hs')
  obtain ⟨b, body, heq⟩ := List.exists_cons_of_ne_nil hbody
  have hb : b ∈ p.body := heq ▸ List.mem_cons_self
  have hcount := hnotes.elsewhere _ (mem_nested_heading hb)
  have hmore := count_heading hb (hheads b hb)
  rw [← hperm.count_eq] at hmore
  simp only [List.cons_append, List.count_cons, List.count_append] at hcount
  omega

/-- A refreshed root releases the same notes exactly when there are none. -/
theorem releasesSame_iff (hroot : Fresh p.crate root) (hgenerated : Generated regex p.groups p.body)
    (hothers : ∀ r ∈ others, r.1.name ≠ p.crate.name) :
    ReleasesSame regex date h1 root p others ↔ p.body = [] := by
  constructor
  · intro hsame
    by_contra hbody
    exact differs_of_ne hroot hgenerated hothers hbody hsame
  · intro hbody s hs
    have hholds : Holds p.crate none (p.refreshed h1 root others) := by
      rw [NotesRelease.refreshed, hbody, refresh_nil hroot.holds]
      exact hroot.holds.refreshes hothers fun ls hls => by cases hls
    have hcurated := curated_of_holds hholds
    simp only [promotedSection, releasedSection, NotesRelease.args, hcurated, hbody] at hs
    cases hs

end Release

/-! ### One note -/

/-- A pattern that is a literal at the start of a message. -/
def anchored : Text → Except Text (Text → Bool)
  | '^' :: p => .ok p.isPrefixOf
  | p => .ok fun raw => Template.contains raw p

def features : Notes where
  title := "Features".toList
  bullets := ["- feat: add thing".toList]
  ne_nil := by decide
  title_clean := ⟨by decide, by decide⟩
  clean bullet h := by
    obtain rfl := List.mem_singleton.mp h
    exact ⟨by decide, by decide⟩
  marked bullet h := by
    obtain rfl := List.mem_singleton.mp h
    decide

def app : NotesRelease where
  crate := ⟨"app".toList, by decide, by simp [Template.isWhitespace], by decide⟩
  body := [features]
  tag := "v0.7.0".toList
  fromTag := none
  chronology := .date
  groups := [⟨"Features".toList, some "^feat".toList, none⟩]
  base := none

def bareRoot : Text := "# Changelog\n\n## [Unreleased]\n".toList

theorem app_fresh : Fresh app.crate bareRoot := ⟨[], by decide, rfl⟩

theorem app_generated : Generated anchored app.groups app.body := by
  refine ⟨[(some "feat".toList.isPrefixOf, ⟨"Features".toList, some "^feat".toList, none⟩)], rfl,
    [0], by decide, .cons ⟨rfl, fun bullet h => ?_⟩ .nil⟩
  obtain rfl := List.mem_singleton.mp h
  decide

theorem releasesSame_iff_app :
    ReleasesSame anchored "2026-01-01".toList "# Changelog".toList bareRoot app [] ↔ app.body = [] :=
  releasesSame_iff app_fresh app_generated (by simp)

/-- The section of `app` holds a heading of its subsection. -/
theorem not_releasesSame :
    ¬ReleasesSame anchored "2026-01-01".toList "# Changelog".toList bareRoot app [] :=
  differs_of_ne app_fresh app_generated (by simp) (by simp [app])

end Anodizer.Changelog
