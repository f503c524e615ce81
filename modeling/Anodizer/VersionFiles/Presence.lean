import Anodizer.Lib.Traverse
import Anodizer.VersionFiles.OrderFree

/-! # The drift guard

After a rewrite the guard looks for the new version: anywhere in the file of a bare entry, and in
the regions that the anchor selects for the new version in the file of an anchored one.
-/

namespace Anodizer.VersionFiles

open Regex Splice
open Template (Text CharTables)

/-! ### The check -/

section Check

variable {φ : Type} (rx : RegexCrate) (u : CharTables)

/-- Whether the file of an entry holds the version. -/
def checkEntry (disk : Disk φ) (version : Text) (entry : Text × Option Text) :
    Except RewriteError (Text × Bool) :=
  match disk.read entry.1 with
  | none => .error (.read entry.1)
  | some content =>
    match entry.2 with
    | none => .ok (entry.1, containsVersion u content version)
    | some anchor => do
      let find ← anchorRegex rx entry.1 anchor version
      .ok (entry.1, (find content).any fun region =>
        !(occurrencesIn content region (occurrenceRe u version)).isEmpty)

def checkVersionPresent (disk : Disk φ) (entries : List (Text × Option Text)) (version : Text) :
    Except RewriteError (List (Text × Bool)) :=
  entries.mapM (checkEntry rx u disk version)

end Check

/-! ### Words -/

section Words

variable {u : CharTables} {text version version' matched matched' : Text} {i j : ℕ}

/-- The version starts and ends with a character of a word. -/
structure WordEdges (u : CharTables) (version : Text) : Prop where
  head : version.head?.any u.word
  last : version.getLast?.any u.word

instance : Decidable (WordEdges u version) :=
  decidable_of_iff (version.head?.any u.word ∧ version.getLast?.any u.word)
    ⟨fun h => ⟨h.1, h.2⟩, fun h => ⟨h.head, h.last⟩⟩

theorem WordEdges.ne_nil (h : WordEdges u version) : version ≠ [] := by
  rintro rfl
  cases h.head

theorem word_v (u : CharTables) : u.word 'v' := by
  rw [u.word_ascii 'v' (by decide)]
  rfl

/-- With a `v` before it, a version still starts and ends with a character of a word. -/
theorem WordEdges.spelled (h : WordEdges u version)
    (hspelled : matched = version ∨ matched = 'v' :: version) : WordEdges u matched := by
  rcases hspelled with rfl | rfl
  · exact h
  · refine ⟨word_v u, ?_⟩
    obtain ⟨c, hc, hword⟩ := (Option.any_eq_true _ _).mp h.last
    rw [List.getLast?_cons, hc]
    exact hword

/-- Before a text that starts a word there is a boundary after no character of a word. -/
theorem atBoundary_head {word : Char → Bool} {prev : Option Char} {rest : Text}
    (h : rest.head?.any word) : atBoundary word prev rest = !prev.any word := by
  rw [atBoundary, h]
  cases prev.any word <;> rfl

/-- After a text that ends a word there is a boundary before no character of a word. -/
theorem atBoundary_last {word : Char → Bool} {prev : Option Char} {rest : Text}
    (h : prev.any word) : atBoundary word prev rest = !rest.head?.any word := by
  rw [atBoundary, h]
  cases rest.head?.any word <;> rfl

theorem WordEdges.head_any (h : WordEdges u matched) (rest : Text) :
    (matched ++ rest).head?.any u.word := by
  obtain ⟨c, hc, hword⟩ := (Option.any_eq_true _ _).mp h.head
  rw [List.head?_append, hc]
  exact hword

theorem WordEdges.last_any (h : WordEdges u matched) (prev : Option Char) :
    (before prev matched).any u.word := by
  obtain ⟨c, hc, hword⟩ := (Option.any_eq_true _ _).mp h.last
  rw [before, hc]
  exact hword

/-! ### Occurrences -/

theorem Occurrence.drop_eq (h : Occurrence u text version i matched) :
    text.drop i = matched ++ text.drop (i + matched.length) := by
  have htext := h.text_eq
  conv at htext => lhs; rw [← List.take_append_drop i text]
  exact List.append_cancel_left htext

/-- No character of a word stands on either side of an occurrence. -/
theorem Occurrence.apart (h : Occurrence u text version i matched) (hedges : WordEdges u version) :
    (text.take i).getLast?.any u.word = false ∧
      (text.drop (i + matched.length)).head?.any u.word = false := by
  have hmatched := hedges.spelled h.spelled
  have hstart := h.start
  have hstop := h.stop
  rw [h.drop_eq, atBoundary_head (hmatched.head_any _)] at hstart
  rw [atBoundary_last (hmatched.last_any _)] at hstop
  simpa using And.intro hstart hstop

/-- A text between no characters of words that spells a version is an occurrence of it. -/
theorem occurrence_of_apart {pre rest : Text} (hedges : WordEdges u version)
    (hspelled : matched = version ∨ matched = 'v' :: version)
    (hpre : pre.getLast?.any u.word = false) (hrest : rest.head?.any u.word = false) :
    Occurrence u (pre ++ (matched ++ rest)) version pre.length matched := by
  have hmatched := hedges.spelled hspelled
  have hdrop : (pre ++ (matched ++ rest)).drop (pre.length + matched.length) = rest := by
    rw [← List.length_append, ← List.append_assoc, List.drop_left]
  refine ⟨hspelled, ?_, ?_, ?_⟩
  · rw [List.take_left, hdrop]
  · rw [List.take_left, List.drop_left, atBoundary_head (hmatched.head_any _), hpre]
    rfl
  · rw [hdrop, atBoundary_last (hmatched.last_any _), hrest]
    rfl

/-- Two occurrences never touch. -/
theorem Occurrence.not_touching (h : Occurrence u text version i matched)
    (h' : Occurrence u text version' j matched') (hedges : WordEdges u version)
    (hedges' : WordEdges u version') : i + matched.length ≠ j := by
  rintro rfl
  have hno := (h.apart hedges).2
  rw [h'.drop_eq] at hno
  rw [(hedges'.spelled h'.spelled).head_any _] at hno
  cases hno

theorem Occurrence.reads (h : Occurrence u text version i matched) :
    (occurrenceRe u version).Reads (text.take i).getLast? matched
      (text.drop (i + matched.length)) [] := by
  have hstart := h.start
  have hstop := h.stop
  rw [h.drop_eq] at hstart
  simp only [occurrenceRe, Re.cat, List.foldr, Re.opt, Re.Reads, Re.reads_lit]
  rcases h.spelled with rfl | rfl
  · exact ⟨[], _, [], [], rfl, rfl, ⟨rfl, rfl, hstart⟩, [], _, [], [], rfl, rfl, .inr ⟨rfl, rfl⟩,
      matched, [], [], [], (List.append_nil _).symm, rfl, ⟨String.toList_ofList.symm, rfl⟩, [], [],
      [], [], rfl, rfl, ⟨rfl, rfl, by simpa [before] using hstop⟩, rfl, rfl⟩
  · exact ⟨[], _, [], [], rfl, rfl, ⟨rfl, rfl, hstart⟩, ['v'], _, [], [], rfl, rfl,
      .inl ⟨⟨'v', rfl, rfl⟩, rfl⟩, version, [], [], [], (List.append_nil _).symm, rfl,
      ⟨String.toList_ofList.symm, rfl⟩, [], [], [], [], rfl, rfl,
      ⟨rfl, rfl, by simpa [before, List.getLast?_cons] using hstop⟩, rfl, rfl⟩

/-- The search finds a match no later than an occurrence. -/
theorem Occurrence.found (h : Occurrence u text version i matched) {pos : ℕ} (hpos : pos ≤ i) :
    ∃ j m, findAt (occurrenceRe u version) text pos = some (j, m) ∧ j ≤ i := by
  obtain ⟨m, hm⟩ := first_complete h.reads
  rw [← h.drop_eq] at hm
  exact findAt_complete hpos hm

theorem Occurrence.containsVersion (h : Occurrence u text version i matched) :
    VersionFiles.containsVersion u text version := by
  obtain ⟨j, m, hfind, -⟩ := h.found (Nat.zero_le i)
  rw [VersionFiles.containsVersion, hfind]
  rfl

/-- A match found no later than an occurrence ends no later either. -/
theorem Occurrence.stop_le (h : Occurrence u text version i matched)
    (h' : Occurrence u text version j matched') (hedges : WordEdges u version) (hle : j ≤ i) :
    j + matched'.length ≤ i + matched.length := by
  have hlen : matched.length = version.length ∨ matched.length = version.length + 1 := by
    rcases h.spelled with rfl | rfl
    · exact .inl rfl
    · exact .inr rfl
  rcases h'.spelled with rfl | rfl
  · omega
  · rcases Nat.lt_or_eq_of_le hle with hlt | rfl
    · rw [List.length_cons]
      omega
    · rcases h.spelled with rfl | rfl
      · -- the version would be followed by its own last character
        exfalso
        have hsame := h.drop_eq.symm.trans h'.drop_eq
        have hrest := congrArg (List.drop matched.length) hsame
        obtain ⟨c, hc, hword⟩ := (Option.any_eq_true _ _).mp hedges.last
        have hlast : matched.getLast hedges.ne_nil = c :=
          Option.some.inj ((List.getLast?_eq_some_getLast hedges.ne_nil).symm.trans hc)
        rw [List.drop_left, List.drop_append_of_le_length (by simp),
          List.drop_length_cons hedges.ne_nil, hlast] at hrest
        have hno := (h.apart hedges).2
        rw [hrest] at hno
        simp [hword] at hno
      · exact le_rfl

/-- A region around an occurrence has one. -/
theorem Occurrence.occurrencesIn_ne_nil (h : Occurrence u text version i matched)
    (hedges : WordEdges u version) {region : ℕ × ℕ} (hstart : region.1 ≤ i)
    (hstop : i + matched.length ≤ region.2) :
    occurrencesIn text region (occurrenceRe u version) ≠ [] := by
  obtain ⟨j, m, hfind, hle⟩ := h.found hstart
  obtain ⟨hpos, -, hocc⟩ := findAt_occurrence hedges.ne_nil hfind
  have hend := h.stop_le hocc hedges hle
  have hlen := hocc.length_pos hedges.ne_nil
  have hfuel : region.2 - region.1 = region.2 - region.1 - 1 + 1 := by omega
  rw [occurrencesIn, hfuel, occurrencesFrom, hfind]
  simp only
  rw [if_neg (by omega)]
  exact List.cons_ne_nil _ _

end Words

/-! ### What a rewrite writes -/

/-- Where a place of the original text, between its edits, has gone. -/
def placeIn (original : Text) (edits : List Edit) (place : ℕ) : ℕ :=
  (splice (original.take place) 0 ((sorted edits).filter (·.stop ≤ place))).length

section Written

variable {rx : RegexCrate} {u : CharTables} {original : Text} {r : FileRewrite}
  {entries : List (FileRewrite × ℕ)} {e : Edit}

theorem bumped_spelled (new matched : Text) :
    bumped new matched = new ∨ bumped new matched = 'v' :: new := by
  rw [bumped]
  split
  · exact .inr rfl
  · exact .inl rfl

/-- Between two edits of a file there is a character. -/
theorem fileEdits_apart (hedges : ∀ r ∈ entries, WordEdges u r.1.old) :
    (sorted (fileEdits rx u original entries)).Pairwise fun e f => e.stop < f.start := by
  have hsound : Splice.Disjoint (fileEdits rx u original entries) ∧
      ∀ e ∈ fileEdits rx u original entries, ∃ r ∈ entries, Replaces rx u original r.1 e :=
    fileEdits_sound fun r hr => (hedges r hr).ne_nil
  obtain ⟨hdisjoint, hreplaces⟩ := hsound
  refine hdisjoint.sorted.imp_of_mem fun {e f} he hf hle => ?_
  obtain ⟨r, hr, hre⟩ := hreplaces e (mem_sorted.mp he)
  obtain ⟨q, hq, hqf⟩ := hreplaces f (mem_sorted.mp hf)
  obtain ⟨matched, hocc, hstop, -⟩ := hre.occurrence
  obtain ⟨matched', hocc', -⟩ := hqf.occurrence
  have hne := hocc.not_touching hocc' (hedges r hr) (hedges q hq)
  omega

/-- What an edit writes is an occurrence of the new version in the new text. -/
theorem occurrence_written (hedges : ∀ r ∈ entries, WordEdges u r.1.old)
    (hold : WordEdges u r.old) (hnew : WordEdges u r.new)
    (he : e ∈ fileEdits rx u original entries) (hreplaces : Replaces rx u original r e) :
    Occurrence u (applyEdits original (fileEdits rx u original entries)) r.new
      (placeIn original (fileEdits rx u original entries) e.start) e.text := by
  have hsound : Splice.Disjoint (fileEdits rx u original entries) ∧
      ∀ e ∈ fileEdits rx u original entries, ∃ r ∈ entries, Replaces rx u original r.1 e :=
    fileEdits_sound fun r hr => (hedges r hr).ne_nil
  have hrange : ∀ f ∈ sorted (fileEdits rx u original entries),
      f.start < f.stop ∧ f.stop ≤ original.length := by
    intro f hf
    have hf' := mem_sorted.mp hf
    obtain ⟨q, -, hq⟩ := hsound.2 f hf'
    exact ⟨hsound.1.nonempty f hf', hq.within⟩
  have hapart : (sorted (fileEdits rx u original entries)).Pairwise fun e f => e.stop < f.start :=
    fileEdits_apart hedges
  obtain ⟨matched, hocc, hstop, htext⟩ := hreplaces.occurrence
  obtain ⟨before, after, hsplit⟩ := List.append_of_mem (mem_sorted.mpr he)
  rw [hsplit] at hapart hrange
  obtain ⟨-, hright, hacross⟩ := List.pairwise_append.mp hapart
  have hbefore : ∀ f ∈ before, f.stop < e.start := fun f hf => hacross f hf e List.mem_cons_self
  have hafter : ∀ f ∈ after, e.stop < f.start := (List.pairwise_cons.mp hright).1
  have hrange_e := hrange e (by simp)
  have hfilter : (before ++ e :: after).filter (·.stop ≤ e.start) = before := by
    have hin : before.filter (·.stop ≤ e.start) = before :=
      List.filter_eq_self.mpr fun f hf => decide_eq_true (hbefore f hf).le
    have hout : (e :: after).filter (·.stop ≤ e.start) = [] := by
      refine List.filter_eq_nil_iff.mpr fun f hf => ?_
      rw [decide_eq_true_eq]
      rcases List.mem_cons.mp hf with rfl | hf
      · omega
      · have hlt := hafter f hf
        have hpos := (hrange f (by simp [hf])).1
        omega
    rw [List.filter_append, hin, hout, List.append_nil]
  rw [placeIn, applyEdits, hsplit, hfilter,
    splice_append (hapart.imp fun h => h.le) fun f hf => (hrange f (by simp [hf])).1.le]
  have hsides := hocc.apart hold
  rw [← hstop] at hsides
  refine occurrence_of_apart hnew (htext ▸ bumped_spelled r.new matched) ?_ ?_
  · rw [getLast?_splice _ (.inr rfl)]
    · exact hsides.1
    · intro f hf
      have hlt := hbefore f hf
      rw [List.length_take]
      omega
  · rw [head?_splice]
    · exact hsides.2
    · intro f hf
      have hlt := hrange f (by simp [hf])
      exact ⟨hafter f hf, by omega⟩

end Written

/-! ### What is counted -/

section Counted

variable {φ : Type} {rx : RegexCrate} {u : CharTables} {original : Text} {disk : Disk φ}
  {rewrites : List FileRewrite}

/-- What was edited stays edited, and what was counted since is an edit of the list. -/
structure Counted (edits edits' wanted : List Edit) (n n' : ℕ) : Prop where
  keeps : edits ⊆ edits'
  counts : n < n' → ∃ e ∈ wanted, e ∈ edits'

theorem Counted.refl (edits wanted : List Edit) (n : ℕ) : Counted edits edits wanted n n :=
  ⟨List.Subset.refl _, fun h => absurd h (lt_irrefl n)⟩

theorem Counted.trans {edits edits' edits'' wanted wanted' : List Edit} {n n' n'' : ℕ}
    (h : Counted edits edits' wanted n n') (h' : Counted edits' edits'' wanted' n' n'') :
    Counted edits edits'' (wanted ++ wanted') n n'' where
  keeps := List.Subset.trans h.keeps h'.keeps
  counts hlt := by
    by_cases hfirst : n < n'
    · obtain ⟨e, he, hmem⟩ := h.counts hfirst
      exact ⟨e, List.mem_append_left _ he, h'.keeps hmem⟩
    · obtain ⟨e, he, hmem⟩ := h'.counts (by omega)
      exact ⟨e, List.mem_append_right _ he, hmem⟩

theorem counted_claim (new : Text) (s : Claimed × ℕ) (occ : ℕ × Text) :
    Counted s.1.edits (Claimed.claim new s occ).1.edits [toEdit new occ] s.2
      (Claimed.claim new s occ).2 := by
  simp only [Claimed.claim]
  split
  · exact .refl _ _ _
  · exact ⟨List.subset_append_left _ _, fun _ => ⟨toEdit new occ, List.mem_singleton_self _,
      List.mem_append_right _ (List.mem_singleton_self _)⟩⟩

theorem counted_foldl_claim (new : Text) (occs : List (ℕ × Text)) (s : Claimed × ℕ) :
    Counted s.1.edits (occs.foldl (Claimed.claim new) s).1.edits (occs.map (toEdit new)) s.2
      (occs.foldl (Claimed.claim new) s).2 := by
  induction occs generalizing s with
  | nil => exact .refl _ _ _
  | cons occ occs ih => exact (counted_claim new s occ).trans (ih _)

theorem counted_foldl_regions (r : FileRewrite) (regions : List (ℕ × ℕ)) (c : Claimed) (n : ℕ) :
    let s := regions.foldl (fun s region =>
      let (c', n) := claimOccurrences original region (occurrenceRe u r.old) r.new s.1
      (c', s.2 + n)) (c, n)
    Counted c.edits s.1.edits (regions.flatMap (regionEdits u original r)) n s.2 := by
  induction regions generalizing c n with
  | nil => exact .refl _ _ _
  | cons region regions ih =>
    have hregion := counted_foldl_claim r.new
      (occurrencesIn original region (occurrenceRe u r.old)) (c, 0)
    have hfirst : Counted c.edits
        (claimOccurrences original region (occurrenceRe u r.old) r.new c).1.edits
        (regionEdits u original r region) n
        (n + (claimOccurrences original region (occurrenceRe u r.old) r.new c).2) :=
      ⟨hregion.keeps, fun hlt => hregion.counts (Nat.pos_of_lt_add_right hlt)⟩
    exact hfirst.trans (ih _ _)

/-- An entry that counts a replacement has an edit of its own in the file. -/
theorem applyEntry_counted {r : FileRewrite} {c c' : Claimed} {n : ℕ} {m : Option ℕ}
    (h : applyEntry rx u original c r = .ok (c', n, m)) :
    Counted c.edits c'.edits (candidates rx u original r) 0 n := by
  rw [applyEntry] at h
  rw [candidates]
  cases hregions : entryRegions rx original r with
  | error e =>
    rw [hregions] at h
    cases h
  | ok regions =>
    rw [hregions] at h
    by_cases hsame : r.old = r.new
    · simp only [hsame, if_true, bind, Except.bind] at h
      cases h
      exact .refl _ _ _
    · simp only [hsame, if_false, bind, Except.bind] at h ⊢
      cases regions with
      | none =>
        cases h
        exact counted_foldl_claim r.new _ (c, 0)
      | some regions =>
        cases h
        exact counted_foldl_regions r regions c 0

/-- Every positive count is the count of an entry that has an edit of its own. -/
def CountsOf (rx : RegexCrate) (u : CharTables) (original : Text) (edits : List Edit)
    (entries : List (FileRewrite × ℕ)) (count : ℕ × ℕ × Option ℕ) : Prop :=
  0 < count.2.1 → ∃ r ∈ entries, r.2 = count.1 ∧ ∃ e ∈ candidates rx u original r.1, e ∈ edits

theorem foldlM_stepEntry_counted {entries : List (FileRewrite × ℕ)} {c c' : Claimed}
    {counts counts' : Counts}
    (h : entries.foldlM (stepEntry rx u original) (c, counts) = .ok (c', counts')) :
    c.edits ⊆ c'.edits ∧
      ∀ x ∈ counts', x ∈ counts ∨ CountsOf rx u original c'.edits entries x := by
  induction entries generalizing c counts with
  | nil =>
    cases h
    exact ⟨List.Subset.refl _, fun x hx => .inl hx⟩
  | cons r entries ih =>
    rw [List.foldlM_cons, stepEntry] at h
    cases happly : applyEntry rx u original c r.1 with
    | error e =>
      rw [happly] at h
      cases h
    | ok out =>
      obtain ⟨c₁, n, m⟩ := out
      rw [happly] at h
      have hfirst := applyEntry_counted happly
      obtain ⟨hkeeps, hcounts⟩ := ih h
      refine ⟨List.Subset.trans hfirst.keeps hkeeps, fun x hx => ?_⟩
      rcases hcounts x hx with hx | hof
      · rcases List.mem_cons.mp hx with rfl | hx
        · refine .inr fun hpos => ?_
          obtain ⟨e, he, hmem⟩ := hfirst.counts hpos
          exact ⟨r, List.mem_cons_self, rfl, e, he, hkeeps hmem⟩
        · exact .inl hx
      · refine .inr fun hpos => ?_
        obtain ⟨q, hq, hrest⟩ := hof hpos
        exact ⟨q, List.mem_cons_of_mem _ hq, hrest⟩

theorem applyEntries_counted {entries : List (FileRewrite × ℕ)} {c : Claimed} {counts : Counts}
    (h : applyEntries rx u original entries = .ok (c, counts)) :
    ∀ x ∈ counts, CountsOf rx u original (fileEdits rx u original entries) entries x := by
  intro x hx hpos
  rcases applyEntries_spec with ⟨e, hrun, -⟩ | ⟨c', counts', hrun, -, hedits⟩
  · rw [h] at hrun
    cases hrun
  · rw [h] at hrun
    cases hrun
    rcases (foldlM_stepEntry_counted h).2 x hx with hnil | hof
    · cases hnil
    · obtain ⟨r, hr, hrest⟩ := hof hpos
      rw [hedits] at hrest
      exact ⟨r, (List.perm_insertionSort _ _).mem_iff.mp hr, hrest⟩

/-- The entry has an edit of its own in its file. -/
def Wrote (rx : RegexCrate) (u : CharTables) (disk : Disk φ) (rewrites : List FileRewrite)
    (r : FileRewrite) (original : Text) (e : Edit) : Prop :=
  disk.read r.path = some original ∧ e ∈ candidates rx u original r ∧
    e ∈ fileEdits rx u original (entriesOf rewrites r.path)

/-- A count of a run in memory belongs to an entry that wrote if it is positive. -/
def CountedIn (rx : RegexCrate) (u : CharTables) (disk : Disk φ) (rewrites : List FileRewrite)
    (count : ℕ × ℕ × Option ℕ) : Prop :=
  0 < count.2.1 → ∃ r, rewrites[count.1]? = some r ∧
    ∃ original e, Wrote rx u disk rewrites r original e

theorem foldlM_stepFile_counted {paths : List Text} {s out : Counts × List (Text × Text)}
    (h : (paths.map fun p => (p, entriesOf rewrites p)).foldlM (stepFile rx u disk) s = .ok out)
    (hs : ∀ x ∈ s.1, CountedIn rx u disk rewrites x) :
    ∀ x ∈ out.1, CountedIn rx u disk rewrites x := by
  induction paths generalizing s with
  | nil =>
    cases h
    exact hs
  | cons path paths ih =>
    rw [List.map_cons, List.foldlM_cons, stepFile] at h
    cases hread : disk.read path with
    | none =>
      simp only [hread] at h
      cases h
    | some original =>
      simp only [hread] at h
      cases hrun : applyEntries rx u original (entriesOf rewrites path) with
      | error e =>
        rw [hrun] at h
        cases h
      | ok inFile =>
        rw [hrun] at h
        refine ih h fun x hx => ?_
        rcases List.mem_append.mp hx with hx | hx
        · intro hpos
          obtain ⟨r, hr, hindex, e, he, hmem⟩ := applyEntries_counted hrun x hx hpos
          obtain ⟨hzip, hpath⟩ := List.mem_filter.mp hr
          have hpath' : r.1.path = path := of_decide_eq_true hpath
          subst hpath'
          exact ⟨r.1, hindex ▸ List.mem_zipIdx_iff_getElem?.mp hzip, original, e, hread, he, hmem⟩
        · exact hs x hx

theorem rewriteInMemory_counted {counts : Counts} {pending : List (Text × Text)}
    (h : rewriteInMemory rx u disk rewrites = .ok (counts, pending)) :
    ∀ x ∈ counts, CountedIn rx u disk rewrites x :=
  foldlM_stepFile_counted h fun _ hx => absurd hx List.not_mem_nil

/-- An outcome that counts a replacement belongs to an entry that wrote. -/
theorem outcomes_counted {counts : Counts} (h : ∀ x ∈ counts, CountedIn rx u disk rewrites x)
    {i : ℕ} {r : FileRewrite} {o : RewriteOutcome} (hr : rewrites[i]? = some r)
    (ho : (outcomes rewrites counts)[i]? = some o) (hcount : 0 < o.replacements) :
    ∃ original e, Wrote rx u disk rewrites r original e := by
  have hzip : rewrites.zipIdx[i]? = some (r, i) := by
    rw [List.getElem?_zipIdx, hr, Option.map_some, Nat.zero_add]
  rw [outcomes, List.getElem?_map, hzip, Option.map_some] at ho
  obtain rfl := Option.some.inj ho
  cases hlookup : counts.lookup i with
  | none => simp [hlookup] at hcount
  | some count =>
    have hpos : 0 < count.1 := by simpa [hlookup] using hcount
    obtain ⟨before, after, hsplit, -⟩ := List.lookup_eq_some_iff.mp hlookup
    have hmem : (i, count) ∈ counts := by
      rw [hsplit]
      exact List.mem_append_right _ List.mem_cons_self
    obtain ⟨r', hr', hwrote⟩ := h _ hmem hpos
    rw [hr] at hr'
    cases hr'
    exact hwrote

end Counted

/-! ### The guard after a rewrite -/

section Guard

variable {φ : Type} {rx : RegexCrate} {u : CharTables} {disk disk' : Disk φ}
  {plan : List FileRewrite} {canWrite : Text → Bool}

/-- The check of an entry, alone or among others, reports that the version is present. -/
def ReportsPresent (rx : RegexCrate) (u : CharTables) (disk : Disk φ) (path : Text)
    (anchor : Option Text) (version : Text) : Prop :=
  checkVersionPresent rx u disk [(path, anchor)] version = .ok [(path, true)] ∧
    ∀ (entries : List (Text × Option Text)) (results : List (Text × Bool)) (k : ℕ),
      checkVersionPresent rx u disk entries version = .ok results →
      entries[k]? = some (path, anchor) → results[k]? = some (path, true)

theorem reportsPresent_of_checkEntry {path version : Text} {anchor : Option Text}
    (h : checkEntry rx u disk version (path, anchor) = .ok (path, true)) :
    ReportsPresent rx u disk path anchor version := by
  refine ⟨?_, fun entries results k hrun hentry => ?_⟩
  · rw [checkVersionPresent, Traverse.mapM_eq_ok, List.map_singleton, h]
    rfl
  · have hmap := congrArg (·[k]?) (Traverse.mapM_eq_ok.mp hrun)
    simp only [List.getElem?_map, hentry, Option.map_some, h] at hmap
    obtain ⟨result, hresult, heq⟩ := Option.map_eq_some_iff.mp hmap.symm
    rw [hresult, Except.ok.inj heq]

variable [DecidableEq φ]

/-- After a rewrite the file of an entry that wrote has its new text. -/
theorem read_of_wrote (hspelling : OneSpelling disk plan)
    {outs : List RewriteOutcome}
    (hrun : rewriteVersionInFiles rx u canWrite disk plan false = (disk', .ok outs))
    {r : FileRewrite} (hr : r ∈ plan) {original : Text} {e : Edit}
    (hwrote : Wrote rx u disk plan r original e) :
    disk'.read r.path =
      some (applyEdits original (fileEdits rx u original (entriesOf plan r.path))) := by
  obtain ⟨hread, -, hmem⟩ := hwrote
  rcases rewriteInMemory_spec (u := u) with
    ⟨e, hfail, -⟩ | ⟨counts, pending, hok, -, hnodup, hpending⟩
  · rw [rewriteVersionInFiles, hfail] at hrun
    cases hrun
  · rw [rewriteVersionInFiles, hok] at hrun
    simp only [Bool.false_eq_true, if_false] at hrun
    obtain ⟨rfl, hwritten⟩ := Prod.mk.inj hrun
    have hsub : ∀ p ∈ pending, p.1 ∈ plan.map (·.path) := fun p hp => ((hpending p.1 p.2).mp hp).1
    have hbody : (r.path, applyEdits original (fileEdits rx u original (entriesOf plan r.path))) ∈
        pending := (hpending _ _).mpr
      ⟨List.mem_map_of_mem hr, original, hread, List.ne_nil_of_mem hmem, rfl⟩
    have hall : (writeAll canWrite disk pending).2 = .ok () := by
      cases hresult : (writeAll canWrite disk pending).2 with
      | ok _ => rfl
      | error e =>
        rw [hresult] at hwritten
        cases hwritten
    rw [Disk.read, writeAll_file]
    exact writeAll_written disk hall (nodup_files hspelling hnodup hsub) hbody

/-- An entry that counts a replacement after a run wrote in its file. -/
theorem wrote_of_counted {outs : List RewriteOutcome} {dryRun : Bool}
    (hrun : rewriteVersionInFiles rx u canWrite disk plan dryRun = (disk', .ok outs)) {i : ℕ}
    {r : FileRewrite} {o : RewriteOutcome} (hr : plan[i]? = some r) (ho : outs[i]? = some o)
    (hcount : 0 < o.replacements) : ∃ original e, Wrote rx u disk plan r original e := by
  rw [rewriteVersionInFiles] at hrun
  cases hmemory : rewriteInMemory rx u disk plan with
  | error e =>
    rw [hmemory] at hrun
    cases hrun
  | ok out =>
    obtain ⟨counts, pending⟩ := out
    have hcounted := rewriteInMemory_counted hmemory
    rw [hmemory] at hrun
    cases dryRun with
    | true =>
      cases hrun
      exact outcomes_counted hcounted hr ho hcount
    | false =>
      simp only [Bool.false_eq_true, if_false] at hrun
      obtain ⟨-, hwritten⟩ := Prod.mk.inj hrun
      cases hresult : (writeAll canWrite disk pending).2 with
      | error e =>
        rw [hresult] at hwritten
        cases hwritten
      | ok _ =>
        rw [hresult] at hwritten
        cases hwritten
        exact outcomes_counted hcounted hr ho hcount

/-- The region lies around what an edit of the entry wrote. -/
def Around (rx : RegexCrate) (u : CharTables) (disk : Disk φ) (plan : List FileRewrite)
    (r : FileRewrite) (region : ℕ × ℕ) : Prop :=
  ∃ original e, Wrote rx u disk plan r original e ∧
    region.1 ≤ placeIn original (fileEdits rx u original (entriesOf plan r.path)) e.start ∧
    placeIn original (fileEdits rx u original (entriesOf plan r.path)) e.start + e.text.length ≤
      region.2

/-- After a rewrite the new version is reported present for every bare entry that counted a
replacement, and for every anchored one whose anchor, for the new version, still selects a region
around what the entry wrote. -/
theorem rewritten_reportsPresent (hedges : ∀ r ∈ plan, WordEdges u r.old ∧ WordEdges u r.new)
    (hspelling : OneSpelling disk plan) {outs : List RewriteOutcome}
    (hrun : rewriteVersionInFiles rx u canWrite disk plan false = (disk', .ok outs)) {i : ℕ}
    {r : FileRewrite} {o : RewriteOutcome} (hr : plan[i]? = some r) (ho : outs[i]? = some o)
    (hcount : 0 < o.replacements) :
    (r.anchor = none → ReportsPresent rx u disk' r.path none r.new) ∧
      ∀ anchor find body, r.anchor = some anchor →
        anchorRegex rx r.path anchor r.new = .ok find → disk'.read r.path = some body →
        (∃ region ∈ find body, Around rx u disk plan r region) →
          ReportsPresent rx u disk' r.path (some anchor) r.new := by
  have hmem : r ∈ plan := List.mem_of_getElem? hr
  have hentries : ∀ q ∈ entriesOf plan r.path, WordEdges u q.1.old := fun q hq =>
    (hedges q.1 (mem_entriesOf.mp ⟨q, hq, rfl⟩).1).1
  have hoccurrence : ∀ original e, Wrote rx u disk plan r original e →
      Occurrence u (applyEdits original (fileEdits rx u original (entriesOf plan r.path))) r.new
        (placeIn original (fileEdits rx u original (entriesOf plan r.path)) e.start) e.text := by
    rintro original e ⟨-, hcandidate, he⟩
    exact occurrence_written hentries (hedges r hmem).1 (hedges r hmem).2 he
      (replaces_of_mem (hedges r hmem).1.ne_nil hcandidate)
  constructor
  · rintro -
    obtain ⟨original, e, hwrote⟩ := wrote_of_counted hrun hr ho hcount
    refine reportsPresent_of_checkEntry ?_
    have hread := read_of_wrote hspelling hrun hmem hwrote
    simp only [checkEntry, hread, (hoccurrence original e hwrote).containsVersion]
  · rintro anchor find body hanchor hfind hread ⟨region, hregion, original, e, hwrote, haround⟩
    obtain ⟨hstart, hstop⟩ := haround
    refine reportsPresent_of_checkEntry ?_
    have hread' := read_of_wrote hspelling hrun hmem hwrote
    rw [hread] at hread'
    obtain rfl := Option.some.inj hread'
    have hin := (hoccurrence original e hwrote).occurrencesIn_ne_nil (hedges r hmem).2 hstart hstop
    have hany : (find (applyEdits original (fileEdits rx u original (entriesOf plan r.path)))).any
        (fun region => !(occurrencesIn (applyEdits original (fileEdits rx u original
          (entriesOf plan r.path))) region (occurrenceRe u r.new)).isEmpty) = true :=
      List.any_eq_true.mpr ⟨region, hregion, by simpa using hin⟩
    simp only [checkEntry, hread, hfind, bind, Except.bind, hany]

/-! ### Runs of the guard -/

def valuesRun : Disk Text × Except RewriteError (List RewriteOutcome) :=
  rewriteVersionInFiles literalRegex .ascii (fun _ => true) valuesFile valuesPlan false

theorem values_reportsPresent :
    ReportsPresent literalRegex .ascii valuesRun.1 valuesName none "1.0.0".toList ∧
      ReportsPresent literalRegex .ascii valuesRun.1 valuesName
        (some "operator: v\x7bversion\x7d".toList) "0.8.0".toList := by
  have hedges : ∀ r ∈ valuesPlan, WordEdges .ascii r.old ∧ WordEdges .ascii r.new := by
    decide +kernel
  have hspelling : OneSpelling valuesFile valuesPlan := fun _ _ _ _ h => h
  have houts : valuesRun.2 =
      .ok [⟨valuesName, some "operator: v\x7bversion\x7d".toList, 1, some 1⟩,
        ⟨valuesName, some "csi: v\x7bversion\x7d".toList, 1, some 1⟩,
        ⟨valuesName, none, 1, none⟩] := by decide +kernel
  have hrun : rewriteVersionInFiles literalRegex .ascii (fun _ => true) valuesFile valuesPlan
      false = (valuesRun.1, .ok _) := Prod.ext rfl houts
  have hread : valuesFile.read valuesName = some valuesText := by decide +kernel
  have hfind : anchorRegex literalRegex valuesName "operator: v\x7bversion\x7d".toList
      "0.8.0".toList = .ok (literalRegions ((Git.replaceText versionToken
        (literalRegex.escape "0.8.0".toList) "operator: v\x7bversion\x7d".toList).filter
          (· ≠ '\\')) 0 0) := if_neg (by decide +kernel)
  constructor
  · exact (rewritten_reportsPresent hedges hspelling hrun (i := 2) rfl rfl (by decide)).1 rfl
  · exact (rewritten_reportsPresent hedges hspelling hrun (i := 0) rfl rfl (by decide)).2 _ _
      "operator: v0.8.0\ncsi: v0.7.1\ncli 1.0.0\n".toList rfl hfind (by decide +kernel)
      ⟨(0, 16), by decide +kernel, valuesText, ⟨10, 16, "v0.8.0".toList⟩,
        ⟨hread, by decide +kernel, by decide +kernel⟩, by decide +kernel, by decide +kernel⟩

/-- An anchor that names a version which another entry rewrites no longer matches the file. -/
theorem anchor_loses_region :
    let doc := "doc.md".toList
    let pin := "needs 2.0.0: v\x7bversion\x7d".toList
    let units := [unitOf (.anchored doc pin) "1.0.0" "1.1.0", unitOf (.path doc) "2.0.0" "2.1.0"]
    let plan := units.flatMap fun unit => unit.files.map (candidate unit)
    let run := rewriteVersionInFiles literalRegex .ascii (fun _ => true)
      (oneFile doc "needs 2.0.0: v1.0.0".toList) plan false
    buildVersionFilesPlan .ascii units = .ok plan ∧
      run.2 = .ok [⟨doc, some pin, 1, some 1⟩, ⟨doc, none, 1, none⟩] ∧
      run.1.read doc = some "needs 2.1.0: v1.1.0".toList ∧
      checkVersionPresent literalRegex .ascii run.1 [(doc, some pin)] "1.1.0".toList =
        .ok [(doc, false)] := by
  decide +kernel

end Guard

end Anodizer.VersionFiles
