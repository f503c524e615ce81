import Anodizer.VersionFiles.Rewrite

/-! # What a rewrite changes

In every file each occurrence that an entry selects is replaced once, and the
order in which the entries are listed does not matter unless two entries that
claim together select bytes of one another.
-/

namespace Anodizer.VersionFiles

open Regex Splice
open Template (Text CharTables)

variable {rx : RegexCrate} {u : CharTables} {original : Text} {r : FileRewrite} {c : Claimed}

/-! ### What an entry selects -/

section Select

variable (rx u)

def regionEdits (original : Text) (r : FileRewrite) (region : ℕ × ℕ) : List Edit :=
  (occurrencesIn original region (occurrenceRe u r.old)).map (toEdit r.new)

/-- The replacements that an entry asks for. -/
def candidates (original : Text) (r : FileRewrite) : List Edit :=
  if r.old = r.new then []
  else
    match entryRegions rx original r with
    | .error _ => []
    | .ok none => regionEdits u original r (0, original.length)
    | .ok (some regions) => regions.flatMap (regionEdits u original r)

variable {rx u}

theorem claimOccurrences_edits (h : c.Paired) (region : ℕ × ℕ) :
    (claimOccurrences original region (occurrenceRe u r.old) r.new c).1.edits =
        Claims.claimAll Edit.Overlaps c.edits (regionEdits u original r region) ∧
      (claimOccurrences original region (occurrenceRe u r.old) r.new c).1.Paired :=
  Claimed.foldl_claim _ h

theorem foldl_regions (regions : List (ℕ × ℕ)) (h : c.Paired) (n : ℕ) :
    let s := regions.foldl (fun s region =>
      let (c', n) := claimOccurrences original region (occurrenceRe u r.old) r.new s.1
      (c', s.2 + n)) (c, n)
    s.1.edits = Claims.claimAll Edit.Overlaps c.edits (regions.flatMap (regionEdits u original r)) ∧
      s.1.Paired := by
  induction regions generalizing c n with
  | nil => exact ⟨rfl, h⟩
  | cons region regions ih =>
    obtain ⟨hedits, hpaired⟩ := claimOccurrences_edits (r := r) (u := u) h region
    obtain ⟨hrest, hpaired'⟩ := ih hpaired
      (n + (claimOccurrences original region (occurrenceRe u r.old) r.new c).2)
    refine ⟨?_, hpaired'⟩
    rw [List.flatMap_cons, Claims.claimAll_append, ← hedits]
    exact hrest

/-- An entry claims what it selects, unless its regions fail. -/
theorem applyEntry_spec (h : c.Paired) :
    (∃ e, entryRegions rx original r = .error e ∧ applyEntry rx u original c r = .error e) ∨
      ∃ regions c' count, entryRegions rx original r = .ok regions ∧
        applyEntry rx u original c r = .ok (c', count) ∧
        c'.edits = Claims.claimAll Edit.Overlaps c.edits (candidates rx u original r) ∧
        c'.Paired := by
  unfold applyEntry candidates
  cases hregions : entryRegions rx original r with
  | error e => exact .inl ⟨e, rfl, rfl⟩
  | ok regions =>
    right
    by_cases hsame : r.old = r.new
    · exact ⟨regions, c, _, rfl, by simp only [hsame, if_true]; rfl, by simp [hsame]; rfl, h⟩
    · simp only [hsame, if_false]
      cases regions with
      | none => exact ⟨none, _, _, rfl, rfl, claimOccurrences_edits h _⟩
      | some regions => exact ⟨some regions, _, _, rfl, rfl, foldl_regions regions h 0⟩

end Select

/-! ### The entries of a file -/

section Entries

variable {entries : List (FileRewrite × ℕ)}

variable (rx u original entries) in
theorem foldlM_stepEntry (h : c.Paired) (counts : Counts) :
    (∃ e, entries.foldlM (stepEntry rx u original) (c, counts) = .error e ∧
        ∃ r ∈ entries, ∃ e, entryRegions rx original r.1 = .error e) ∨
      ∃ c' counts', entries.foldlM (stepEntry rx u original) (c, counts) = .ok (c', counts') ∧
        (∀ r ∈ entries, ∃ regions, entryRegions rx original r.1 = .ok regions) ∧
        c'.edits = Claims.claimAll Edit.Overlaps c.edits
          (entries.flatMap fun r => candidates rx u original r.1) := by
  induction entries generalizing c counts with
  | nil => exact .inr ⟨c, counts, rfl, by simp, rfl⟩
  | cons r entries ih =>
    rw [List.foldlM_cons, stepEntry]
    rcases applyEntry_spec (u := u) (r := r.1) h with
      ⟨e, hregions, happly⟩ | ⟨regions, c', count, hregions, happly, hedits, hpaired⟩
    · rw [happly]
      exact .inl ⟨e, rfl, r, List.mem_cons_self, e, hregions⟩
    · rw [happly]
      rcases ih hpaired ((r.2, count) :: counts) with
        ⟨e, hrun, q, hq, hfail⟩ | ⟨c'', counts', hrun, hok, hedits'⟩
      · exact .inl ⟨e, hrun, q, List.mem_cons_of_mem _ hq, hfail⟩
      · refine .inr ⟨c'', counts', hrun, List.forall_mem_cons.mpr ⟨⟨regions, hregions⟩, hok⟩, ?_⟩
        rw [hedits', hedits, List.flatMap_cons, Claims.claimAll_append]

/-- The edits of a file, when none of its entries fails. -/
def fileEdits (rx : RegexCrate) (u : CharTables) (original : Text)
    (entries : List (FileRewrite × ℕ)) : List Edit :=
  Claims.claimAll Edit.Overlaps []
    ((entries.insertionSort appliedBefore).flatMap fun r => candidates rx u original r.1)

theorem applyEntries_spec :
    (∃ e, applyEntries rx u original entries = .error e ∧
        ∃ r ∈ entries, ∃ e, entryRegions rx original r.1 = .error e) ∨
      ∃ c counts, applyEntries rx u original entries = .ok (c, counts) ∧
        (∀ r ∈ entries, ∃ regions, entryRegions rx original r.1 = .ok regions) ∧
        c.edits = fileEdits rx u original entries := by
  have hmem : ∀ r, r ∈ entries.insertionSort appliedBefore ↔ r ∈ entries := fun r =>
    (List.perm_insertionSort _ _).mem_iff
  have hrun := foldlM_stepEntry rx u original (entries.insertionSort appliedBefore)
    (c := ⟨[], []⟩) rfl []
  simp only [hmem] at hrun
  exact hrun

/-! ### The order of the entries -/

/-- Anchored entries rank first, then longer old versions. -/
def rank (r : FileRewrite) : Bool ×ₗ ℕᵒᵈ :=
  toLex (r.anchor.isNone, OrderDual.toDual (byteLen r.old))

theorem appliedBefore_iff {a b : FileRewrite × ℕ} :
    appliedBefore a b ↔ rank a.1 ≤ rank b.1 := by
  rw [appliedBefore, rank, rank, Prod.Lex.toLex_le_toLex]
  refine or_congr ?_ Iff.rfl
  cases a.1.anchor <;> cases b.1.anchor <;> simp

theorem pairwise_sorted (entries : List (FileRewrite × ℕ)) :
    ((entries.insertionSort appliedBefore).map (·.1)).Pairwise fun a b => rank a ≤ rank b := by
  have htotal : Std.Total (appliedBefore) := ⟨fun a b => by
    rw [appliedBefore_iff, appliedBefore_iff]
    exact le_total _ _⟩
  have htrans : IsTrans (FileRewrite × ℕ) appliedBefore := ⟨fun a b c => by
    rw [appliedBefore_iff, appliedBefore_iff, appliedBefore_iff]
    exact le_trans⟩
  rw [List.pairwise_map]
  exact (List.pairwise_insertionSort appliedBefore entries).imp appliedBefore_iff.mp

/-- Entries of one rank select bytes that are apart, or replace them alike. -/
def TiedApart (rx : RegexCrate) (u : CharTables) (original : Text) (rs : List FileRewrite) : Prop :=
  ∀ a ∈ rs, ∀ b ∈ rs, a ≠ b → rank a = rank b →
    Claims.Compatible Edit.Overlaps (candidates rx u original a) (candidates rx u original b)

/-- The edits of a file do not depend on the order of its entries. -/
theorem mem_fileEdits_of_perm {entries' : List (FileRewrite × ℕ)}
    (hperm : (entries.map (·.1)).Perm (entries'.map (·.1))) (hnodup : (entries.map (·.1)).Nodup)
    (htied : TiedApart rx u original (entries.map (·.1))) (e : Edit) :
    e ∈ fileEdits rx u original entries ↔ e ∈ fileEdits rx u original entries' := by
  have hsort : ∀ es : List (FileRewrite × ℕ),
      ((es.insertionSort appliedBefore).map (·.1)).Perm (es.map (·.1)) := fun es =>
    (List.perm_insertionSort _ es).map _
  have hflat : ∀ es : List (FileRewrite × ℕ), fileEdits rx u original es =
      Claims.claimAll Edit.Overlaps []
        (((es.insertionSort appliedBefore).map (·.1)).flatMap (candidates rx u original)) := by
    intro es
    rw [fileEdits, List.flatMap_map]
  rw [hflat, hflat]
  refine Claims.mem_claimAll_of_perm (fun _ _ h => h.symm)
    ((hsort entries).trans (hperm.trans (hsort entries').symm)) ((hsort entries).nodup_iff.mpr hnodup)
    (pairwise_sorted entries) (pairwise_sorted entries') ?_ (fun _ => Iff.rfl) e
  intro a ha b hb
  exact htied a ((hsort entries).mem_iff.mp ha) b ((hsort entries).mem_iff.mp hb)

/-! ### The edits of a file -/

/-- An edit replaces an occurrence that an entry selects by the entry's new version. -/
structure Replaces (rx : RegexCrate) (u : CharTables) (original : Text) (r : FileRewrite)
    (e : Edit) : Prop where
  differs : r.old ≠ r.new
  occurrence : ∃ matched, Occurrence u original r.old e.start matched ∧
    e.stop = e.start + matched.length ∧ e.text = bumped r.new matched
  region : ∀ regions, entryRegions rx original r = .ok (some regions) →
    ∃ region ∈ regions, region.1 ≤ e.start ∧ e.stop ≤ region.2
  within : e.stop ≤ original.length

theorem mem_regionEdits {region : ℕ × ℕ} (hold : r.old ≠ []) {e : Edit}
    (h : e ∈ regionEdits u original r region) : region.1 ≤ e.start ∧ e.stop ≤ region.2 ∧
      e.stop ≤ original.length ∧ ∃ matched, Occurrence u original r.old e.start matched ∧
        e.stop = e.start + matched.length ∧ e.text = bumped r.new matched := by
  obtain ⟨⟨i, matched⟩, hocc, rfl⟩ := List.mem_map.mp h
  obtain ⟨hstart, hstop, hlen, hmatched⟩ := mem_occurrencesFrom hold hocc
  exact ⟨hstart, hstop, hlen, matched, hmatched, rfl, rfl⟩

theorem replaces_of_mem (hold : r.old ≠ []) {e : Edit} (h : e ∈ candidates rx u original r) :
    Replaces rx u original r e := by
  unfold candidates at h
  split at h
  · cases h
  · next hdiffers =>
    cases hregions : entryRegions rx original r with
    | error e =>
      rw [hregions] at h
      cases h
    | ok regions =>
      rw [hregions] at h
      cases regions with
      | none =>
        obtain ⟨-, -, hlen, hmatched⟩ := mem_regionEdits hold h
        refine ⟨hdiffers, hmatched, fun regions' h => ?_, hlen⟩
        rw [hregions] at h
        cases h
      | some regions =>
        obtain ⟨region, hregion, h⟩ := List.mem_flatMap.mp h
        obtain ⟨hstart, hstop, hlen, hmatched⟩ := mem_regionEdits hold h
        refine ⟨hdiffers, hmatched, fun regions' h => ?_, hlen⟩
        rw [hregions] at h
        cases h
        exact ⟨region, hregion, hstart, hstop⟩

theorem Occurrence.length_pos {version matched : Text} {i : ℕ} (hversion : version ≠ [])
    (h : Occurrence u original version i matched) : 0 < matched.length := by
  rcases h.spelled with rfl | rfl
  · exact List.length_pos_iff.mpr hversion
  · simp

/-- The edits of a file replace occurrences, none of which overlaps another. -/
theorem fileEdits_sound (hold : ∀ r ∈ entries, r.1.old ≠ []) :
    Splice.Disjoint (fileEdits rx u original entries) ∧
      ∀ e ∈ fileEdits rx u original entries, ∃ r ∈ entries, Replaces rx u original r.1 e := by
  have hreplaces : ∀ e ∈ fileEdits rx u original entries,
      ∃ r ∈ entries, Replaces rx u original r.1 e := by
    intro e he
    rcases Claims.mem_of_mem_claimAll he with he | he
    · cases he
    · obtain ⟨r, hr, he⟩ := List.mem_flatMap.mp he
      have hmem : r ∈ entries := (List.perm_insertionSort _ _).mem_iff.mp hr
      exact ⟨r, hmem, replaces_of_mem (hold r hmem) he⟩
  refine ⟨⟨fun e he => ?_, Claims.pairwise_claimAll (fun _ _ h => h.symm) List.Pairwise.nil⟩,
    hreplaces⟩
  obtain ⟨r, hr, hreplaces⟩ := hreplaces e he
  obtain ⟨matched, hmatched, hstop, -⟩ := hreplaces.occurrence
  have := hmatched.length_pos (hold r hr)
  omega

/-- The new text of a file is the old one with each edit's range replaced once. -/
theorem applyEdits_spliced (hold : ∀ r ∈ entries, r.1.old ≠ []) :
    Splice.Spliced 0 (Splice.sorted (fileEdits rx u original entries)) original
      (applyEdits original (fileEdits rx u original entries)) := by
  obtain ⟨hdisjoint, hreplaces⟩ := fileEdits_sound (u := u) hold
  have hrange : ∀ e ∈ Splice.sorted (fileEdits rx u original entries),
      e.start ≤ e.stop ∧ e.stop ≤ original.length := by
    intro e he
    have he' := Splice.mem_sorted.mp he
    obtain ⟨r, -, hr⟩ := hreplaces e he'
    exact ⟨(hdisjoint.nonempty e he').le, hr.within⟩
  exact Splice.spliced_splice hdisjoint.sorted hrange fun _ _ => Nat.zero_le _

end Entries

end Anodizer.VersionFiles
