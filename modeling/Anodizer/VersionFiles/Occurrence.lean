import Anodizer.Lib.Claims
import Anodizer.Lib.Regex
import Anodizer.Lib.Splice
import Anodizer.Template.StringLit

/-! # Occurrences of a version

A version occurs in a file where it stands between word boundaries, with or
without a `v`. An occurrence is claimed by the first entry that selects it.
-/

namespace Anodizer.VersionFiles

open Regex
open Template (Text CharTables)

abbrev Edit := Splice.Edit Char

/-! ### The matcher of a version -/

section Matcher

variable (u : CharTables)

def occurrenceRe (version : Text) : Re :=
  .cat [.wordBoundary u.word, .opt (.char (· == 'v')), .lit (String.ofList version),
    .wordBoundary u.word]

def containsVersion (content version : Text) : Bool :=
  (findAt (occurrenceRe u version) content 0).isSome

/-- A version at a place of a text: what is matched, between word boundaries. -/
structure Occurrence (text version : Text) (i : ℕ) (matched : Text) : Prop where
  spelled : matched = version ∨ matched = 'v' :: version
  text_eq : text = text.take i ++ (matched ++ text.drop (i + matched.length))
  start : atBoundary u.word (text.take i).getLast? (text.drop i)
  stop : atBoundary u.word (before (text.take i).getLast? matched)
    (text.drop (i + matched.length))

variable {u}

theorem reads_occurrenceRe {version t rest : Text} {prev : Option Char}
    {g : List (String × List Char)} (h : (occurrenceRe u version).Reads prev t rest g) :
    (t = version ∨ t = 'v' :: version) ∧ atBoundary u.word prev (t ++ rest) ∧
      atBoundary u.word (before prev t) rest := by
  simp only [occurrenceRe, Re.cat, List.foldr, Re.opt, Re.Reads, Re.reads_lit] at h
  obtain ⟨_, _, _, _, rfl, -, ⟨rfl, -, hstart⟩, v, _, _, _, rfl, -, hv, _, _, _, _, rfl, -,
    ⟨rfl, -⟩, _, _, _, _, rfl, -, ⟨rfl, -, hstop⟩, rfl, -⟩ := h
  simp only [String.toList_ofList, List.append_nil, List.nil_append, ← before_append,
    List.append_assoc] at hstart hstop ⊢
  rcases hv with ⟨⟨c, hc, rfl⟩, -⟩ | ⟨rfl, -⟩
  · obtain rfl : c = 'v' := by simpa using hc
    exact ⟨.inr rfl, hstart, hstop⟩
  · exact ⟨.inl rfl, hstart, hstop⟩

theorem findAt_occurrence {text version : Text} {pos i : ℕ} {m : Found} (hversion : version ≠ [])
    (h : findAt (occurrenceRe u version) text pos = some (i, m)) :
    pos ≤ i ∧ i + m.text.length ≤ text.length ∧ Occurrence u text version i m.text := by
  have hpos : pos ≤ text.length := by
    by_contra hlt
    rw [findAt, List.drop_eq_nil_of_le (by omega)] at h
    obtain ⟨m', hm, -⟩ := Option.map_eq_some_iff.mp h
    obtain ⟨hnil, hreads⟩ := first_sound hm
    obtain ⟨htext, -⟩ := List.append_eq_nil_iff.mp hnil.symm
    rcases (reads_occurrenceRe hreads).1 with heq | heq
    · exact hversion (heq.symm.trans htext)
    · cases heq.symm.trans htext
  obtain ⟨hle, pre, rfl, rfl, hreads⟩ := findAt_sound hpos h
  obtain ⟨hspelled, hstart, hstop⟩ := reads_occurrenceRe hreads
  have hdrop : (pre ++ (m.text ++ m.rest)).drop (pre.length + m.text.length) = m.rest := by
    rw [← List.length_append, ← List.append_assoc, List.drop_left]
  refine ⟨hle, by simp, hspelled, ?_, ?_, ?_⟩
  · rw [List.take_left, hdrop]
  · rwa [List.take_left, List.drop_left]
  · rwa [List.take_left, hdrop]

/-! ### The occurrences in a region -/

/-- The matches from a place on, as long as they end in the region. -/
def occurrencesFrom (r : Re) (text : Text) (stop : ℕ) : ℕ → ℕ → List (ℕ × Text)
  | 0, _ => []
  | fuel + 1, pos =>
    match findAt r text pos with
    | none => []
    | some (i, m) =>
      let next := i + m.text.length
      if stop < next ∨ next = pos then []
      else (i, m.text) :: occurrencesFrom r text stop fuel next

/-- The places and texts of the matches that lie in a region. -/
def occurrencesIn (text : Text) (region : ℕ × ℕ) (occurrence : Re) : List (ℕ × Text) :=
  occurrencesFrom occurrence text region.2 (region.2 - region.1) region.1

variable {r : Re} {text : Text} {stop pos : ℕ}

/-- A search goes right, so the length of the region is fuel enough. -/
theorem occurrencesFrom_fuel {n k : ℕ} (hstop : stop ≤ text.length) (hn : stop - pos ≤ n)
    (hk : stop - pos ≤ k) (hpos : pos ≤ stop) :
    occurrencesFrom r text stop n pos = occurrencesFrom r text stop k pos := by
  induction n generalizing k pos with
  | zero =>
    have hend : ∀ k, occurrencesFrom r text stop k pos = [] := by
      intro k
      cases k with
      | zero => rfl
      | succ k =>
        rw [occurrencesFrom]
        split
        · rfl
        · next i m hm =>
          have hle := (findAt_sound (hpos.trans hstop) hm).1
          simp only
          rw [if_pos (by omega)]
    rw [hend, hend]
  | succ n ih =>
    cases k with
    | zero =>
      rw [occurrencesFrom, occurrencesFrom]
      split
      · rfl
      · next i m hm =>
        have hle := (findAt_sound (hpos.trans hstop) hm).1
        simp only
        rw [if_pos (by omega)]
    | succ k =>
      rw [occurrencesFrom, occurrencesFrom]
      split
      · rfl
      · next i m hm =>
        have hle := (findAt_sound (hpos.trans hstop) hm).1
        simp only
        split
        · rfl
        · next hnext => rw [ih (k := k) (by omega) (by omega) (by omega)]

/-- The scan of a region takes its first match and goes on behind it. -/
theorem occurrencesIn_eq (hstop : stop ≤ text.length) (hpos : pos ≤ stop) :
    occurrencesIn text (pos, stop) r =
      match findAt r text pos with
      | none => []
      | some (i, m) =>
        if stop < i + m.text.length ∨ i + m.text.length = pos then []
        else (i, m.text) :: occurrencesIn text (i + m.text.length, stop) r := by
  rw [occurrencesIn, occurrencesFrom_fuel (k := stop - pos + 1) hstop le_rfl (by omega) hpos,
    occurrencesFrom]
  split
  · rfl
  · next i m hm =>
    have hle := (findAt_sound (hpos.trans hstop) hm).1
    simp only
    split
    · rfl
    · rw [occurrencesIn, occurrencesFrom_fuel hstop (by omega) le_rfl (by omega)]

theorem mem_occurrencesFrom {version : Text} {fuel i : ℕ} {matched : Text} (hversion : version ≠ [])
    (h : (i, matched) ∈ occurrencesFrom (occurrenceRe u version) text stop fuel pos) :
    pos ≤ i ∧ i + matched.length ≤ stop ∧ i + matched.length ≤ text.length ∧
      Occurrence u text version i matched := by
  induction fuel generalizing pos with
  | zero => cases h
  | succ fuel ih =>
    rw [occurrencesFrom] at h
    split at h
    · cases h
    · next j m hm =>
      obtain ⟨hle, hlen, hocc⟩ := findAt_occurrence hversion hm
      simp only at h
      split at h
      · cases h
      · next hnext =>
        rcases List.mem_cons.mp h with heq | h
        · cases heq
          exact ⟨hle, by omega, hlen, hocc⟩
        · obtain ⟨hle', hrest⟩ := ih h
          exact ⟨by omega, hrest⟩

/-! ### Claims -/

/-- The new version, with the `v` of the occurrence it replaces. -/
def bumped (new matched : Text) : Text := if matched.head? = some 'v' then 'v' :: new else new

/-- The ranges claimed in a file, and their replacements. -/
structure Claimed where
  claimed : List (ℕ × ℕ)
  edits : List Edit

def Claimed.claim (new : Text) (s : Claimed × ℕ) (occ : ℕ × Text) : Claimed × ℕ :=
  let (start, stop) := (occ.1, occ.1 + occ.2.length)
  if s.1.claimed.any fun c => start < c.2 ∧ c.1 < stop then s
  else (⟨s.1.claimed ++ [(start, stop)], s.1.edits ++ [⟨start, stop, bumped new occ.2⟩]⟩, s.2 + 1)

/-- Claim the occurrences in a region that no entry claimed before. -/
def claimOccurrences (text : Text) (region : ℕ × ℕ) (occurrence : Re) (new : Text) (c : Claimed) :
    Claimed × ℕ :=
  (occurrencesIn text region occurrence).foldl (Claimed.claim new) (c, 0)

def applyEdits (original : Text) (edits : List Edit) : Text :=
  Splice.splice original 0 (Splice.sorted edits)

def toEdit (new : Text) (occ : ℕ × Text) : Edit :=
  ⟨occ.1, occ.1 + occ.2.length, bumped new occ.2⟩

/-- The claimed ranges are those of the edits. -/
def Claimed.Paired (c : Claimed) : Prop := c.claimed = c.edits.map fun e => (e.start, e.stop)

theorem Claimed.claim_edits {new : Text} {s : Claimed × ℕ} (h : s.1.Paired) (occ : ℕ × Text) :
    (claim new s occ).1.edits = Claims.claim Splice.Edit.Overlaps s.1.edits (toEdit new occ) ∧
      (claim new s occ).1.Paired := by
  have hany : (s.1.claimed.any fun c => occ.1 < c.2 ∧ c.1 < occ.1 + occ.2.length) ↔
      ∃ e ∈ s.1.edits, (toEdit new occ).Overlaps e := by
    rw [h]
    simp [Splice.Edit.Overlaps, toEdit]
  simp only [claim, Claims.claim]
  by_cases hclash : ∃ e ∈ s.1.edits, (toEdit new occ).Overlaps e
  · rw [if_pos (hany.mpr hclash), if_pos hclash]
    exact ⟨rfl, h⟩
  · rw [if_neg (hany.not.mpr hclash), if_neg hclash]
    refine ⟨rfl, ?_⟩
    have := h
    unfold Paired at this ⊢
    simp [this]

theorem Claimed.foldl_claim {new : Text} (occs : List (ℕ × Text)) {s : Claimed × ℕ}
    (h : s.1.Paired) : (occs.foldl (claim new) s).1.edits =
        Claims.claimAll Splice.Edit.Overlaps s.1.edits (occs.map (toEdit new)) ∧
      (occs.foldl (claim new) s).1.Paired := by
  induction occs generalizing s with
  | nil => exact ⟨rfl, h⟩
  | cons occ occs ih =>
    obtain ⟨hedits, hpaired⟩ := claim_edits h occ
    obtain ⟨hrest, hpaired'⟩ := ih hpaired
    exact ⟨by rw [List.foldl_cons, hrest, hedits]; rfl, hpaired'⟩

end Matcher

end Anodizer.VersionFiles
