import Anodizer.Pypi.Pep
import Anodizer.Git.Spelling

/-! # The order of mapped versions

Semantic versions order prereleases by their texts, PEP 440 by phases and numbers. A pair of
versions keeps its order unless its labels or the spellings of its numbers are ordered differently.
-/

namespace Anodizer.Pypi

open Git (SemVer)
open Pep440 (isNumber value Phase)
open Template (Text)

/-! ### Labels and numbers -/

/-- The text up to the first digit or dot. -/
def label (p : Text) : Text := p.takeWhile fun c => !c.isDigit && c != '.'

def number (p : Text) : Text := p.filter Char.isDigit

/-- A missing number counts as zero. -/
def spelledNumber (p : Text) : Text := if number p = [] then "0".toList else number p

/-- The digits that are glued to the label. -/
def glued (p : Text) : Text := if '.' ∈ p then [] else number p

/-- A prerelease is spelled before another: by the label, then by the glued digits as a text, and
without a number before one with a dot. -/
def Before (p q : Text) : Prop :=
  label p < label q ∨ label p = label q ∧
    (glued p < glued q ∨ glued p = glued q ∧ number p = [] ∧ number q ≠ [])

/-- The labels that documentation lists together. -/
def alike (l m : Text) : Prop :=
  l = m ∨ [l, m] ⊆ ["alpha".toList, "a".toList] ∨ [l, m] ⊆ ["beta".toList, "b".toList] ∨
    [l, m] ⊆ ["rc".toList, "pre".toList, "preview".toList]

instance (l m : Text) : Decidable (alike l m) := by unfold alike; infer_instance

/-- Two spellings of one prerelease, by the table of the documentation. -/
def SameInTable (p q : Text) : Prop := alike (label p) (label q) ∧ spelledNumber p = spelledNumber q

def labels : List Text :=
  ["alpha".toList, "a".toList, "beta".toList, "b".toList, "rc".toList, "pre".toList,
    "preview".toList, "c".toList, "dev".toList]

theorem segment_isSome {l : Text} : (segment l).isSome ↔ l ∈ labels := by
  have hcut : l ∈ labels ↔ l ∈ ["alpha".toList, "a".toList] ∨ l ∈ ["beta".toList, "b".toList] ∨
      l ∈ ["rc".toList, "pre".toList, "preview".toList, "c".toList] ∨ l = "dev".toList := by
    simp [labels, or_assoc]
  rw [hcut, segment]
  split_ifs <;> simp_all

/-- The parts of a prerelease that is mapped: a label with glued digits, or a number after a dot. -/
structure Parts (p l glue : Text) (dot : Option Text) : Prop where
  mem_labels : l ∈ labels
  eq : p = l ++ (glue ++ SemVer.suffix '.' dot)
  split_eq : splitPrerelease p = (l, if glue = [] then dot else some glue)
  digits : ∀ c ∈ glue, c.isDigit
  isNumber_dot : ∀ n ∈ dot, isNumber n ∧ (n.head? = some '0' → n = ['0'])
  one : glue = [] ∨ dot = none

theorem not_mem_of_isNumber {n : Text} {c : Char} (h : isNumber n) (hc : c.isDigit = false) :
    c ∉ n := by
  intro hmem
  rw [(Pep440.isNumber_iff.mp h).2 c hmem] at hc
  cases hc

theorem not_dot_of_isNumber {n : Text} (h : isNumber n) : '.' ∉ n := not_mem_of_isNumber h rfl

theorem not_dot_of_mem_labels {l : Text} (h : l ∈ labels) : '.' ∉ l := by
  revert h l
  decide

theorem exists_parts {p : Text} (hids : ∀ id ∈ p.splitOn '.', IsIdentifier id)
    (hseg : (splitPrerelease p).1 ∈ labels) : ∃ l glue dot, Parts p l glue dot := by
  cases hfirst : SplitOnce.first '.' p with
  | some cut =>
    obtain ⟨l, n⟩ := cut
    obtain ⟨rfl, hl⟩ := SplitOnce.first_eq_some.mp hfirst
    have hsplit : splitPrerelease (l ++ '.' :: n) =
        if isNumber n then (l, some n) else (l ++ '.' :: n, none) := by
      rw [splitPrerelease, hfirst]
    by_cases hn : isNumber n
    · rw [if_pos hn] at hsplit
      have hcut : (l ++ '.' :: n).splitOn '.' = [l, n] := by
        rw [List.splitOn_append_cons_self, List.splitOn_eq_singleton hl,
          List.splitOn_eq_singleton (not_dot_of_isNumber hn)]
        rfl
      rw [hsplit] at hseg
      refine ⟨l, [], some n, hseg, rfl, hsplit, by simp, ?_, .inl rfl⟩
      rintro k hk
      obtain rfl : n = k := Option.some.inj hk
      exact ⟨hn, (hids n (by simp [hcut])).no_leading_zero hn⟩
    · rw [hsplit, if_neg hn] at hseg
      exact absurd (by simp) (not_dot_of_mem_labels hseg)
  | none =>
    by_cases hglued : p.takeWhile (fun c => !c.isDigit) ≠ [] ∧
        isNumber (p.dropWhile fun c => !c.isDigit)
    · have hsplit : splitPrerelease p = (p.takeWhile fun c => !c.isDigit,
          some (p.dropWhile fun c => !c.isDigit)) := by
        rw [splitPrerelease, hfirst]
        exact if_pos hglued
      obtain ⟨hne, hdigit⟩ := Pep440.isNumber_iff.mp hglued.2
      rw [hsplit] at hseg
      refine ⟨_, _, none, hseg, ?_, by rw [hsplit, if_neg hne], hdigit, by simp, .inr rfl⟩
      rw [SemVer.suffix, List.append_nil, List.takeWhile_append_dropWhile]
    · have hsplit : splitPrerelease p = (p, none) := by
        rw [splitPrerelease, hfirst]
        exact if_neg hglued
      rw [hsplit] at hseg
      exact ⟨p, [], none, hseg, (List.append_nil p).symm, hsplit, by simp, by simp, .inl rfl⟩

namespace Parts

variable {p l g : Text} {dot : Option Text}

theorem label_eq (h : Parts p l g dot) : label p = l := by
  have hletters : ∀ l ∈ labels, ∀ c ∈ l, (!c.isDigit && c != '.') = true := by simp [labels]
  rw [label, h.eq, List.takeWhile_append_of_pos (hletters l h.mem_labels)]
  cases g with
  | nil => cases dot <;> simp [SemVer.suffix]
  | cons d g => simp [h.digits d List.mem_cons_self]

theorem number_eq (h : Parts p l g dot) : number p = g ++ dot.getD [] := by
  have hlabel : ∀ l ∈ labels, l.filter Char.isDigit = [] := by simp [labels]
  rw [number, h.eq, List.filter_append, hlabel l h.mem_labels, List.nil_append,
    List.filter_append, List.filter_eq_self.mpr h.digits]
  cases dot with
  | none => rfl
  | some n =>
    have hn := List.filter_eq_self.mpr (Pep440.isNumber_iff.mp (h.isNumber_dot n rfl).1).2
    rw [SemVer.suffix, List.filter_cons_of_neg (by decide), hn, Option.getD_some]

theorem not_dot_glue (h : Parts p l g dot) : '.' ∉ g := fun hdot =>
  absurd (h.digits '.' hdot) (by decide)

theorem glued_eq (h : Parts p l g dot) : glued p = g := by
  have hnum := h.number_eq
  cases dot with
  | none =>
    have hdot : '.' ∉ p := by
      rw [h.eq]
      simp [SemVer.suffix, not_dot_of_mem_labels h.mem_labels, h.not_dot_glue]
    rw [glued, if_neg hdot, hnum, Option.getD_none, List.append_nil]
  | some n =>
    have hdot : '.' ∈ p := by simp [h.eq, SemVer.suffix]
    rw [glued, if_pos hdot, h.one.resolve_right (by simp)]

theorem splitOn_eq (h : Parts p l g dot) : p.splitOn '.' = (l ++ g) :: dot.toList := by
  have hfirst : '.' ∉ l ++ g := by
    simp [not_dot_of_mem_labels h.mem_labels, h.not_dot_glue]
  rw [h.eq, ← List.append_assoc]
  cases dot with
  | none => rw [SemVer.suffix, List.append_nil, List.splitOn_eq_singleton hfirst]; rfl
  | some n =>
    rw [SemVer.suffix, List.splitOn_append_cons_self, List.splitOn_eq_singleton hfirst,
      List.splitOn_eq_singleton (not_dot_of_isNumber (h.isNumber_dot n rfl).1)]
    rfl

theorem spelledNumber_eq (h : Parts p l g dot) :
    (splitPrerelease p).2.getD "0".toList = spelledNumber p := by
  rw [h.split_eq, spelledNumber, h.number_eq]
  by_cases hg : g = []
  · cases dot with
    | none => simp [hg]
    | some n => simp [hg, (Pep440.isNumber_iff.mp (h.isNumber_dot n rfl).1).1]
  · simp [hg, h.one.resolve_left hg]

theorem isNumber_spelledNumber (h : Parts p l g dot) : isNumber (spelledNumber p) := by
  rw [← h.spelledNumber_eq, h.split_eq]
  by_cases hg : g = []
  · cases dot with
    | none => simp [hg, isNumber]
    | some n => simpa [hg] using (h.isNumber_dot n rfl).1
  · simpa [hg] using Pep440.isNumber_iff.mpr ⟨hg, h.digits⟩

/-- Only a prerelease without a number has neither part of one. -/
theorem number_eq_nil (h : Parts p l g dot) : number p = [] ↔ g = [] ∧ dot = none := by
  rw [h.number_eq, List.append_eq_nil_iff]
  cases dot with
  | none => simp
  | some n => simp [(Pep440.isNumber_iff.mp (h.isNumber_dot n rfl).1).1]

end Parts

/-! ### The order of prereleases -/

section Prereleases

variable {l m ds es : Text}

/-- Labels stand before digits in a text, and a letter is greater than a digit. -/
theorem append_lt_append (hl : ∀ c ∈ l, '9' < c) (hm : ∀ c ∈ m, '9' < c)
    (hds : ∀ c ∈ ds, c.isDigit) (hes : ∀ c ∈ es, c.isDigit) :
    l ++ ds < m ++ es ↔ l < m ∨ l = m ∧ ds < es := by
  have hdigit : ∀ {c d : Char}, c.isDigit → '9' < d → c < d := by
    intro c d hc hd
    have hle : c ≤ '9' := by
      simp only [Char.isDigit, Bool.and_eq_true, decide_eq_true_eq] at hc
      exact hc.2
    exact lt_of_le_of_lt hle hd
  induction l generalizing m with
  | nil =>
    cases m with
    | nil => simp
    | cons b m =>
      have hb := hm b List.mem_cons_self
      simp only [List.nil_append, List.cons_append, List.nil_lt_cons, true_or, iff_true]
      cases ds with
      | nil => exact List.nil_lt_cons _ _
      | cons d ds =>
        exact List.cons_lt_cons_iff.mpr (.inl (hdigit (hds d List.mem_cons_self) hb))
  | cons a l ih =>
    obtain ⟨ha, hl⟩ := List.forall_mem_cons.mp hl
    cases m with
    | nil =>
      simp only [List.cons_append, List.nil_append, List.not_lt_nil, reduceCtorEq, false_and,
        or_self, iff_false]
      intro h
      cases es with
      | nil => exact absurd h (List.not_lt_nil _)
      | cons e es =>
        have hae := hdigit (hes e List.mem_cons_self) ha
        rcases List.cons_lt_cons_iff.mp h with hlt | ⟨rfl, -⟩
        · exact absurd hlt hae.asymm
        · exact absurd hae (lt_irrefl _)
    | cons b m =>
      obtain ⟨hb, hm⟩ := List.forall_mem_cons.mp hm
      have htail : l ++ ds < m ++ es ↔ l < m ∨ l = m ∧ ds < es := ih hl hm
      rw [List.cons_append, List.cons_append, List.cons_lt_cons_iff, htail,
        List.cons_lt_cons_iff, List.cons.injEq]
      by_cases hab : a = b <;> simp [hab]

theorem letter_of_mem_labels {l : Text} (h : l ∈ labels) : ∀ c ∈ l, '9' < c := by
  revert h l
  simp [labels]

theorem number_label {l : Text} (h : l ∈ labels) (g : Text) : Git.Spec.number (l ++ g) = none := by
  have hdigit : ∀ l ∈ labels, ∃ c ∈ l, c.isDigit = false := by simp [labels]
  obtain ⟨c, hc, hno⟩ := hdigit l h
  refine if_neg fun hall => ?_
  rw [List.all_eq_true.mp hall.2 c (List.mem_append_left _ hc)] at hno
  cases hno

/-- A prerelease precedes another that is spelled later, or has a greater number after its dot. -/
theorem identifiers_lt {p q l m g g' : Text} {dot dot' : Option Text} (hp : Parts p l g dot)
    (hq : Parts q m g' dot') :
    Git.Spec.identifiers (p.splitOn '.') (q.splitOn '.') = .lt ↔
      Before p q ∨ l = m ∧ g = g' ∧ ∃ n ∈ dot, ∃ k ∈ dot', value n < value k := by
  have hcompares := Git.SemVer.compares_text (l ++ g) (m ++ g')
  have hfirst : Git.Spec.identifier (l ++ g) (m ++ g') = cmp (l ++ g) (m ++ g') := by
    rw [Git.Spec.identifier, Git.Spec.orderBy, number_label hp.mem_labels,
      number_label hq.mem_labels]
  have hlt := append_lt_append (letter_of_mem_labels hp.mem_labels)
    (letter_of_mem_labels hq.mem_labels) hp.digits hq.digits
  have heq : l ++ g = m ++ g' ↔ l = m ∧ g = g' := by
    refine ⟨fun h => ?_, fun h => by rw [h.1, h.2]⟩
    rcases lt_trichotomy l m with hlm | rfl | hml
    · exact absurd (h ▸ hlt.mpr (.inl hlm)) (lt_irrefl _)
    · exact ⟨rfl, List.append_cancel_left h⟩
    · have hgt := append_lt_append (letter_of_mem_labels hq.mem_labels)
        (letter_of_mem_labels hp.mem_labels) hq.digits hp.digits
      exact absurd (h ▸ hgt.mpr (.inl hml)) (lt_irrefl _)
  have hrest : Git.Spec.identifiers dot.toList dot'.toList = .lt ↔
      dot = none ∧ dot' ≠ none ∨ ∃ n ∈ dot, ∃ k ∈ dot', value n < value k := by
    have hnumber : ∀ {n : Text}, isNumber n → Git.Spec.number n = some (value n) := fun h =>
      if_pos (by simpa [isNumber] using h)
    cases dot with
    | none => cases dot' <;> simp [Git.Spec.identifiers]
    | some n =>
      cases dot' with
      | none => simp [Git.Spec.identifiers]
      | some k =>
        have hn := hnumber (hp.isNumber_dot n rfl).1
        have hk := hnumber (hq.isNumber_dot k rfl).1
        simp [Git.Spec.identifiers, Git.Spec.identifier, Git.Spec.orderBy, hn, hk]
  rw [hp.splitOn_eq, hq.splitOn_eq, Git.Spec.identifiers, hfirst, Ordering.then_eq_lt,
    hcompares.eq_lt, hcompares.eq_eq, hlt, heq, hrest, Before, hp.label_eq, hq.label_eq,
    hp.glued_eq, hq.glued_eq]
  have hnone : g = g' → (number p = [] ∧ number q ≠ [] ↔ dot = none ∧ dot' ≠ none) := by
    rintro rfl
    rw [hp.number_eq_nil, Ne, hq.number_eq_nil]
    by_cases hg : g = []
    · simp [hg]
    · simp [hg, hq.one.resolve_left hg]
  constructor
  · rintro ((hlt | ⟨hlm, hlt⟩) | ⟨⟨hlm, hgg⟩, hdots | hdots⟩)
    · exact .inl (.inl hlt)
    · exact .inl (.inr ⟨hlm, .inl hlt⟩)
    · exact .inl (.inr ⟨hlm, .inr ⟨hgg, (hnone hgg).mpr hdots⟩⟩)
    · exact .inr ⟨hlm, hgg, hdots⟩
  · rintro ((hlt | ⟨hlm, hlt | ⟨hgg, hdots⟩⟩) | ⟨hlm, hgg, hdots⟩)
    · exact .inl (.inl hlt)
    · exact .inl (.inr ⟨hlm, hlt⟩)
    · exact .inr ⟨⟨hlm, hgg⟩, .inl ((hnone hgg).mp hdots)⟩
    · exact .inr ⟨⟨hlm, hgg⟩, .inr hdots⟩

end Prereleases

/-! ### Mapped versions -/

/-- The phase of a label. Development releases come first. -/
def phase (l : Text) : Option Phase :=
  if l ∈ ["alpha".toList, "a".toList] then some .a
  else if l ∈ ["beta".toList, "b".toList] then some .b
  else if l ∈ ["rc".toList, "pre".toList, "preview".toList, "c".toList] then some .rc
  else none

def core (v : SemVer) : List ℕ := [v.major, v.minor, v.patch]

/-- The PEP 440 version that a version is mapped to. -/
def mapped (v : SemVer) : Pep440.Version :=
  match v.prerelease with
  | none => ⟨0, core v, none, none, none⟩
  | some p =>
    match phase (label p) with
    | some phase => ⟨0, core v, some (phase, value (spelledNumber p)), none, none⟩
    | none => ⟨0, core v, none, none, some (value (spelledNumber p))⟩

theorem isNumber_toDigits (n : ℕ) : isNumber (Nat.toDigits 10 n) :=
  Pep440.isNumber_iff.mpr ⟨Nat.toDigits_ne_nil, fun _ hc => Git.isDigit_toDigits hc⟩

theorem value_toDigits (n : ℕ) : value (Nat.toDigits 10 n) = n := Nat.ofDigitChars_ten_toDigits

def coreParts (v : SemVer) : List Text :=
  [Nat.toDigits 10 v.major, Nat.toDigits 10 v.minor, Nat.toDigits 10 v.patch]

theorem isNumber_coreParts {v : SemVer} {t : Text} (ht : t ∈ coreParts v) : isNumber t := by
  simp only [coreParts, List.mem_cons, List.not_mem_nil, or_false] at ht
  obtain rfl | rfl | rfl := ht <;> exact isNumber_toDigits _

theorem rawVersionString_eq (v : SemVer) : v.rawVersionString = ['.'].intercalate (coreParts v) := by
  simp [SemVer.rawVersionString, coreParts, List.intercalate]

theorem not_mem_rawVersionString {v : SemVer} {c : Char} (hc : c.isDigit = false) (hdot : c ≠ '.') :
    c ∉ v.rawVersionString := by
  intro hmem
  rw [rawVersionString_eq] at hmem
  rcases Lines.mem_intercalate hmem with hc' | ⟨t, ht, hc'⟩
  · exact hdot (by simpa using hc')
  · exact not_mem_of_isNumber (isNumber_coreParts ht) hc hc'

theorem not_plus_of_identifiers {p : Text} (hids : ∀ id ∈ p.splitOn '.', IsIdentifier id) :
    '+' ∉ p := by
  intro hmem
  have hp : ['.'].intercalate (p.splitOn '.') = p := List.intercalate_splitOn '.'
  rw [← hp] at hmem
  rcases Lines.mem_intercalate hmem with hc | ⟨t, ht, hc⟩
  · exact absurd hc (by decide)
  · exact absurd ((hids t ht).chars '+' hc) (by decide)

theorem phase_of_mem_labels {l : Text} (h : l ∈ labels) :
    segment l = some (match phase l with | some ph => ph.text | none => ".dev".toList) := by
  revert h l
  decide

/-- What the mapping makes of a version without build metadata. -/
theorem semverToPep440_versionString {v : SemVer} (hv : Conforming v) :
    semverToPep440 v.versionString = match v.prerelease with
      | none => .ok v.rawVersionString
      | some p =>
        match segment (splitPrerelease p).1 with
        | none => .error (noEquivalent p v.versionString)
        | some seg => .ok (v.rawVersionString ++ (seg ++ (splitPrerelease p).2.getD "0".toList)) := by
  have hplus : SplitOnce.first '+' v.versionString = none := by
    rw [SplitOnce.first_eq_none, SemVer.versionString, hv.no_build, SemVer.suffix, List.append_nil]
    have hraw : '+' ∉ v.rawVersionString := not_mem_rawVersionString rfl (by decide)
    cases hp : v.prerelease with
    | none => simpa [SemVer.suffix] using hraw
    | some p => simpa [SemVer.suffix, hraw] using not_plus_of_identifiers (hv.identifiers p hp)
  have hcore : ¬ (v.rawVersionString = [] ∨ ¬ (v.rawVersionString.splitOn '.').all isNumber) := by
    have hsplit : v.rawVersionString.splitOn '.' = coreParts v := by
      rw [rawVersionString_eq, List.splitOn_intercalate '.'
        (fun t ht => not_dot_of_isNumber (isNumber_coreParts ht)) (by simp [coreParts])]
    rw [hsplit, not_or, not_not, List.all_eq_true]
    exact ⟨by simp [SemVer.rawVersionString], fun t ht => isNumber_coreParts ht⟩
  have hdash : '-' ∉ v.rawVersionString := not_mem_rawVersionString rfl (by decide)
  cases hp : v.prerelease with
  | none =>
    have hstring : v.versionString = v.rawVersionString := by
      simp [SemVer.versionString, SemVer.suffix, hp, hv.no_build]
    rw [hstring] at hplus ⊢
    simp only [semverToPep440, hplus, SplitOnce.first_eq_none.mpr hdash, if_neg hcore]
    rfl
  | some p =>
    have hstring : v.versionString = v.rawVersionString ++ '-' :: p := by
      simp [SemVer.versionString, SemVer.suffix, hp, hv.no_build]
    rw [hstring] at hplus ⊢
    simp only [semverToPep440, hplus, SplitOnce.first_append hdash, if_neg hcore]
    cases segment (splitPrerelease p).1 <;> rfl

/-- A mapped version is one of PEP 440. -/
theorem parse_of_semverToPep440 {v : SemVer} (hv : Conforming v) {out : Text}
    (h : semverToPep440 v.versionString = .ok out) :
    Pep440.parse out = some (mapped v) ∧ ∀ p ∈ v.prerelease, ∃ l g dot, Parts p l g dot := by
  have hapart : ∀ {n : Text}, isNumber n → '.' ∉ n ∧ '!' ∉ n := fun hn =>
    ⟨not_mem_of_isNumber hn rfl, not_mem_of_isNumber hn rfl⟩
  have hparts : ∀ t ∈ coreParts v, '.' ∉ t ∧ '!' ∉ t := fun t ht => hapart (isNumber_coreParts ht)
  have hrelease : (coreParts v).map value = core v := by simp [coreParts, core, value_toDigits]
  rw [semverToPep440_versionString hv] at h
  cases hp : v.prerelease with
  | none =>
    rw [hp] at h
    obtain rfl := Except.ok.inj h
    refine ⟨?_, by simp⟩
    rw [rawVersionString_eq, Pep440.parse_intercalate (by simp [coreParts]) hparts,
      Pep440.parseParts_release fun t ht => isNumber_coreParts ht, hrelease, mapped, hp]
  | some p =>
    have hlabel : (splitPrerelease p).1 ∈ labels := by
      rw [← segment_isSome]
      rw [hp] at h
      cases hseg : segment (splitPrerelease p).1 with
      | none => simp [hseg] at h
      | some seg => rfl
    obtain ⟨l, g, dot, hcut⟩ := exists_parts (hv.identifiers p hp) hlabel
    have hn := hcut.isNumber_spelledNumber
    refine ⟨?_, fun q hq => ⟨l, g, dot, Option.some.inj hq ▸ hcut⟩⟩
    have hl : (splitPrerelease p).1 = l := congrArg Prod.fst hcut.split_eq
    simp only [hp, hl, phase_of_mem_labels hcut.mem_labels, hcut.spelledNumber_eq] at h
    obtain rfl := Except.ok.inj h
    simp only [mapped, hp, hcut.label_eq]
    cases hphase : phase l with
    | some ph =>
      have hspell : v.rawVersionString ++ (ph.text ++ spelledNumber p) =
          ['.'].intercalate ([Nat.toDigits 10 v.major, Nat.toDigits 10 v.minor] ++
            [Nat.toDigits 10 v.patch ++ (ph.text ++ spelledNumber p)]) := by
        simp [SemVer.rawVersionString, List.intercalate]
      have hphases : '.' ∉ ph.text ∧ '!' ∉ ph.text := by cases ph <;> decide
      rw [hspell, Pep440.parse_intercalate (by simp), Pep440.parseParts_pre _
        (isNumber_toDigits _) ph hn]
      · simp [core, value_toDigits]
      · simp [isNumber_toDigits]
      · simp [hapart (isNumber_toDigits _), hapart hn, hphases]
    | none =>
      have hspell : v.rawVersionString ++ (".dev".toList ++ spelledNumber p) =
          ['.'].intercalate (coreParts v ++ ["dev".toList ++ spelledNumber p]) := by
        simp [SemVer.rawVersionString, coreParts, List.intercalate]
      rw [hspell, Pep440.parse_intercalate (by simp), Pep440.parseParts_dev (by simp [coreParts])
        (fun t ht => isNumber_coreParts ht) hn, hrelease]
      intro t ht
      rcases List.mem_append.mp ht with ht | ht
      · exact hparts t ht
      · obtain rfl := List.mem_singleton.mp ht
        simp [hapart hn]

/-! ### Keeping the order -/

/-- Both texts are versions of PEP 440, the first lower when its version is, and they are equal only
for two spellings of one prerelease. -/
def OrderKept (v w : SemVer) (out out' : Text) : Prop :=
  ∃ x y, Pep440.parse out = some x ∧ Pep440.parse out' = some y ∧
    (Git.Spec.precedence v w = .lt → Pep440.key x < Pep440.key y) ∧
    (v ≠ w → Pep440.key x = Pep440.key y →
      core v = core w ∧ ∃ p ∈ v.prerelease, ∃ q ∈ w.prerelease, SameInTable p q)

/-- Two prereleases of one release are ordered alike by both orders. -/
structure SameOrder (p q : Text) : Prop where
  dev : label q = "dev".toList →
    label p ∉ ["alpha".toList, "a".toList, "beta".toList, "b".toList, "c".toList]
  number : phase (label p) = phase (label q) → Before p q →
    value (spelledNumber p) < value (spelledNumber q)
  spelling : phase (label p) = phase (label q) →
    value (spelledNumber p) = value (spelledNumber q) →
    (label p = "c".toList ↔ label q = "c".toList) ∧ spelledNumber p = spelledNumber q

/-- The place of a label among the phases. -/
def rank (l : Text) : ℕ :=
  match phase l with
  | none => 0
  | some ph => ph.rank + 1

theorem rank_eq_iff {l m : Text} : rank l = rank m ↔ phase l = phase m := by
  unfold rank
  cases phase l with
  | none => cases phase m <;> simp
  | some ph =>
    cases phase m with
    | none => simp
    | some ph' => cases ph <;> cases ph' <;> decide

theorem rank_lt_of_lt : ∀ l ∈ labels, ∀ m ∈ labels, l < m → phase l ≠ phase m →
    (m = "dev".toList →
      l ∉ ["alpha".toList, "a".toList, "beta".toList, "b".toList, "c".toList]) →
    rank l < rank m := by
  decide +kernel

theorem alike_iff : ∀ l ∈ labels, ∀ m ∈ labels, phase l = phase m →
    (alike l m ↔ (l = "c".toList ↔ m = "c".toList)) := by
  decide +kernel

theorem dev_first : ∀ l ∈ ["alpha".toList, "a".toList, "beta".toList, "b".toList, "c".toList],
    l < "dev".toList ∧ rank "dev".toList < rank l := by
  decide +kernel

section Order

variable {v w : SemVer} {p q : Text}

/-- A phase decides before the number behind it. -/
def NumberedBefore (p q : Text) : Prop :=
  rank (label p) < rank (label q) ∨
    rank (label p) = rank (label q) ∧ value (spelledNumber p) < value (spelledNumber q)

theorem mapped_some (hp : v.prerelease = some p) : mapped v = match phase (label p) with
    | some phase => ⟨0, core v, some (phase, value (spelledNumber p)), none, none⟩
    | none => ⟨0, core v, none, none, some (value (spelledNumber p))⟩ := by
  rw [mapped, hp]

theorem epoch_mapped (v : SemVer) : (mapped v).epoch = 0 := by
  unfold mapped
  split
  · rfl
  · split <;> rfl

theorem release_mapped (v : SemVer) : (mapped v).release = core v := by
  unfold mapped
  split
  · rfl
  · split <;> rfl

theorem segmentKey_lt_iff (hp : v.prerelease = some p) (hq : w.prerelease = some q) :
    Pep440.segmentKey (mapped v) < Pep440.segmentKey (mapped w) ↔ NumberedBefore p q := by
  rw [mapped_some hp, mapped_some hq, NumberedBefore, rank, rank]
  cases phase (label p) <;> cases phase (label q) <;>
    simp [Pep440.segmentKey, Pep440.preKey, Pep440.postKey, Pep440.devKey, Prod.Lex.toLex_lt_toLex]

theorem segmentKey_eq_iff (hp : v.prerelease = some p) (hq : w.prerelease = some q) :
    Pep440.segmentKey (mapped v) = Pep440.segmentKey (mapped w) ↔
      phase (label p) = phase (label q) ∧ value (spelledNumber p) = value (spelledNumber q) := by
  have hrank : ∀ {ph ph' : Phase}, ph.rank = ph'.rank ↔ ph = ph' := by
    intro ph ph'
    cases ph <;> cases ph' <;> decide
  rw [mapped_some hp, mapped_some hq]
  cases phase (label p) <;> cases phase (label q) <;>
    simp [Pep440.segmentKey, Pep440.preKey, Pep440.postKey, Pep440.devKey, hrank]

/-- A release comes after its prereleases. -/
theorem segmentKey_lt_release (hp : v.prerelease = some p) (hw : w.prerelease = none) :
    Pep440.segmentKey (mapped v) < Pep440.segmentKey (mapped w) := by
  rw [mapped_some hp, mapped, hw]
  refine Prod.Lex.toLex_lt_toLex.mpr (.inl ?_)
  cases phase (label p) with
  | none => exact WithBot.bot_lt_coe _
  | some ph => exact WithBot.coe_lt_coe.mpr (WithTop.coe_lt_top _)

theorem precedence_lt_iff : Git.Spec.precedence v w = .lt ↔
    core v < core w ∨
      core v = core w ∧ Git.Spec.prerelease v.prerelease w.prerelease = .lt := by
  simp only [Git.Spec.precedence, Ordering.then_eq_lt, cmp_eq_lt_iff, cmp_eq_eq_iff, core,
    List.cons_lt_cons_iff, List.cons.injEq, List.not_lt_nil, and_true, and_false, or_false]
  tauto

/-- On prereleases of one release, both orders agree when labels and numbers do. -/
theorem sameOrder_iff {l m g g' : Text} {dot dot' : Option Text} (hp : Parts p l g dot)
    (hq : Parts q m g' dot') :
    (Git.Spec.identifiers (p.splitOn '.') (q.splitOn '.') = .lt → NumberedBefore p q) ∧
      (p ≠ q → phase (label p) = phase (label q) →
        value (spelledNumber p) = value (spelledNumber q) → SameInTable p q) ↔ SameOrder p q := by
  have hl : label p ∈ labels := hp.label_eq ▸ hp.mem_labels
  have hm : label q ∈ labels := hq.label_eq ▸ hq.mem_labels
  rw [identifiers_lt hp hq]
  constructor
  · rintro ⟨hlt, heq⟩
    refine ⟨fun hdev hmem => ?_, fun hphase hbefore => ?_, fun hphase hvalue => ?_⟩
    · obtain ⟨hbefore, hrank⟩ := dev_first _ hmem
      rw [← hdev] at hbefore hrank
      rcases hlt (.inl (.inl hbefore)) with h | h
      · exact absurd h hrank.asymm
      · exact hrank.ne' h.1
    · rcases hlt (.inl hbefore) with h | h
      · exact absurd (rank_eq_iff.mpr hphase) h.ne
      · exact h.2
    · by_cases hpq : p = q
      · rw [hpq]
        exact ⟨Iff.rfl, rfl⟩
      · obtain ⟨halike, hnumber⟩ := heq hpq hphase hvalue
        exact ⟨(alike_iff _ hl _ hm hphase).mp halike, hnumber⟩
  · rintro ⟨hdev, hnumber, hspelling⟩
    refine ⟨?_, fun _ hphase hvalue => ?_⟩
    · rintro (hbefore | ⟨hlm, rfl, n, hn, k, hk, hvalue⟩)
      · by_cases hphase : phase (label p) = phase (label q)
        · exact .inr ⟨rank_eq_iff.mpr hphase, hnumber hphase hbefore⟩
        · have hlt : label p < label q := by
            rcases hbefore with hlt | ⟨heq, -⟩
            · exact hlt
            · exact absurd (congrArg phase heq) hphase
          exact .inl (rank_lt_of_lt _ hl _ hm hlt hphase hdev)
      · obtain rfl := Option.mem_def.mp hn
        obtain rfl := Option.mem_def.mp hk
        obtain rfl := hp.one.resolve_right (by simp)
        have hspell : ∀ {r : Text} {t : Text}, Parts r l [] (some t) → spelledNumber r = t := by
          intro r t hr
          simp [← hr.spelledNumber_eq, hr.split_eq]
        refine .inr ⟨by rw [hp.label_eq, hq.label_eq, hlm], ?_⟩
        rw [hspell hp, hspell (hlm ▸ hq)]
        exact hvalue
    · obtain ⟨hc, hnum⟩ := hspelling hphase hvalue
      exact ⟨(alike_iff _ hl _ hm hphase).mpr hc, hnum⟩

/-- A pair of mapped versions keeps its order unless they are prereleases of one release that are
not ordered alike. -/
theorem orderKept_iff (hv : Conforming v) (hw : Conforming w) {out out' : Text}
    (h : semverToPep440 v.versionString = .ok out)
    (h' : semverToPep440 w.versionString = .ok out') :
    OrderKept v w out out' ↔
      (core v = core w → ∀ p ∈ v.prerelease, ∀ q ∈ w.prerelease, SameOrder p q) := by
  obtain ⟨hparse, hparts⟩ := parse_of_semverToPep440 hv h
  obtain ⟨hparse', hparts'⟩ := parse_of_semverToPep440 hw h'
  have hepoch : (mapped v).epoch = (mapped w).epoch := by rw [epoch_mapped, epoch_mapped]
  have hlen : (mapped v).release.length = (mapped w).release.length := by
    rw [release_mapped, release_mapped]
    rfl
  have hkept : OrderKept v w out out' ↔
      (Git.Spec.precedence v w = .lt → Pep440.key (mapped v) < Pep440.key (mapped w)) ∧
      (v ≠ w → Pep440.key (mapped v) = Pep440.key (mapped w) →
        core v = core w ∧ ∃ p ∈ v.prerelease, ∃ q ∈ w.prerelease, SameInTable p q) := by
    simp [OrderKept, hparse, hparse']
  rw [hkept, precedence_lt_iff, Pep440.key_lt_iff hepoch hlen, Pep440.key_eq_iff hepoch hlen,
    release_mapped, release_mapped]
  by_cases hcore : core v = core w
  · have hirrefl : ¬ core v < core w := hcore ▸ lt_irrefl _
    cases hp : v.prerelease with
    | none =>
      cases hq : w.prerelease with
      | none =>
        have heq : v = w := by
          obtain ⟨⟩ := v
          obtain ⟨⟩ := w
          have hbuild := hv.no_build.trans hw.no_build.symm
          simp_all [core]
        simp [heq, Git.Spec.prerelease]
      | some q =>
        have hgt := segmentKey_lt_release hq hp
        simp [hirrefl, Git.Spec.prerelease, hgt.ne']
    | some p =>
      cases hq : w.prerelease with
      | none =>
        have hlt := segmentKey_lt_release hp hq
        simp [hcore, hlt, hlt.ne]
      | some q =>
        obtain ⟨l, g, dot, hcut⟩ := hparts p hp
        obtain ⟨m, g', dot', hcut'⟩ := hparts' q hq
        have hne : v ≠ w ↔ p ≠ q := by
          obtain ⟨⟩ := v
          obtain ⟨⟩ := w
          have hbuild := hv.no_build.trans hw.no_build.symm
          simp_all [core]
        have hsame := sameOrder_iff hcut hcut'
        rw [segmentKey_lt_iff hp hq, segmentKey_eq_iff hp hq, hne]
        simp only [hcore, lt_irrefl, true_and, false_or, Git.Spec.prerelease, Option.mem_def,
          Option.some.injEq, forall_eq', exists_eq_left', forall_true_left, ← hsame, and_imp]
  · simp [hcore]

theorem orderKept_rc : OrderKept ⟨1, 0, 0, some "rc.9".toList, none⟩
    ⟨1, 0, 0, some "rc.10".toList, none⟩ "1.0.0rc9".toList "1.0.0rc10".toList := by
  refine (orderKept_iff (by decide +kernel) (by decide +kernel) (by rfl) (by rfl)).mpr ?_
  intro _ p hp q hq
  obtain rfl := Option.mem_some_iff.mp hp
  obtain rfl := Option.mem_some_iff.mp hq
  refine ⟨by decide, fun _ _ => by decide, fun _ h => ?_⟩
  exact absurd h (by decide)

/-- The texts put a development release above an alpha release. -/
theorem not_orderKept : ¬ ∀ v w : SemVer, Conforming v → Conforming w → ∀ out out' : Text,
    semverToPep440 v.versionString = .ok out → semverToPep440 w.versionString = .ok out' →
    OrderKept v w out out' := by
  intro h
  obtain ⟨x, y, hx, hy, hlt, -⟩ := h ⟨1, 0, 0, some "alpha.1".toList, none⟩
    ⟨1, 0, 0, some "dev.1".toList, none⟩ (by decide +kernel) (by decide +kernel)
    "1.0.0a1".toList "1.0.0.dev1".toList (by rfl) (by rfl)
  obtain rfl : (⟨0, [1, 0, 0], some (.a, 1), none, none⟩ : Pep440.Version) = x := by
    exact Option.some.inj hx
  obtain rfl : (⟨0, [1, 0, 0], none, none, some 1⟩ : Pep440.Version) = y := by
    exact Option.some.inj hy
  have hkey := hlt (by decide +kernel)
  simp [Pep440.key, Pep440.segmentKey, Pep440.preKey, Prod.Lex.toLex_lt_toLex] at hkey

end Order

end Anodizer.Pypi
