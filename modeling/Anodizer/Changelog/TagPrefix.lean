import Anodizer.Changelog.Promote
import Anodizer.Git.TagSplit

/-! # The prefix of a tag, cut twice

A footer cuts the prefix of a tag at the first text that looks like a version,
and splitting the family off cuts it before the version. The two differ where
the family itself holds such a text.
-/

namespace Anodizer.Changelog

open Regex Git
open Template (Text CharTables)

variable {u : CharTables} {tag p : Text} {v : SemVer}

/-! ### What the search reads -/

def isMark (c : Char) : Prop := c = '-' ∨ c = '+'

/-- Two or three numbers. -/
def IsCore (u : CharTables) (core : Text) : Prop :=
  ∃ a b c, Spelling.IsNumber u a ∧ Spelling.IsNumber u b ∧
    (c = [] ∨ ∃ d, c = '.' :: d ∧ Spelling.IsNumber u d) ∧ core = a ++ '.' :: (b ++ c)

/-- What may follow the numbers up to the end of a tag. -/
def IsRest (rest : Text) : Prop := rest = [] ∨ ∃ m s, rest = m :: s ∧ isMark m ∧ '\n' ∉ s

theorem reads_patch {prev : Option Char} {t rest : Text} {g : List (String × Text)} :
    (Re.opt (.cat [.lit ".", digitsRe u])).Reads prev t rest g ↔
      g = [] ∧ (t = [] ∨ ∃ d, t = '.' :: d ∧ Spelling.IsNumber u d) := by
  constructor
  · rintro (⟨_, _, _, _, rfl, rfl, hdot, d, _, _, _, rfl, rfl, hd, rfl, rfl⟩ | ⟨rfl, rfl⟩)
    · obtain ⟨rfl, rfl⟩ := Re.reads_lit.mp hdot
      obtain ⟨hnumber, rfl⟩ := reads_digitsRe.mp hd
      exact ⟨rfl, .inr ⟨d, by simp, hnumber⟩⟩
    · exact ⟨rfl, .inl rfl⟩
  · rintro ⟨rfl, rfl | ⟨d, rfl, hd⟩⟩
    · exact .inr ⟨rfl, rfl⟩
    · exact .inl ⟨['.'], d, [], [], rfl, rfl, Re.reads_lit.mpr ⟨rfl, rfl⟩, d, [], [], [],
        (List.append_nil _).symm, rfl, reads_digitsRe.mpr ⟨hd, rfl⟩, rfl, rfl⟩

theorem reads_rest {prev : Option Char} {t rest : Text} {g : List (String × Text)} :
    (Re.opt (.cat [.char fun c => c == '-' || c == '+', .star true notNewline])).Reads prev t rest g ↔
      g = [] ∧ IsRest t := by
  have hline : ∀ s : Text, (∀ c ∈ s, (c != '\n') = true) ↔ '\n' ∉ s := by
    intro s
    simp only [bne_iff_ne, ne_eq]
    exact ⟨fun h hmem => h _ hmem rfl, fun h c hc heq => h (heq ▸ hc)⟩
  constructor
  · rintro (⟨_, _, _, _, rfl, rfl, ⟨⟨m, hm, rfl⟩, rfl⟩, s, _, _, _, rfl, rfl, hs, rfl, rfl⟩ |
      ⟨rfl, rfl⟩)
    · obtain ⟨hchars, rfl⟩ := Re.reads_star_char.mp hs
      exact ⟨rfl, .inr ⟨m, s, by simp, by simpa [isMark] using hm, (hline s).mp hchars⟩⟩
    · exact ⟨rfl, .inl rfl⟩
  · rintro ⟨rfl, rfl | ⟨m, s, rfl, hm, hs⟩⟩
    · exact .inr ⟨rfl, rfl⟩
    · exact .inl ⟨[m], s, [], [], rfl, rfl, ⟨⟨m, by simpa [isMark] using hm, rfl⟩, rfl⟩, s, [], [],
        [], (List.append_nil _).symm, rfl, Re.reads_star_char.mpr ⟨(hline s).mpr hs, rfl⟩, rfl, rfl⟩

theorem reads_versionCoreRe {prev : Option Char} {t rest : Text} {g : List (String × Text)} :
    (versionCoreRe u).Reads prev t rest g ↔
      g = [] ∧ rest = [] ∧ ∃ core s, IsCore u core ∧ IsRest s ∧ t = core ++ s := by
  constructor
  · rintro ⟨a, _, _, _, rfl, rfl, ha, d, _, _, _, rfl, rfl, hd, b, _, _, _, rfl, rfl, hb,
      c, _, _, _, rfl, rfl, hc, s, _, _, _, rfl, rfl, hs, _, _, _, _, rfl, rfl,
      ⟨rfl, rfl, hrest⟩, rfl, rfl⟩
    obtain ⟨hmajor, rfl⟩ := reads_digitsRe.mp ha
    obtain ⟨hminor, rfl⟩ := reads_digitsRe.mp hb
    obtain ⟨rfl, rfl⟩ := Re.reads_lit.mp hd
    obtain ⟨rfl, hpatch⟩ := reads_patch.mp hc
    obtain ⟨rfl, htail⟩ := reads_rest.mp hs
    exact ⟨rfl, by simpa using hrest, _, s, ⟨a, b, c, hmajor, hminor, hpatch, rfl⟩, htail, by simp⟩
  · rintro ⟨rfl, rfl, core, s, ⟨a, b, c, ha, hb, hc, rfl⟩, hs, rfl⟩
    exact ⟨a, '.' :: (b ++ (c ++ s)), [], [], by simp, rfl, reads_digitsRe.mpr ⟨ha, rfl⟩,
      ['.'], b ++ (c ++ s), [], [], rfl, rfl, Re.reads_lit.mpr ⟨rfl, rfl⟩,
      b, c ++ s, [], [], rfl, rfl, reads_digitsRe.mpr ⟨hb, rfl⟩,
      c, s, [], [], rfl, rfl, reads_patch.mpr ⟨rfl, hc⟩,
      s, [], [], [], (List.append_nil _).symm, rfl, reads_rest.mpr ⟨rfl, hs⟩,
      [], [], [], [], rfl, rfl, ⟨rfl, rfl, rfl⟩, rfl, rfl⟩

/-- The search stops where the rest of a tag is two or three numbers with something behind them. -/
def Cuttable (u : CharTables) (t : Text) : Prop :=
  ∃ core s, IsCore u core ∧ IsRest s ∧ t = core ++ s

theorem readsAt_versionCoreRe {a b : Text} :
    (∃ m, ReadsAt (versionCoreRe u) a b m) ↔ Cuttable u b := by
  constructor
  · rintro ⟨m, hm, -⟩
    obtain ⟨hb, hreads⟩ := first_sound hm
    obtain ⟨-, hrest, core, s, hcore, hs, htext⟩ := reads_versionCoreRe.mp hreads
    rw [hrest, List.append_nil] at hb
    exact ⟨core, s, hcore, hs, hb.trans htext⟩
  · rintro ⟨core, s, hcore, hs, rfl⟩
    have hreads : (versionCoreRe u).Reads a.getLast? (core ++ s) [] [] :=
      reads_versionCoreRe.mpr ⟨rfl, rfl, core, s, hcore, hs, rfl⟩
    obtain ⟨m, hm⟩ := first_complete hreads
    rw [List.append_nil] at hm
    refine ⟨m, hm, fun hnil => ?_⟩
    obtain ⟨hb, hm⟩ := first_sound hm
    obtain ⟨-, hrest, -⟩ := reads_versionCoreRe.mp hm
    rw [hnil, hrest] at hb
    obtain ⟨a, b, c, ha, -, -, rfl⟩ := hcore
    exact absurd (List.append_eq_nil_iff.mp (List.append_eq_nil_iff.mp hb).1).1 ha.1

/-- The prefix ends at the first place where the search stops, if it does. -/
theorem tagPrefix_cases (u : CharTables) (t : Text) :
    (tagPrefix u t = t ∧ ∀ x y, t = x ++ y → ¬ Cuttable u y) ∨
      ∃ x y, t = x ++ y ∧ tagPrefix u t = x ∧ Cuttable u y ∧
        ∀ x' y', t = x' ++ y' → x'.length < x.length → ¬ Cuttable u y' := by
  by_cases h : ∃ n, ∃ x y, t = x ++ y ∧ x.length = n ∧ Cuttable u y
  · classical
    obtain ⟨x, y, rfl, hn, hy⟩ := Nat.find_spec h
    have hfirst : ∀ x' y', x ++ y = x' ++ y' → x'.length < x.length → ¬ Cuttable u y' :=
      fun x' y' heq hlt hy' => Nat.find_min h (hn ▸ hlt) ⟨x', y', heq, rfl, hy'⟩
    obtain ⟨m, hm⟩ := readsAt_versionCoreRe.mpr hy
    have hsome : (findIter (versionCoreRe u) (x ++ y)).head? = some m := by
      rw [head?_findIter]
      exact @leftmost_eq_some _ _ [] x y hm fun x' y' heq hlt k hk =>
        hfirst x' y' heq hlt (readsAt_versionCoreRe.mp ⟨k, hk⟩)
    refine .inr ⟨x, y, rfl, ?_, hy, hfirst⟩
    rw [tagPrefix, hsome]
    dsimp only
    rw [← (first_sound hm.1).1, List.length_append, Nat.add_sub_cancel, List.take_left]
  · have hnone : ∀ x y, t = x ++ y → ¬ Cuttable u y := fun x y heq hy => h ⟨_, x, y, heq, rfl, hy⟩
    have hhead : (findIter (versionCoreRe u) t).head? = none := by
      rw [head?_findIter]
      exact @leftmost_of_none _ _ [] fun x y heq k hk =>
        hnone x y heq (readsAt_versionCoreRe.mp ⟨k, hk⟩)
    refine .inl ⟨?_, hnone⟩
    rw [tagPrefix, hhead]

theorem tagPrefix_eq_iff {x y : Text} (hy : y ≠ []) : tagPrefix u (x ++ y) = x ↔
    Cuttable u y ∧ ∀ x' y', x ++ y = x' ++ y' → x'.length < x.length → ¬ Cuttable u y' := by
  rcases tagPrefix_cases u (x ++ y) with ⟨heq, hnone⟩ | ⟨x₀, y₀, hparts, heq, hcut, hfirst⟩
  · rw [heq]
    refine iff_of_false (fun h => hy ?_) fun h => hnone x y rfl h.1
    simpa using h
  · rw [heq]
    constructor
    · rintro rfl
      exact ⟨List.append_cancel_left hparts ▸ hcut, hfirst⟩
    · rintro ⟨hcut', hfirst'⟩
      have hlength : x₀.length = x.length := le_antisymm
        (not_lt.mp fun hlt => hfirst x y rfl hlt hcut')
        (not_lt.mp fun hlt => hfirst' x₀ y₀ hparts hlt hcut)
      exact (List.append_inj hparts.symm hlength).1

/-! ### The family of a tag -/

/-- A tag is its family and the text of its version. -/
theorem splitTagFamily_parts (h : splitTagFamily u tag = some (p, v)) :
    ∃ w : Spelling, w.Valid u ∧ tag = p ++ w.text ∧ '\n' ∉ p ∧
      ∀ c ∈ p.getLast?, c = 'v' ∨ isSeparator c := by
  simp only [splitTagFamily, Option.bind_eq_bind, Option.bind_eq_some_iff] at h
  obtain ⟨m, hm, v', -, hp⟩ := h
  obtain ⟨rfl, -⟩ := Prod.mk.inj (Option.some.inj hp)
  rw [matchStart_familyRe] at hm
  have hpart : ∃ x r, m ∈ afterFamily u ⟨x, r, []⟩ ∧ tag = x ++ r ∧ '\n' ∉ x ∧
      ∀ c ∈ x.getLast?, isSeparator c := by
    rcases Option.or_eq_some_iff.mp hm with hm | ⟨-, hm⟩
    · exact ⟨[], tag, List.mem_of_mem_head? hm, rfl, List.not_mem_nil, by simp⟩
    · obtain ⟨a, ha, hhead⟩ := List.exists_of_findSome?_eq_some hm
      obtain ⟨y, c, r, rfl, hy, hc, rfl⟩ := mem_familyParts.mp ha
      refine ⟨y ++ [c], r, List.mem_of_mem_head? hhead, by simp, ?_, by simpa using hc⟩
      rintro hmem
      rcases List.mem_append.mp hmem with hmem | hmem
      · exact hy hmem
      · obtain rfl := List.mem_singleton.mp hmem
        cases hc
  obtain ⟨x, r, hmem, rfl, hline, hlast⟩ := hpart
  obtain ⟨lead, w, hl, hw, rfl, rfl⟩ := mem_afterFamily.mp hmem
  have hone : Found.get ⟨x ++ (lead ++ w.text), [], [("2", w.text), ("1", x ++ lead)]⟩ "1" =
      x ++ lead := rfl
  rw [hone, ← List.append_assoc, List.take_left]
  refine ⟨w, hw, rfl, ?_, ?_⟩
  · rcases hl with rfl | rfl
    · simpa using hline
    · simpa using hline
  · rcases hl with rfl | rfl
    · simp
    · simpa using fun c hc => .inr (hlast c hc)

/-- The family holds a text that the search takes for a version. -/
def HoldsVersion (u : CharTables) (p : Text) : Prop :=
  ∃ a c d m b, p = a ++ c :: '.' :: (d ++ m :: b) ∧ u.digit c ∧ Spelling.IsNumber u d ∧ isMark m

theorem IsCore.chars {core : Text} (h : IsCore u core) : ∀ c ∈ core, u.digit c ∨ c = '.' := by
  obtain ⟨a, b, c, ha, hb, hc, rfl⟩ := h
  intro e he
  simp only [List.mem_append, List.mem_cons] at he
  rcases he with he | rfl | he | he
  · exact .inl (ha.2 e he)
  · exact .inr rfl
  · exact .inl (hb.2 e he)
  · rcases hc with rfl | ⟨d, rfl, hd⟩
    · cases he
    · exact (List.mem_cons.mp he).symm.imp_left (hd.2 e)

theorem not_in_core {core : Text} {c : Char} (h : IsCore u core) (hc : c.toNat < 128)
    (hdigit : c.isDigit = false) (hdot : c ≠ '.') : c ∉ core := by
  intro hmem
  rcases h.chars c hmem with hd | hd
  · rw [CharTables.not_digit u hc hdigit] at hd
    cases hd
  · exact hdot hd

/-- The text of a version is cut off unless it holds a newline. -/
theorem cuttable_text {w : Spelling} (hw : w.Valid u) : Cuttable u w.text ↔ '\n' ∉ w.text := by
  constructor
  · rintro ⟨core, s, hcore, hs, heq⟩ hmem
    rw [heq] at hmem
    rcases List.mem_append.mp hmem with hmem | hmem
    · exact not_in_core hcore (by decide) (by decide) (by decide) hmem
    · rcases hs with rfl | ⟨m, s, rfl, hm, hs⟩
      · cases hmem
      · rcases List.mem_cons.mp hmem with rfl | hmem
        · rcases hm with h | h <;> cases h
        · exact hs hmem
  · intro hline
    refine ⟨w.major ++ '.' :: (w.minor ++ '.' :: w.patch),
      SemVer.suffix '-' w.prerelease ++ SemVer.suffix '+' w.build,
      ⟨_, _, _, hw.major, hw.minor, .inr ⟨_, rfl, hw.patch⟩, rfl⟩, ?_, by simp [Spelling.text]⟩
    have hrest : '\n' ∉ SemVer.suffix '-' w.prerelease ++ SemVer.suffix '+' w.build := by
      intro hmem
      exact hline (by simp only [Spelling.text, List.mem_append, List.mem_cons] at hmem ⊢; tauto)
    cases hpre : w.prerelease with
    | none =>
      rw [hpre] at hrest
      cases hbuild : w.build with
      | none => exact .inl rfl
      | some b =>
        rw [hbuild] at hrest
        exact .inr ⟨'+', b, rfl, .inr rfl, fun h => hrest (List.mem_cons_of_mem _ h)⟩
    | some x =>
      rw [hpre] at hrest
      exact .inr ⟨'-', x ++ SemVer.suffix '+' w.build, rfl, .inl rfl,
        fun h => hrest (List.mem_cons_of_mem _ h)⟩

/-- A search that stops within the family finds a version in it. -/
theorem holdsVersion_of_cuttable {a b t : Text} (hlast : ∀ c ∈ b.getLast?, c = 'v' ∨ isSeparator c)
    (hb : b ≠ []) (h : Cuttable u (b ++ t)) : HoldsVersion u (a ++ b) := by
  obtain ⟨core, s, hcore, hs, heq⟩ := h
  have hend : ∀ z, core ≠ b ++ z := by
    rintro z rfl
    obtain ⟨init, c, rfl⟩ := (List.eq_nil_or_concat b).resolve_left hb
    rw [List.concat_eq_append] at hlast hcore
    have hmem : c ∈ init ++ [c] ++ z := by simp
    have hc : c = 'v' ∨ c = '-' ∨ c = '_' ∨ c = '/' := by
      simpa [isSeparator, or_assoc] using hlast c (by simp)
    rcases hc with rfl | rfl | rfl | rfl <;>
      exact not_in_core hcore (by decide) (by decide) (by decide) hmem
  rcases List.append_eq_append_iff.mp heq with ⟨z, hz, -⟩ | ⟨z, rfl, hz⟩
  · exact absurd hz (hend z)
  · cases z with
    | nil => exact absurd (by simp) (hend [])
    | cons m z =>
      rcases hs with rfl | ⟨m', s, rfl, hm, -⟩
      · cases hz
      obtain ⟨rfl, -⟩ := List.cons.inj hz
      obtain ⟨x, y, d, hx, hy, hd, rfl⟩ := hcore
      rcases hd with rfl | ⟨d, rfl, hd⟩
      · obtain ⟨init, c, rfl⟩ := (List.eq_nil_or_concat x).resolve_left hx.1
        exact ⟨a ++ init, c, y, m', z, by simp, hx.2 c (by simp), hy, hm⟩
      · obtain ⟨init, c, rfl⟩ := (List.eq_nil_or_concat y).resolve_left hy.1
        exact ⟨a ++ (x ++ '.' :: init), c, d, m', z, by simp, hy.2 c (by simp), hd, hm⟩

/-- The footer and the family cut a tag in one place, unless the family holds a version or the tag
a newline. -/
theorem tagPrefix_family (h : splitTagFamily u tag = some (p, v)) :
    tagPrefix u tag = p ↔ '\n' ∉ tag ∧ ¬ HoldsVersion u p := by
  obtain ⟨w, hw, rfl, hline, hlast⟩ := splitTagFamily_parts h
  have hne : w.text ≠ [] := by simp [Spelling.text]
  rw [tagPrefix_eq_iff hne, cuttable_text hw, List.mem_append, or_iff_right hline]
  refine and_congr_right fun htext => ?_
  constructor
  · rintro hfirst ⟨a, c, d, m, b, rfl, hc, hd, hm⟩
    refine hfirst a (c :: '.' :: (d ++ m :: b) ++ w.text) (by simp) (by simp) ?_
    refine ⟨[c] ++ '.' :: (d ++ []), m :: (b ++ w.text),
      ⟨[c], d, [], ⟨by simp, by simpa using hc⟩, hd, .inl rfl, rfl⟩,
      .inr ⟨m, b ++ w.text, rfl, hm, ?_⟩, by simp⟩
    intro hmem
    rcases List.mem_append.mp hmem with hmem | hmem
    · exact hline (by simp [hmem])
    · exact htext hmem
  · intro hholds x' y' heq hlt hcut
    rcases List.append_eq_append_iff.mp heq with ⟨z, rfl, -⟩ | ⟨z, rfl, rfl⟩
    · rw [List.length_append] at hlt
      omega
    · have hz : z ≠ [] := by
        rintro rfl
        simp at hlt
      rw [List.getLast?_append_of_ne_nil _ hz] at hlast
      exact hholds (holdsVersion_of_cuttable hlast hz hcut)

end Anodizer.Changelog
