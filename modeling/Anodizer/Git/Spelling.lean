import Anodizer.Git.SemVer

/-! # Spellings of a version

A version text is cut into its parts in one way. So parsing reads the only
spelling there is, and the text of a version parses to the version.
-/

namespace Anodizer.Git

open Regex
open Template (Text CharTables)

/-- The parts of a version text. -/
structure Spelling where
  major : Text
  minor : Text
  patch : Text
  prerelease : Option Text
  build : Option Text

namespace Spelling

def text (w : Spelling) : Text :=
  w.major ++ '.' :: (w.minor ++ '.' :: (w.patch ++
    (SemVer.suffix '-' w.prerelease ++ SemVer.suffix '+' w.build)))

/-- A number of at least one digit. -/
def IsNumber (u : CharTables) (t : Text) : Prop := t ≠ [] ∧ ∀ c ∈ t, u.digit c

structure Valid (u : CharTables) (w : Spelling) : Prop where
  major : IsNumber u w.major
  minor : IsNumber u w.minor
  patch : IsNumber u w.patch
  prerelease : ∀ t ∈ w.prerelease, t ≠ [] ∧ ∀ c ∈ t, c ≠ '+'
  build : ∀ t ∈ w.build, t ≠ [] ∧ ∀ c ∈ t, c ≠ '\n'

/-- The groups the version expression captures, the last one first. -/
def groups (w : Spelling) : List (String × Text) :=
  (w.build.map (("5", ·))).toList ++ (w.prerelease.map (("4", ·))).toList ++
    [("3", w.patch), ("2", w.minor), ("1", w.major)]

end Spelling

section Reads

variable {u : CharTables} {prev : Option Char} {t rest : Text} {g : List (String × Text)}

theorem reads_mark {mark : String} {m : Char} {p : Char → Bool} (hm : mark.toList = [m]) :
    (Re.opt (.cat [.lit mark, .plus true (.char p)])).Reads prev t rest g ↔
      g = [] ∧ ∃ o, t = SemVer.suffix m o ∧ ∀ x ∈ o, x ≠ [] ∧ ∀ c ∈ x, p c := by
  simp only [Re.opt, Re.cat, List.foldr, Re.Reads, Re.reads_lit, Re.reads_plus_char, hm]
  constructor
  · rintro (⟨_, _, _, _, rfl, rfl, ⟨rfl, rfl⟩, x, _, _, _, rfl, rfl, ⟨hne, hx, rfl⟩, rfl, rfl⟩ |
      ⟨rfl, rfl⟩)
    · exact ⟨rfl, some x, by simp [SemVer.suffix], by simpa using ⟨hne, hx⟩⟩
    · exact ⟨rfl, none, rfl, by simp⟩
  · rintro ⟨rfl, o, rfl, ho⟩
    cases o with
    | none => exact .inr ⟨rfl, rfl⟩
    | some x =>
      obtain ⟨hne, hx⟩ := ho x rfl
      exact .inl ⟨[m], x, [], [], rfl, rfl, ⟨rfl, rfl⟩, x, [], [], [], by simp, rfl,
        ⟨hne, hx, rfl⟩, rfl, rfl⟩

theorem reads_mark_group {mark name : String} {m : Char} {p : Char → Bool}
    (hm : mark.toList = [m]) :
    (Re.opt (.cat [.lit mark, .group name (.plus true (.char p))])).Reads prev t rest g ↔
      ∃ o, t = SemVer.suffix m o ∧ g = (o.map ((name, ·))).toList ∧
        ∀ x ∈ o, x ≠ [] ∧ ∀ c ∈ x, p c := by
  simp only [Re.opt, Re.cat, List.foldr, Re.Reads, Re.reads_lit, Re.reads_plus_char, hm]
  constructor
  · rintro (⟨_, _, _, _, rfl, rfl, ⟨rfl, rfl⟩, x, _, _, _, rfl, rfl, ⟨_, rfl, hne, hx, rfl⟩,
      rfl, rfl⟩ | ⟨rfl, rfl⟩)
    · exact ⟨some x, by simp [SemVer.suffix], by simp, by simpa using ⟨hne, hx⟩⟩
    · exact ⟨none, rfl, rfl, by simp⟩
  · rintro ⟨o, rfl, rfl, ho⟩
    cases o with
    | none => exact .inr ⟨rfl, rfl⟩
    | some x =>
      obtain ⟨hne, hx⟩ := ho x rfl
      exact .inl ⟨[m], x, [], [(name, x)], rfl, rfl, ⟨rfl, rfl⟩, x, [], [(name, x)], [],
        by simp, rfl, ⟨[], rfl, hne, hx, rfl⟩, rfl, rfl⟩

theorem reads_digitsRe :
    (digitsRe u).Reads prev t rest g ↔ Spelling.IsNumber u t ∧ g = [] :=
  Re.reads_plus_char.trans and_assoc.symm

theorem reads_coreRe :
    (coreRe u).Reads prev t rest g ↔ g = [] ∧ ∃ w : Spelling, w.Valid u ∧ t = w.text := by
  constructor
  · rintro ⟨a, _, _, _, rfl, rfl, ha, d₁, _, _, _, rfl, rfl, hd₁, b, _, _, _, rfl, rfl, hb,
      d₂, _, _, _, rfl, rfl, hd₂, c, _, _, _, rfl, rfl, hc, x, _, _, _, rfl, rfl, hx,
      y, _, _, _, rfl, rfl, hy, rfl, rfl⟩
    obtain ⟨hma, rfl⟩ := reads_digitsRe.mp ha
    obtain ⟨hmi, rfl⟩ := reads_digitsRe.mp hb
    obtain ⟨hpa, rfl⟩ := reads_digitsRe.mp hc
    obtain ⟨rfl, rfl⟩ := Re.reads_lit.mp hd₁
    obtain ⟨rfl, rfl⟩ := Re.reads_lit.mp hd₂
    obtain ⟨rfl, pre, rfl, hpre⟩ := (reads_mark (m := '-') rfl).mp hx
    obtain ⟨rfl, build, rfl, hbuild⟩ := (reads_mark (m := '+') rfl).mp hy
    refine ⟨rfl, ⟨a, b, c, pre, build⟩, ⟨hma, hmi, hpa, ?_, ?_⟩, by simp [Spelling.text]⟩
    · simpa using hpre
    · simpa using hbuild
  · rintro ⟨rfl, w, h, rfl⟩
    refine ⟨w.major, _, [], [], rfl, rfl, reads_digitsRe.mpr ⟨h.major, rfl⟩,
      ['.'], _, [], [], rfl, rfl, Re.reads_lit.mpr ⟨rfl, rfl⟩,
      w.minor, _, [], [], rfl, rfl, reads_digitsRe.mpr ⟨h.minor, rfl⟩,
      ['.'], _, [], [], rfl, rfl, Re.reads_lit.mpr ⟨rfl, rfl⟩,
      w.patch, _, [], [], rfl, rfl, reads_digitsRe.mpr ⟨h.patch, rfl⟩,
      _, _, [], [], rfl, rfl, (reads_mark (m := '-') rfl).mpr ⟨rfl, w.prerelease, rfl, ?_⟩,
      _, [], [], [], (List.append_nil _).symm, rfl,
      (reads_mark (m := '+') rfl).mpr ⟨rfl, w.build, rfl, ?_⟩, rfl, rfl⟩
    · simpa using h.prerelease
    · simpa using h.build

theorem reads_lead : (Re.opt (.lit "v")).Reads prev t rest g ↔ (t = ['v'] ∨ t = []) ∧ g = [] := by
  constructor
  · rintro (h | ⟨rfl, rfl⟩)
    · obtain ⟨rfl, rfl⟩ := Re.reads_lit.mp h
      exact ⟨.inl rfl, rfl⟩
    · exact ⟨.inr rfl, rfl⟩
  · rintro ⟨rfl | rfl, rfl⟩
    · exact .inl (Re.reads_lit.mpr ⟨rfl, rfl⟩)
    · exact .inr ⟨rfl, rfl⟩

/-- What follows the second dot of a version. -/
def patchRe (u : CharTables) : Re :=
  .cat [.group "3" (digitsRe u), .opt (.cat [.lit "-", .group "4" (.plus true notPlus)]),
    .opt (.cat [.lit "+", .group "5" (.plus true notNewline)]), .textEnd]

theorem reads_patchRe : (patchRe u).Reads prev t rest g ↔ rest = [] ∧ ∃ c pre build,
    Spelling.IsNumber u c ∧ (∀ x ∈ pre, x ≠ [] ∧ ∀ c ∈ x, c ≠ '+') ∧
      (∀ x ∈ build, x ≠ [] ∧ ∀ c ∈ x, c ≠ '\n') ∧
      t = c ++ (SemVer.suffix '-' pre ++ SemVer.suffix '+' build) ∧
      g = (build.map (("5", ·))).toList ++ (pre.map (("4", ·))).toList ++ [("3", c)] := by
  constructor
  · rintro ⟨c, _, _, _, rfl, rfl, ⟨_, rfl, hc⟩, x, _, _, _, rfl, rfl, hx,
      y, _, _, _, rfl, rfl, hy, _, _, _, _, rfl, rfl, ⟨rfl, rfl, hrest⟩, rfl, rfl⟩
    obtain ⟨hpa, rfl⟩ := reads_digitsRe.mp hc
    obtain ⟨pre, rfl, rfl, hpre⟩ := (reads_mark_group (m := '-') rfl).mp hx
    obtain ⟨build, rfl, rfl, hbuild⟩ := (reads_mark_group (m := '+') rfl).mp hy
    refine ⟨by simpa using hrest, c, pre, build, hpa, ?_, ?_, by simp, by simp⟩
    · simpa using hpre
    · simpa using hbuild
  · rintro ⟨rfl, c, pre, build, hc, hpre, hbuild, rfl, rfl⟩
    refine ⟨c, _, [("3", c)], _, rfl, rfl, ⟨[], rfl, reads_digitsRe.mpr ⟨hc, rfl⟩⟩,
      _, _, _, _, rfl, rfl, (reads_mark_group (m := '-') rfl).mpr ⟨pre, rfl, rfl, ?_⟩,
      _, [], _, [], (List.append_nil _).symm, rfl,
      (reads_mark_group (m := '+') rfl).mpr ⟨build, rfl, rfl, ?_⟩,
      [], [], [], [], rfl, rfl, ⟨rfl, rfl, rfl⟩, rfl, rfl⟩
    · simpa using hpre
    · simpa using hbuild

theorem reads_semverRe : (semverRe u).Reads none t rest g ↔
    rest = [] ∧ ∃ lead, ∃ w : Spelling, (lead = ['v'] ∨ lead = []) ∧ w.Valid u ∧
      t = lead ++ w.text ∧ g = w.groups := by
  constructor
  · rintro ⟨_, _, _, _, rfl, rfl, ⟨rfl, rfl, -⟩, lead, _, _, _, rfl, rfl, hlead,
      a, _, _, _, rfl, rfl, ⟨_, rfl, ha⟩, d₁, _, _, _, rfl, rfl, hd₁,
      b, _, _, _, rfl, rfl, ⟨_, rfl, hb⟩, d₂, _, _, _, rfl, rfl, hd₂, htail⟩
    obtain ⟨rfl, c, pre, build, hpa, hpre, hbuild, rfl, rfl⟩ := reads_patchRe.mp htail
    obtain ⟨hle, rfl⟩ := reads_lead.mp hlead
    obtain ⟨hma, rfl⟩ := reads_digitsRe.mp ha
    obtain ⟨hmi, rfl⟩ := reads_digitsRe.mp hb
    obtain ⟨rfl, rfl⟩ := Re.reads_lit.mp hd₁
    obtain ⟨rfl, rfl⟩ := Re.reads_lit.mp hd₂
    exact ⟨rfl, lead, ⟨a, b, c, pre, build⟩, hle, ⟨hma, hmi, hpa, hpre, hbuild⟩,
      by simp [Spelling.text], by simp [Spelling.groups]⟩
  · rintro ⟨rfl, lead, w, hlead, h, rfl, rfl⟩
    refine ⟨[], _, [], _, rfl, (List.append_nil _).symm, ⟨rfl, rfl, rfl⟩,
      lead, _, [], _, rfl, (List.append_nil _).symm, reads_lead.mpr ⟨hlead, rfl⟩,
      w.major, _, [("1", w.major)], _, rfl, ?_, ⟨[], rfl, reads_digitsRe.mpr ⟨h.major, rfl⟩⟩,
      ['.'], _, [], _, rfl, (List.append_nil _).symm, Re.reads_lit.mpr ⟨rfl, rfl⟩,
      w.minor, _, [("2", w.minor)], _, rfl, rfl, ⟨[], rfl, reads_digitsRe.mpr ⟨h.minor, rfl⟩⟩,
      ['.'], _, [], _, rfl, (List.append_nil _).symm, Re.reads_lit.mpr ⟨rfl, rfl⟩,
      reads_patchRe.mpr ⟨rfl, w.patch, w.prerelease, w.build, h.patch, h.prerelease, h.build,
        rfl, rfl⟩⟩
    simp [Spelling.groups]

/-! ### Unique spelling -/

/-- A text is cut in one way where a class of characters ends. -/
theorem cut_unique {p : Char → Bool} {a a' r r' : Text} (ha : ∀ c ∈ a, p c) (ha' : ∀ c ∈ a', p c)
    (hr : ∀ c ∈ r.head?, p c = false) (hr' : ∀ c ∈ r'.head?, p c = false)
    (h : a ++ r = a' ++ r') : a = a' ∧ r = r' := by
  have htake : ∀ {x y : Text}, (∀ c ∈ x, p c) → (∀ c ∈ y.head?, p c = false) →
      (x ++ y).takeWhile p = x := by
    intro x y hx hy
    rw [List.takeWhile_append_of_pos hx]
    cases y with
    | nil => simp
    | cons c y => simp [hy c rfl]
  have haa' : a = a' := by rw [← htake ha hr, h, htake ha' hr']
  subst haa'
  exact ⟨rfl, List.append_cancel_left h⟩

theorem CharTables.not_digit (u : CharTables) {c : Char} (hc : c.toNat < 128)
    (h : c.isDigit = false) : u.digit c = false := (u.digit_ascii c hc).trans h

namespace Spelling

theorem head_suffix {m c : Char} {o : Option Text} (h : c ∈ (SemVer.suffix m o).head?) :
    c = m := by
  cases o with
  | none => exact absurd h (by simp [SemVer.suffix])
  | some t => simpa [SemVer.suffix, eq_comm] using h

theorem suffix_injective {m : Char} : Function.Injective (SemVer.suffix m) := by
  intro o o' h
  cases o <;> cases o' <;> simp_all [SemVer.suffix]

theorem suffix_ne_cons {m c : Char} {o : Option Text} {r : Text} (h : c ≠ m) :
    SemVer.suffix m o ≠ c :: r := fun heq => h (head_suffix (o := o) (by rw [heq]; rfl))

theorem suffixes_unique {pre pre' build build' : Option Text}
    (hpre : ∀ t ∈ pre, ∀ c ∈ t, c ≠ '+') (hpre' : ∀ t ∈ pre', ∀ c ∈ t, c ≠ '+')
    (h : SemVer.suffix '-' pre ++ SemVer.suffix '+' build =
      SemVer.suffix '-' pre' ++ SemVer.suffix '+' build') : pre = pre' ∧ build = build' := by
  cases pre with
  | none =>
    cases pre' with
    | none => exact ⟨rfl, suffix_injective h⟩
    | some x' => exact absurd h (suffix_ne_cons (by decide))
  | some x =>
    cases pre' with
    | none => exact absurd h.symm (suffix_ne_cons (by decide))
    | some x' =>
      obtain ⟨rfl, hb⟩ := cut_unique (p := (· != '+')) (by simpa using hpre) (by simpa using hpre')
        (fun c hc => by simp [head_suffix hc]) (fun c hc => by simp [head_suffix hc])
        (List.cons.inj h).2
      exact ⟨rfl, suffix_injective hb⟩

theorem suffixes_not_digit (u : CharTables) (pre build : Option Text) :
    ∀ c ∈ (SemVer.suffix '-' pre ++ SemVer.suffix '+' build).head?, u.digit c = false := by
  intro c hc
  have hmark : c = '-' ∨ c = '+' := by
    cases pre with
    | none => exact .inr (head_suffix hc)
    | some t => exact .inl (head_suffix (o := some t) (by simpa [SemVer.suffix] using hc))
  rcases hmark with rfl | rfl
  · exact CharTables.not_digit u (by decide) (by decide)
  · exact CharTables.not_digit u (by decide) (by decide)

/-- Three numbers with dots between them end where the digits end. -/
theorem numbers_unique {a b c a' b' c' r r' : Text} (ha : IsNumber u a) (hb : IsNumber u b)
    (hc : IsNumber u c) (ha' : IsNumber u a') (hb' : IsNumber u b') (hc' : IsNumber u c')
    (hr : ∀ d ∈ r.head?, u.digit d = false) (hr' : ∀ d ∈ r'.head?, u.digit d = false)
    (h : a ++ '.' :: (b ++ '.' :: (c ++ r)) = a' ++ '.' :: (b' ++ '.' :: (c' ++ r'))) :
    a = a' ∧ b = b' ∧ c = c' ∧ r = r' := by
  have hdot : ∀ s : Text, ∀ d ∈ ('.' :: s).head?, u.digit d = false := by
    rintro s _ ⟨⟩
    exact CharTables.not_digit u (by decide) (by decide)
  obtain ⟨rfl, h₁⟩ := cut_unique ha.2 ha'.2 (hdot _) (hdot _) h
  obtain ⟨rfl, h₂⟩ := cut_unique hb.2 hb'.2 (hdot _) (hdot _) (List.cons.inj h₁).2
  obtain ⟨rfl, rfl⟩ := cut_unique hc.2 hc'.2 hr hr' (List.cons.inj h₂).2
  exact ⟨rfl, rfl, rfl, rfl⟩

theorem Valid.unique {w w' : Spelling} (h : w.Valid u) (h' : w'.Valid u)
    (htext : w.text = w'.text) : w = w' := by
  obtain ⟨a, b, c, pre, build⟩ := w
  obtain ⟨a', b', c', pre', build'⟩ := w'
  obtain ⟨rfl, rfl, rfl, hrest⟩ := numbers_unique h.major h.minor h.patch h'.major h'.minor
    h'.patch (suffixes_not_digit u _ _) (suffixes_not_digit u _ _) htext
  obtain ⟨rfl, rfl⟩ := suffixes_unique (fun t ht => (h.prerelease t ht).2)
    (fun t ht => (h'.prerelease t ht).2) hrest
  rfl

theorem IsNumber.append_ne {a s x : Text} {c : Char} (h : IsNumber u a)
    (hc : u.digit c = false) : a ++ s ≠ c :: x := by
  obtain ⟨hne, hdigits⟩ := h
  cases a with
  | nil => exact absurd rfl hne
  | cons d a =>
    intro heq
    obtain ⟨rfl, -⟩ := List.cons.inj heq
    exact absurd (hdigits d List.mem_cons_self) (by simp [hc])

end Spelling

theorem lead_unique {lead lead' : Text} {w w' : Spelling} (hl : lead = ['v'] ∨ lead = [])
    (hl' : lead' = ['v'] ∨ lead' = []) (h : w.Valid u) (h' : w'.Valid u)
    (htext : lead ++ w.text = lead' ++ w'.text) : lead = lead' ∧ w = w' := by
  have hv : ∀ {w : Spelling} {r : Text}, w.Valid u → w.text ≠ 'v' :: r := fun h =>
    h.major.append_ne (CharTables.not_digit u (by decide) (by decide))
  rcases hl with rfl | rfl <;> rcases hl' with rfl | rfl
  · exact ⟨rfl, h.unique h' (List.cons.inj htext).2⟩
  · exact absurd htext.symm (hv h')
  · exact absurd htext (hv h)
  · exact ⟨rfl, h.unique h' htext⟩

/-- The version a spelling stands for. -/
def Spelling.value (w : Spelling) : Option SemVer := do
  let major ← parseU64 w.major
  let minor ← parseU64 w.minor
  let patch ← parseU64 w.patch
  some ⟨major, minor, patch, w.prerelease, w.build⟩

theorem Spelling.value_parts {w : Spelling} {v : SemVer} (h : w.value = some v) :
    v.prerelease = w.prerelease ∧ v.buildMetadata = w.build := by
  simp only [Spelling.value, Option.bind_eq_bind, Option.bind_eq_some_iff] at h
  obtain ⟨a, -, b, -, c, -, heq⟩ := h
  obtain rfl := Option.some.inj heq
  exact ⟨rfl, rfl⟩

theorem Spelling.get_groups {m : Found} {w : Spelling} (h : m.groups = w.groups) :
    m.get "1" = w.major ∧ m.get "2" = w.minor ∧ m.get "3" = w.patch ∧
      m.get? "4" = w.prerelease ∧ m.get? "5" = w.build := by
  obtain ⟨a, b, c, pre, build⟩ := w
  simp only [Found.get, Found.get?, h, groups]
  cases pre <;> cases build <;> simp [List.lookup]

/-- Parsing reads the only spelling. -/
theorem parseSemver_spelling {lead : Text} {w : Spelling} (hl : lead = ['v'] ∨ lead = [])
    (h : w.Valid u) : parseSemver u (lead ++ w.text) = w.value := by
  have hreads := reads_semverRe.mpr ⟨rfl, lead, w, hl, h, rfl, rfl⟩
  have hmem : (⟨lead ++ w.text, [], w.groups⟩ : Found) ∈
      (semverRe u).results none (lead ++ w.text) := Re.mem_results.mpr ⟨by simp, hreads⟩
  obtain ⟨m, hm⟩ : ∃ m, matchStart (semverRe u) (lead ++ w.text) = some m := by
    unfold matchStart first
    exact Option.isSome_iff_exists.mp (by simpa using List.ne_nil_of_mem hmem)
  obtain ⟨htext, hr⟩ := first_sound hm
  obtain ⟨hrest, lead', w', hl', h', ht', hg'⟩ := reads_semverRe.mp hr
  rw [hrest, List.append_nil, ht'] at htext
  obtain ⟨-, rfl⟩ := lead_unique hl hl' h h' htext
  obtain ⟨h₁, h₂, h₃, h₄, h₅⟩ := Spelling.get_groups hg'
  simp only [parseSemver, hm, Option.bind_eq_bind, Option.bind_some, h₁, h₂, h₃, h₄, h₅,
    Spelling.value]

theorem parseSemver_eq_some {s : Text} {v : SemVer} : parseSemver u s = some v ↔
    ∃ lead, ∃ w : Spelling, (lead = ['v'] ∨ lead = []) ∧ w.Valid u ∧ s = lead ++ w.text ∧
      w.value = some v := by
  constructor
  · intro hparse
    cases hm : matchStart (semverRe u) s with
    | none => simp [parseSemver, hm] at hparse
    | some m =>
      obtain ⟨htext, hr⟩ := first_sound hm
      obtain ⟨hrest, lead, w, hl, h, ht, -⟩ := reads_semverRe.mp hr
      rw [hrest, List.append_nil, ht] at htext
      exact ⟨lead, w, hl, h, htext, by rw [← parseSemver_spelling hl h, ← htext, hparse]⟩
  · rintro ⟨lead, w, hl, h, rfl, hv⟩
    rw [parseSemver_spelling hl h, hv]

/-! ### Canonical spelling -/

theorem parseU64_lt {s : Text} {n : ℕ} (h : parseU64 s = some n) : n < 2 ^ 64 := by
  simp only [parseU64, Option.ite_none_right_eq_some] at h
  obtain ⟨⟨-, -, hlt⟩, heq⟩ := h
  obtain rfl := Option.some.inj heq
  exact hlt

theorem isDigit_toDigits {n : ℕ} {c : Char} (h : c ∈ Nat.toDigits 10 n) : c.isDigit :=
  Nat.isDigit_of_mem_toDigits (by decide) (by decide) h

theorem parseU64_toDigits {n : ℕ} (h : n < 2 ^ 64) : parseU64 (Nat.toDigits 10 n) = some n := by
  have hplus : (Nat.toDigits 10 n).head? ≠ some '+' := fun hc =>
    absurd (isDigit_toDigits (List.mem_of_mem_head? hc)) (by decide)
  unfold parseU64
  simp only [if_neg hplus, Nat.ofDigitChars_ten_toDigits]
  exact if_pos ⟨Nat.toDigits_ne_nil, List.all_eq_true.mpr fun _ => isDigit_toDigits, h⟩

theorem isNumber_toDigits (u : CharTables) (n : ℕ) :
    Spelling.IsNumber u (Nat.toDigits 10 n) := by
  refine ⟨Nat.toDigits_ne_nil, ?_⟩
  intro c hc
  have hdigit := isDigit_toDigits hc
  rw [u.digit_ascii c, hdigit]
  simp only [Char.isDigit, Bool.and_eq_true, decide_eq_true_eq, UInt32.le_iff_toNat_le] at hdigit
  have : ('9'.val.toNat : ℕ) = 57 := rfl
  exact Nat.lt_of_le_of_lt hdigit.2 (by omega)

def SemVer.spelling (v : SemVer) : Spelling :=
  ⟨Nat.toDigits 10 v.major, Nat.toDigits 10 v.minor, Nat.toDigits 10 v.patch, v.prerelease,
    v.buildMetadata⟩

theorem SemVer.spelling_text (v : SemVer) : v.spelling.text = v.versionString := by
  simp [spelling, Spelling.text, versionString, rawVersionString]

/-- A version can be read back from its text. -/
structure SemVer.Readable (v : SemVer) : Prop where
  major : v.major < 2 ^ 64
  minor : v.minor < 2 ^ 64
  patch : v.patch < 2 ^ 64
  prerelease : ∀ t ∈ v.prerelease, t ≠ [] ∧ ∀ c ∈ t, c ≠ '+'
  build : ∀ t ∈ v.buildMetadata, t ≠ [] ∧ ∀ c ∈ t, c ≠ '\n'

theorem SemVer.Readable.spelling_valid {v : SemVer} (h : v.Readable) : v.spelling.Valid u :=
  ⟨isNumber_toDigits u _, isNumber_toDigits u _, isNumber_toDigits u _, h.prerelease, h.build⟩

theorem SemVer.Readable.spelling_value {v : SemVer} (h : v.Readable) :
    v.spelling.value = some v := by
  simp only [Spelling.value, spelling, parseU64_toDigits h.major, parseU64_toDigits h.minor,
    parseU64_toDigits h.patch, Option.bind_eq_bind, Option.bind_some]

/-- The text of a version parses to the version. -/
theorem SemVer.Readable.parse {v : SemVer} (h : v.Readable) :
    parseSemver u v.versionString = some v := by
  rw [← v.spelling_text, ← h.spelling_value (v := v)]
  have hlead : ([] : Text) = ['v'] ∨ ([] : Text) = [] := .inr rfl
  have hparse := parseSemver_spelling hlead (h.spelling_valid (u := u))
  rwa [List.nil_append] at hparse

theorem readable_of_parse {s : Text} {v : SemVer} (h : parseSemver u s = some v) :
    v.Readable := by
  obtain ⟨-, w, -, hw, -, hv⟩ := parseSemver_eq_some.mp h
  simp only [Spelling.value, Option.bind_eq_bind, Option.bind_eq_some_iff] at hv
  obtain ⟨a, ha, b, hb, c, hc, heq⟩ := hv
  obtain rfl := Option.some.inj heq
  exact ⟨parseU64_lt ha, parseU64_lt hb, parseU64_lt hc, hw.prerelease, hw.build⟩

end Reads

end Anodizer.Git
