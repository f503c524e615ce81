import Anodizer.Git.Spelling
import Anodizer.Lib.RegexOrder

/-! # The version of a tag, read twice

A tag may hold several texts that spell a version behind a separator. Parsing takes the
first of them, and splitting the family off takes the last on the first line. The two
agree where these are the same, or where neither is a version.
-/

namespace Anodizer.Git

open Regex
open Template (Text CharTables)

variable {u : CharTables} {tag x r p : Text} {v : SemVer}

/-- The text spells a version, with or without a `v`. -/
def VersionText (u : CharTables) (r : Text) : Prop :=
  ∃ lead, ∃ w : Spelling, (lead = ['v'] ∨ lead = []) ∧ w.Valid u ∧ r = lead ++ w.text

def isSeparator (c : Char) : Bool := c == '-' || c == '_' || c == '/'

/-- The tag ends with the text of a version, behind a separator. -/
structure Separated (u : CharTables) (tag x r : Text) : Prop where
  tag_eq : tag = x ++ r
  mark : ∃ a c, x = a ++ [c] ∧ isSeparator c
  version : VersionText u r

/-! ### Parsing -/

theorem reads_prefixVersionRe {prev : Option Char} {t rest : Text} {g : List (String × Text)} :
    (prefixVersionRe u).Reads prev t rest g ↔
      rest = [] ∧ ∃ c r, isSeparator c ∧ VersionText u r ∧ t = c :: r ∧ g = [("1", r)] := by
  constructor
  · rintro ⟨_, _, _, _, rfl, rfl, ⟨⟨c, hc, rfl⟩, rfl⟩, _, _, _, _, rfl, rfl,
      ⟨_, rfl, lead, _, _, _, rfl, rfl, hlead, _, _, _, _, rfl, rfl, hcore, rfl, rfl⟩,
      _, _, _, _, rfl, rfl, ⟨rfl, rfl, hrest⟩, rfl, rfl⟩
    obtain ⟨hl, rfl⟩ := reads_lead.mp hlead
    obtain ⟨rfl, w, hw, rfl⟩ := reads_coreRe.mp hcore
    exact ⟨by simpa using hrest, c, _, hc, ⟨lead, w, hl, hw, rfl⟩, by simp, by simp⟩
  · rintro ⟨rfl, c, _, hc, ⟨lead, w, hl, hw, rfl⟩, rfl, rfl⟩
    refine ⟨[c], _, [], _, rfl, (List.append_nil _).symm, ⟨⟨c, hc, rfl⟩, rfl⟩,
      lead ++ w.text, [], [("1", lead ++ w.text)], [], (List.append_nil _).symm, rfl,
      ⟨[], rfl, lead, w.text, [], [], rfl, rfl, reads_lead.mpr ⟨hl, rfl⟩, w.text, [], [], [],
        (List.append_nil _).symm, rfl, reads_coreRe.mpr ⟨rfl, w, hw, rfl⟩, rfl, rfl⟩,
      [], [], [], [], rfl, rfl, ⟨rfl, rfl, rfl⟩, rfl, rfl⟩

/-- The search for a version reads where a separator stands in front of one. -/
theorem readsAt_prefixVersionRe {a b : Text} {m : Found} :
    ReadsAt (prefixVersionRe u) a b m ↔ ∃ c r, b = c :: r ∧ Separated u (a ++ b) (a ++ [c]) r ∧
      m = ⟨c :: r, [], [("1", r)]⟩ := by
  constructor
  · rintro ⟨hm, -⟩
    obtain ⟨hb, hreads⟩ := first_sound hm
    obtain ⟨hrest, c, r, hc, hr, htext, hg⟩ := reads_prefixVersionRe.mp hreads
    rw [hrest, htext, List.append_nil] at hb
    subst hb
    refine ⟨c, r, rfl, ⟨by simp, ⟨a, c, rfl, hc⟩, hr⟩, ?_⟩
    cases m
    simp_all
  · rintro ⟨c, r, rfl, hsep, rfl⟩
    obtain ⟨a', c', heq, hc⟩ := hsep.mark
    obtain ⟨-, rfl⟩ := List.append_inj' heq rfl |>.imp_right fun h => (List.cons.inj h).1
    refine ⟨first_of_unique ⟨(List.append_nil _).symm,
      reads_prefixVersionRe.mpr ⟨rfl, c, r, hc, hsep.version, rfl, rfl⟩⟩ ?_, List.cons_ne_nil _ _⟩
    intro k hk hreads
    obtain ⟨hrest, c', r', -, -, htext, hg⟩ := reads_prefixVersionRe.mp hreads
    rw [hrest, htext, List.append_nil] at hk
    obtain ⟨rfl, rfl⟩ := List.cons.inj hk
    cases k
    simp_all

theorem parseSemverTag_of_not_separated (hstrict : parseSemver u tag = none)
    (h : ∀ x r, ¬ Separated u tag x r) : parseSemverTag u tag = none := by
  have hnone : leftmost (prefixVersionRe u) ([] : Text).getLast? tag = none := by
    refine leftmost_of_none fun a b hab k hk => ?_
    obtain ⟨c, r, rfl, hsep, -⟩ := readsAt_prefixVersionRe.mp hk
    rw [List.nil_append, ← hab] at hsep
    exact h _ _ hsep
  rw [parseSemverTag, hstrict, head?_findIter]
  exact congrArg (Option.bind · _) hnone

/-- Parsing takes the first version text behind a separator. -/
theorem parseSemverTag_of_separated (hstrict : parseSemver u tag = none)
    (h : Separated u tag x r) (hfirst : ∀ x' r', Separated u tag x' r' → x.length ≤ x'.length) :
    parseSemverTag u tag = parseSemver u r := by
  obtain ⟨a, c, rfl, hc⟩ := h.mark
  have htag : tag = a ++ c :: r := by simpa using h.tag_eq
  have hsome : leftmost (prefixVersionRe u) ([] : Text).getLast? (a ++ c :: r) =
      some ⟨c :: r, [], [("1", r)]⟩ := by
    refine leftmost_eq_some (readsAt_prefixVersionRe.mpr ⟨c, r, rfl, ?_, rfl⟩) ?_
    · rw [List.nil_append, ← htag]
      exact h
    · intro x' y' hxy hlt k hk
      obtain ⟨c', r', rfl, hsep, -⟩ := readsAt_prefixVersionRe.mp hk
      rw [List.nil_append, ← hxy, ← htag] at hsep
      have hle := hfirst _ _ hsep
      simp only [List.length_append, List.length_cons, List.length_nil] at hle
      omega
  rw [parseSemverTag, hstrict, head?_findIter, htag]
  exact congrArg (Option.bind · _) hsome

/-! ### Splitting -/

/-- The matches of what follows the part of the family that ends at a separator. -/
def afterFamily (u : CharTables) (a : Found) : List Found :=
  ((Re.cat [.opt (.lit "v")]).results (before none a.text) a.rest).flatMap fun b =>
    ((Re.cat [.group "2" (coreRe u), .textEnd]).results (before none (a.text ++ b.text))
      b.rest).map fun c =>
        ⟨(a.text ++ b.text) ++ c.text, c.rest, c.groups ++ ("1", a.text ++ b.text) ::
          (b.groups ++ a.groups)⟩

/-- A run, up to the separator behind it. -/
def familyPart : Text × Text → List Found
  | (_, []) => []
  | (y, c :: r) => if isSeparator c then [⟨y ++ [c], r, []⟩] else []

/-- The parts of a tag that end at a separator on the first line, the longest first. -/
def familyParts (tag : Text) : List Found := (runs (· != '\n') tag).flatMap familyPart

theorem results_familyParts :
    (Re.cat [.star true notNewline, separatorRe]).results none tag = familyParts tag := by
  change (Re.seq (.star true notNewline) (.seq separatorRe .empty)).results none tag = _
  rw [Re.results_seq, notNewline, Re.results_star_char, List.flatMap_map, familyParts]
  refine List.flatMap_congr fun q _ => ?_
  rw [Re.results_seq_empty]
  obtain ⟨y, z⟩ := q
  cases z with
  | nil => rfl
  | cons c r =>
    change List.map _ (if isSeparator c = true then _ else _) = _
    by_cases hc : isSeparator c <;> simp [familyPart, hc]

theorem results_familyRe : (familyRe u).results none tag =
    afterFamily u ⟨[], tag, []⟩ ++ (familyParts tag).flatMap (afterFamily u) := by
  have hfamily : (Re.alt .empty (.cat [.star true notNewline, separatorRe])).results none tag =
      ⟨[], tag, []⟩ :: familyParts tag := by
    rw [Re.results_alt, results_familyParts]
    rfl
  have hstart : Re.textStart.results none tag = [⟨[], tag, []⟩] := rfl
  rw [← List.flatMap_cons, ← hfamily]
  change (Re.seq .textStart (.seq (.group "1" (.seq _ (Re.cat [.opt (.lit "v")])))
    (Re.cat [.group "2" (coreRe u), .textEnd]))).results none tag = _
  rw [Re.results_seq, hstart, List.flatMap_singleton, Re.results_seq, Re.results_group,
    Re.results_seq]
  simp only [List.map_flatMap, List.flatMap_map, List.map_map, List.flatMap_assoc]
  refine List.flatMap_congr fun a _ => ?_
  rw [afterFamily]
  refine List.flatMap_congr fun b _ => ?_
  simp [before, Function.comp_def]

theorem mem_afterFamily {m : Found} : m ∈ afterFamily u ⟨x, r, []⟩ ↔
    ∃ lead, ∃ w : Spelling, (lead = ['v'] ∨ lead = []) ∧ w.Valid u ∧ r = lead ++ w.text ∧
      m = ⟨x ++ r, [], [("2", w.text), ("1", x ++ lead)]⟩ := by
  have hlead : ∀ {k : Found}, k ∈ (Re.cat [.opt (.lit "v")]).results (before none x) r ↔
      r = k.text ++ k.rest ∧ (k.text = ['v'] ∨ k.text = []) ∧ k.groups = [] := by
    intro k
    rw [Re.mem_results]
    refine and_congr_right fun _ => ?_
    constructor
    · rintro ⟨_, _, _, _, htext, hg, hlead, rfl, rfl⟩
      obtain ⟨hl, rfl⟩ := reads_lead.mp hlead
      rw [htext, hg, List.append_nil]
      exact ⟨hl, rfl⟩
    · rintro ⟨hl, hg⟩
      refine ⟨k.text, [], [], [], (List.append_nil _).symm, hg, reads_lead.mpr ⟨hl, rfl⟩, rfl, rfl⟩
  have hcore : ∀ {prev : Option Char} {s : Text} {c : Found},
      c ∈ (Re.cat [.group "2" (coreRe u), .textEnd]).results prev s ↔
        ∃ w : Spelling, w.Valid u ∧ s = w.text ∧ c = ⟨w.text, [], [("2", w.text)]⟩ := by
    intro prev s c
    rw [Re.mem_results]
    constructor
    · rintro ⟨hs, _, _, _, _, htext, hg, ⟨_, rfl, hcore⟩, _, _, _, _, rfl, rfl,
        ⟨rfl, rfl, hrest⟩, rfl, rfl⟩
      obtain ⟨rfl, w, hw, rfl⟩ := reads_coreRe.mp hcore
      obtain ⟨t, rest, g⟩ := c
      obtain rfl : t = w.text := by simpa using htext
      obtain rfl : rest = [] := by simpa using hrest
      obtain rfl : g = [("2", w.text)] := by simpa using hg
      exact ⟨w, hw, by simpa using hs, rfl⟩
    · rintro ⟨w, hw, rfl, rfl⟩
      exact ⟨(List.append_nil _).symm, w.text, [], [("2", w.text)], [], (List.append_nil _).symm,
        rfl, ⟨[], rfl, reads_coreRe.mpr ⟨rfl, w, hw, rfl⟩⟩, [], [], [], [], rfl, rfl,
        ⟨rfl, rfl, rfl⟩, rfl, rfl⟩
  simp only [afterFamily, List.mem_flatMap, List.mem_map, hlead, hcore]
  constructor
  · rintro ⟨b, ⟨rfl, hl, hg⟩, c, ⟨w, hw, hrest, rfl⟩, rfl⟩
    exact ⟨b.text, w, hl, hw, by rw [hrest], by simp [hg, hrest]⟩
  · rintro ⟨lead, w, hl, hw, rfl, rfl⟩
    exact ⟨⟨lead, w.text, []⟩, ⟨rfl, hl, rfl⟩, _, ⟨w, hw, rfl, rfl⟩, by simp⟩

theorem mem_familyPart {y z : Text} {a : Found} : a ∈ familyPart (y, z) ↔
    ∃ c r, z = c :: r ∧ isSeparator c ∧ a = ⟨y ++ [c], r, []⟩ := by
  cases z with
  | nil => simp [familyPart]
  | cons c r =>
    rw [familyPart]
    by_cases hc : isSeparator c
    · rw [if_pos hc, List.mem_singleton]
      constructor
      · rintro rfl
        exact ⟨c, r, rfl, hc, rfl⟩
      · rintro ⟨c', r', heq, -, rfl⟩
        obtain ⟨rfl, rfl⟩ := List.cons.inj heq
        rfl
    · rw [if_neg hc]
      refine iff_of_false List.not_mem_nil ?_
      rintro ⟨c', r', heq, hc', -⟩
      obtain ⟨rfl, -⟩ := List.cons.inj heq
      exact hc hc'

theorem mem_familyParts {a : Found} : a ∈ familyParts tag ↔
    ∃ y c r, tag = y ++ c :: r ∧ '\n' ∉ y ∧ isSeparator c ∧ a = ⟨y ++ [c], r, []⟩ := by
  have hline : ∀ y : Text, (∀ d ∈ y, (d != '\n') = true) ↔ '\n' ∉ y := by
    intro y
    simp only [bne_iff_ne, ne_eq]
    exact ⟨fun h hmem => h _ hmem rfl, fun h d hd heq => h (heq ▸ hd)⟩
  rw [familyParts, List.mem_flatMap]
  constructor
  · rintro ⟨⟨y, z⟩, hq, ha⟩
    obtain ⟨rfl, hy⟩ := mem_runs.mp hq
    obtain ⟨c, r, rfl, hc, rfl⟩ := mem_familyPart.mp ha
    exact ⟨y, c, r, rfl, (hline y).mp hy, hc, rfl⟩
  · rintro ⟨y, c, r, rfl, hy, hc, rfl⟩
    exact ⟨(y, c :: r), mem_runs.mpr ⟨rfl, (hline y).mpr hy⟩,
      mem_familyPart.mpr ⟨c, r, rfl, hc, rfl⟩⟩

theorem familyParts_pairwise :
    (familyParts tag).Pairwise fun a b => b.text.length < a.text.length := by
  rw [familyParts, List.pairwise_flatMap]
  refine ⟨?_, runs_pairwise.imp ?_⟩
  · rintro ⟨y, z⟩ -
    cases z with
    | nil => exact .nil
    | cons c r =>
      rw [familyPart]
      split
      · exact List.pairwise_singleton _ _
      · exact .nil
  · rintro ⟨y, z⟩ ⟨y', z'⟩ hlt a ha b hb
    obtain ⟨c, r, -, -, rfl⟩ := mem_familyPart.mp ha
    obtain ⟨c', r', -, -, rfl⟩ := mem_familyPart.mp hb
    simpa using hlt

theorem afterFamily_eq_nil (h : ¬ VersionText u r) : afterFamily u ⟨x, r, []⟩ = [] := by
  refine List.eq_nil_iff_forall_not_mem.mpr fun m hm => ?_
  obtain ⟨lead, w, hl, hw, hr, -⟩ := mem_afterFamily.mp hm
  exact h ⟨lead, w, hl, hw, hr⟩

theorem head?_afterFamily {lead : Text} {w : Spelling} (hl : lead = ['v'] ∨ lead = [])
    (hw : w.Valid u) : (afterFamily u ⟨x, lead ++ w.text, []⟩).head? =
      some ⟨x ++ (lead ++ w.text), [], [("2", w.text), ("1", x ++ lead)]⟩ := by
  have hmem := mem_afterFamily (u := u) (x := x) |>.mpr ⟨lead, w, hl, hw, rfl, rfl⟩
  obtain ⟨m, ms, hms⟩ := List.exists_cons_of_ne_nil (List.ne_nil_of_mem hmem)
  have hm : m ∈ afterFamily u ⟨x, lead ++ w.text, []⟩ := by
    rw [hms]
    exact List.mem_cons_self
  obtain ⟨lead', w', hl', hw', hr, rfl⟩ := mem_afterFamily.mp hm
  obtain ⟨rfl, rfl⟩ := lead_unique hl hl' hw hw' hr
  rw [hms, List.head?_cons]

theorem matchStart_familyRe : matchStart (familyRe u) tag =
    (afterFamily u ⟨[], tag, []⟩).head?.or
      ((familyParts tag).findSome? fun a => (afterFamily u a).head?) := by
  rw [matchStart, first, results_familyRe, List.head?_append, List.head?_flatMap]

/-- What splitting gives for a match. -/
theorem splitTagFamily_of_match {lead : Text} {w : Spelling} (hl : lead = ['v'] ∨ lead = [])
    (hw : w.Valid u)
    (h : matchStart (familyRe u) (x ++ (lead ++ w.text)) =
      some ⟨x ++ (lead ++ w.text), [], [("2", w.text), ("1", x ++ lead)]⟩) :
    ∃ p q, x ++ (lead ++ w.text) = p ++ q ∧ parseSemver u q = parseSemver u (lead ++ w.text) ∧
      splitTagFamily u (x ++ (lead ++ w.text)) =
        (parseSemver u (lead ++ w.text)).map fun v => (p, v) := by
  have hparse : parseSemver u w.text = w.value := by
    have hlead : ([] : Text) = ['v'] ∨ ([] : Text) = [] := .inr rfl
    simpa using parseSemver_spelling hlead hw
  have htake : (x ++ (lead ++ w.text)).take (x ++ lead).length = x ++ lead := by
    rw [← List.append_assoc, List.take_left]
  have hone : Found.get ⟨x ++ (lead ++ w.text), [], [("2", w.text), ("1", x ++ lead)]⟩ "1" =
      x ++ lead := rfl
  have htwo : Found.get ⟨x ++ (lead ++ w.text), [], [("2", w.text), ("1", x ++ lead)]⟩ "2" =
      w.text := rfl
  rw [parseSemver_spelling hl hw]
  refine ⟨x ++ lead, w.text, (List.append_assoc _ _ _).symm, hparse, ?_⟩
  simp only [splitTagFamily, h, Option.bind_eq_bind, Option.bind_some, hone, htwo, hparse, htake]
  cases w.value <;> rfl

/-- A tag that spells a version is split in front of it. -/
theorem splitTagFamily_of_version (h : VersionText u tag) :
    ∃ p q, tag = p ++ q ∧ parseSemver u q = parseSemver u tag ∧
      splitTagFamily u tag = (parseSemver u tag).map fun v => (p, v) := by
  obtain ⟨lead, w, hl, hw, rfl⟩ := h
  refine splitTagFamily_of_match (x := []) hl hw ?_
  rw [matchStart_familyRe, List.nil_append, head?_afterFamily hl hw]
  rfl

/-- A part of the tag that a version text follows. -/
theorem separated_of_mem {b : Found} (hb : b ∈ familyParts tag) (hr : VersionText u b.rest) :
    Separated u tag b.text b.rest ∧ '\n' ∉ b.text := by
  obtain ⟨y, c, r, rfl, hy, hc, rfl⟩ := mem_familyParts.mp hb
  refine ⟨⟨by simp, ⟨y, c, rfl, hc⟩, hr⟩, fun hn => ?_⟩
  rcases List.mem_append.mp hn with hn | hn
  · exact hy hn
  · obtain rfl := List.mem_singleton.mp hn
    cases hc

theorem head?_afterFamily_none {b : Found} (hb : b ∈ familyParts tag)
    (hr : ¬ VersionText u b.rest) : (afterFamily u b).head? = none := by
  obtain ⟨y, c, r, -, -, -, rfl⟩ := mem_familyParts.mp hb
  rw [afterFamily_eq_nil hr, List.head?_nil]

/-- Splitting takes the last version text behind a separator of the first line. -/
theorem splitTagFamily_of_separated (hno : ¬ VersionText u tag) (h : Separated u tag x r)
    (hline : '\n' ∉ x)
    (hlast : ∀ x' r', Separated u tag x' r' → '\n' ∉ x' → x'.length ≤ x.length) :
    ∃ p q, tag = p ++ q ∧ parseSemver u q = parseSemver u r ∧
      splitTagFamily u tag = (parseSemver u r).map fun v => (p, v) := by
  obtain ⟨a, c, rfl, hc⟩ := h.mark
  obtain ⟨lead, w, hl, hw, rfl⟩ := h.version
  have hmem : (⟨a ++ [c], lead ++ w.text, []⟩ : Found) ∈ familyParts tag :=
    mem_familyParts.mpr ⟨a, c, _, by simpa using h.tag_eq, fun hn => hline (by simp [hn]), hc, rfl⟩
  obtain ⟨l₁, l₂, hparts⟩ := List.append_of_mem hmem
  have hpair : (familyParts tag).Pairwise fun a b => b.text.length < a.text.length :=
    familyParts_pairwise
  rw [hparts, List.pairwise_append] at hpair
  have hlonger : ∀ b ∈ l₁, (afterFamily u b).head? = none := by
    intro b hb
    have hbmem : b ∈ familyParts tag := by
      rw [hparts]
      exact List.mem_append_left _ hb
    refine head?_afterFamily_none hbmem fun hr => ?_
    obtain ⟨hsep, hb'⟩ := separated_of_mem hbmem hr
    exact absurd (hpair.2.2 b hb _ List.mem_cons_self) (Nat.not_lt.mpr (hlast _ _ hsep hb'))
  have hmatch : matchStart (familyRe u) tag = some ⟨a ++ [c] ++ (lead ++ w.text), [],
      [("2", w.text), ("1", a ++ [c] ++ lead)]⟩ := by
    rw [matchStart_familyRe, afterFamily_eq_nil hno, List.head?_nil, Option.none_or, hparts,
      List.findSome?_append, List.findSome?_eq_none_iff.mpr hlonger, Option.none_or,
      List.findSome?_cons, head?_afterFamily hl hw]
  rw [h.tag_eq] at hmatch ⊢
  exact splitTagFamily_of_match hl hw hmatch

theorem splitTagFamily_of_not_separated (hno : ¬ VersionText u tag)
    (h : ∀ x r, Separated u tag x r → '\n' ∈ x) : splitTagFamily u tag = none := by
  have hnone : matchStart (familyRe u) tag = none := by
    rw [matchStart_familyRe, afterFamily_eq_nil hno, List.head?_nil, Option.none_or,
      List.findSome?_eq_none_iff]
    intro b hb
    refine head?_afterFamily_none hb fun hr => ?_
    obtain ⟨hsep, hline⟩ := separated_of_mem hb hr
    exact hline (h _ _ hsep)
  rw [splitTagFamily, hnone]
  rfl

/-! ### The text that is read -/

/-- A version text whose numbers fit in 64 bits. -/
def Numbered (u : CharTables) (r : Text) : Prop :=
  ∃ lead, ∃ w : Spelling, (lead = ['v'] ∨ lead = []) ∧ w.Valid u ∧ r = lead ++ w.text ∧
    w.value.isSome

/-- Splitting reads the tag, or the last version text of its first line. -/
def SplitReads (u : CharTables) (tag r : Text) : Prop :=
  VersionText u tag ∧ tag = r ∨
    ¬ VersionText u tag ∧ ∃ x, Separated u tag x r ∧ '\n' ∉ x ∧
      ∀ x' r', Separated u tag x' r' → '\n' ∉ x' → x'.length ≤ x.length

/-- Parsing reads the tag, or its first version text. -/
def ParseReads (u : CharTables) (tag r : Text) : Prop :=
  Numbered u tag ∧ tag = r ∨
    ¬ Numbered u tag ∧ ∃ x, Separated u tag x r ∧
      ∀ x' r', Separated u tag x' r' → x.length ≤ x'.length

theorem numbered_iff : Numbered u r ↔ ∃ v, parseSemver u r = some v := by
  constructor
  · rintro ⟨lead, w, hl, hw, rfl, hv⟩
    obtain ⟨v, hv⟩ := Option.isSome_iff_exists.mp hv
    exact ⟨v, by rw [parseSemver_spelling hl hw, hv]⟩
  · rintro ⟨v, hv⟩
    obtain ⟨lead, w, hl, hw, rfl, hvalue⟩ := parseSemver_eq_some.mp hv
    exact ⟨lead, w, hl, hw, rfl, Option.isSome_of_eq_some hvalue⟩

theorem Numbered.versionText (h : Numbered u r) : VersionText u r := by
  obtain ⟨lead, w, hl, hw, rfl, -⟩ := h
  exact ⟨lead, w, hl, hw, rfl⟩

theorem parse_none_of_not_numbered (h : ¬ Numbered u r) : parseSemver u r = none :=
  Option.eq_none_iff_forall_ne_some.mpr fun v hv => h (numbered_iff.mpr ⟨v, hv⟩)

theorem SplitReads.split (h : SplitReads u tag r) :
    ∃ p q, tag = p ++ q ∧ parseSemver u q = parseSemver u r ∧
      splitTagFamily u tag = (parseSemver u r).map fun v => (p, v) := by
  rcases h with ⟨hv, rfl⟩ | ⟨hno, x, hsep, hline, hlast⟩
  · exact splitTagFamily_of_version hv
  · exact splitTagFamily_of_separated hno hsep hline hlast

theorem ParseReads.parse (h : ParseReads u tag r) : parseSemverTag u tag = parseSemver u r := by
  rcases h with ⟨hv, rfl⟩ | ⟨hno, x, hsep, hfirst⟩
  · obtain ⟨v, hv⟩ := numbered_iff.mp hv
    rw [parseSemverTag, hv]
  · exact parseSemverTag_of_separated (parse_none_of_not_numbered hno) hsep hfirst

theorem finite_places (u : CharTables) (tag : Text) : {x | ∃ r, Separated u tag x r}.Finite :=
  (List.finite_toSet tag.inits).subset fun _ ⟨r, h⟩ => List.mem_inits _ _ |>.mpr ⟨r, h.tag_eq.symm⟩

theorem exists_splitReads {a : Text × SemVer} (h : splitTagFamily u tag = some a) :
    ∃ r, SplitReads u tag r := by
  by_cases hv : VersionText u tag
  · exact ⟨tag, .inl ⟨hv, rfl⟩⟩
  · have hsome : {x | (∃ r, Separated u tag x r) ∧ '\n' ∉ x}.Nonempty := by
      by_contra hnone
      rw [splitTagFamily_of_not_separated hv] at h
      · cases h
      · intro x r hsep
        by_contra hx
        exact hnone ⟨x, ⟨r, hsep⟩, hx⟩
    obtain ⟨x, ⟨⟨r, hsep⟩, hline⟩, hmax⟩ := Set.exists_max_image _ List.length
      ((finite_places u tag).subset fun _ hx => hx.1) hsome
    exact ⟨r, .inr ⟨hv, x, hsep, hline, fun x' r' hsep' hline' => hmax x' ⟨⟨r', hsep'⟩, hline'⟩⟩⟩

theorem exists_parseReads (h : parseSemverTag u tag = some v) : ∃ r, ParseReads u tag r := by
  by_cases hv : Numbered u tag
  · exact ⟨tag, .inl ⟨hv, rfl⟩⟩
  · have hsome : {x | ∃ r, Separated u tag x r}.Nonempty := by
      by_contra hnone
      rw [parseSemverTag_of_not_separated (parse_none_of_not_numbered hv)] at h
      · cases h
      · exact fun x r hsep => hnone ⟨x, r, hsep⟩
    obtain ⟨x, ⟨r, hsep⟩, hmin⟩ := Set.exists_min_image _ List.length (finite_places u tag) hsome
    exact ⟨r, .inr ⟨hv, x, hsep, fun x' r' hsep' => hmin x' ⟨r', hsep'⟩⟩⟩

/-- In front of its prerelease, a version text has no separator. -/
theorem text_of_parse (h : parseSemver u r = some v) :
    ∃ a : Text, (∀ c ∈ a, isSeparator c = false) ∧ r = a ++ (SemVer.suffix '-' v.prerelease ++ SemVer.suffix '+' v.buildMetadata) := by
  obtain ⟨lead, w, hl, hw, rfl, hvalue⟩ := parseSemver_eq_some.mp h
  obtain ⟨hpre, hbuild⟩ := Spelling.value_parts hvalue
  have hdigit : ∀ c, u.digit c → isSeparator c = false := by
    intro c hc
    by_contra hsep
    simp only [isSeparator, Bool.not_eq_false, Bool.or_eq_true, beq_iff_eq] at hsep
    rcases hsep with (rfl | rfl) | rfl
    all_goals exact absurd hc (by rw [CharTables.not_digit u (by decide) (by decide)]; decide)
  refine ⟨lead ++ w.major ++ '.' :: (w.minor ++ '.' :: w.patch), ?_, ?_⟩
  · intro c hc
    simp only [List.mem_append, List.mem_cons] at hc
    rcases hc with (hc | hc) | rfl | hc | rfl | hc
    · rcases hl with rfl | rfl
      · obtain rfl := List.mem_singleton.mp hc
        rfl
      · cases hc
    · exact hdigit c (hw.major.2 c hc)
    · rfl
    · exact hdigit c (hw.minor.2 c hc)
    · rfl
    · exact hdigit c (hw.patch.2 c hc)
  · simp [Spelling.text, hpre, hbuild]

/-- Two version texts of one tag that stand for the same version are the same text. -/
theorem separated_unique {x' r' : Text} (h : Separated u tag x r) (h' : Separated u tag x' r')
    (hv : parseSemver u r = some v) (hv' : parseSemver u r' = some v)
    (hle : x.length ≤ x'.length) : r = r' := by
  obtain ⟨y, rfl, rfl⟩ : ∃ y, x' = x ++ y ∧ r = y ++ r' := by
    rcases List.append_eq_append_iff.mp (h.tag_eq.symm.trans h'.tag_eq) with
      ⟨y, hx, hr⟩ | ⟨y, hx, hr⟩
    · exact ⟨y, hx, hr⟩
    · obtain rfl : y = [] := by
        apply List.eq_nil_of_length_eq_zero
        have := congrArg List.length hx
        simp only [List.length_append] at this
        omega
      exact ⟨[], by simpa using hx.symm, by simpa using hr.symm⟩
  rcases List.eq_nil_or_concat y with rfl | ⟨y, c, rfl⟩
  · rfl
  · obtain ⟨b, c', hx, hc⟩ := h'.mark
    rw [List.concat_eq_append, ← List.append_assoc] at hx
    obtain ⟨-, hcc⟩ := List.append_inj' hx rfl
    obtain rfl : c = c' := (List.cons.inj hcc).1
    obtain ⟨a, ha, hr⟩ := text_of_parse hv
    obtain ⟨a', -, rfl⟩ := text_of_parse hv'
    rw [← List.append_assoc] at hr
    have hmem : c ∈ a := by
      rw [← List.append_cancel_right hr]
      simp
    rw [ha c hmem] at hc
    cases hc

/-! ### One version -/

/-- Splitting and parsing find the same version, and splitting cuts the tag in front of it. -/
structure OneVersion (u : CharTables) (tag : Text) : Prop where
  parse_of_split : ∀ p v, splitTagFamily u tag = some (p, v) →
    parseSemverTag u tag = some v ∧ ∃ r, tag = p ++ r ∧ parseSemver u r = some v
  split_of_parse : ∀ v, parseSemverTag u tag = some v → ∃ p, splitTagFamily u tag = some (p, v)

theorem oneVersion_of_reads
    (h : ∀ r, Numbered u r → (SplitReads u tag r ↔ ParseReads u tag r)) : OneVersion u tag := by
  refine ⟨fun p v hsplit => ?_, fun v hparse => ?_⟩
  · obtain ⟨r, hr⟩ := exists_splitReads hsplit
    obtain ⟨p', q, htag, hq, heq⟩ := hr.split
    rw [hsplit, eq_comm, Option.map_eq_some_iff] at heq
    obtain ⟨v', hv, hpv⟩ := heq
    obtain ⟨rfl, rfl⟩ := Prod.mk.inj hpv
    refine ⟨?_, q, htag, hq.trans hv⟩
    rw [((h r (numbered_iff.mpr ⟨_, hv⟩)).mp hr).parse, hv]
  · obtain ⟨r, hr⟩ := exists_parseReads hparse
    have hv := hr.parse.symm.trans hparse
    obtain ⟨p, -, -, -, heq⟩ := ((h r (numbered_iff.mpr ⟨_, hv⟩)).mpr hr).split
    exact ⟨p, by rw [heq, hv, Option.map_some]⟩

/-- What the two read, where it stands for the same version, is the same text. -/
theorem reads_unique {r' : Text} (h : SplitReads u tag r) (h' : ParseReads u tag r')
    (hv : parseSemver u r = some v) (hv' : parseSemver u r' = some v) : r = r' := by
  rcases h with ⟨htext, rfl⟩ | ⟨hno, x, hsep, -, -⟩
  · rcases h' with ⟨-, heq⟩ | ⟨hno, -⟩
    · exact heq
    · exact absurd (numbered_iff.mpr ⟨v, hv⟩) hno
  · rcases h' with ⟨hnum, -⟩ | ⟨-, x', hsep', hfirst⟩
    · exact absurd hnum.versionText hno
    · exact (separated_unique hsep' hsep hv' hv (hfirst x r hsep)).symm

theorem reads_of_oneVersion (h : OneVersion u tag) (hr : Numbered u r) :
    SplitReads u tag r ↔ ParseReads u tag r := by
  obtain ⟨v, hv⟩ := numbered_iff.mp hr
  constructor
  · intro hs
    obtain ⟨p, -, -, -, heq⟩ := hs.split
    rw [hv, Option.map_some] at heq
    have hparse := (h.parse_of_split p v heq).1
    obtain ⟨r', hr'⟩ := exists_parseReads hparse
    rwa [reads_unique hs hr' hv (hr'.parse.symm.trans hparse)]
  · intro hp
    obtain ⟨p, hsplit⟩ := h.split_of_parse v (hp.parse.trans hv)
    obtain ⟨r', hr'⟩ := exists_splitReads hsplit
    obtain ⟨p', -, -, -, heq⟩ := hr'.split
    rw [hsplit, eq_comm, Option.map_eq_some_iff] at heq
    obtain ⟨v', hv', hpv⟩ := heq
    obtain ⟨rfl, rfl⟩ := Prod.mk.inj hpv
    rwa [← reads_unique hr' hp hv' hv]

/-- A tag has one version exactly when both read the same text, or neither reads one whose
numbers fit. The text of a version parses to the version. -/
theorem oneVersion_iff_reads (u : CharTables) :
    (∀ tag, OneVersion u tag ↔
      ∀ r, Numbered u r → (SplitReads u tag r ↔ ParseReads u tag r)) ∧
    ∀ s v, parseSemver u s = some v → parseSemver u v.versionString = some v :=
  ⟨fun _ => ⟨fun h _ hr => reads_of_oneVersion h hr, oneVersion_of_reads⟩,
    fun _ _ hv => (readable_of_parse hv).parse⟩

/-- Splitting takes the last of two versions in a tag, and parsing the first. -/
theorem two_versions_in_a_tag : ¬ OneVersion .ascii "a-1.2.3-4.5.6".toList := by
  have hsplit : (splitTagFamily .ascii "a-1.2.3-4.5.6".toList).map Prod.snd =
      some ⟨4, 5, 6, none, none⟩ := by decide +kernel
  have hparse : parseSemverTag .ascii "a-1.2.3-4.5.6".toList =
      some ⟨1, 2, 3, some "4.5.6".toList, none⟩ := by decide +kernel
  intro h
  obtain ⟨p, hp⟩ := h.split_of_parse _ hparse
  rw [hp] at hsplit
  cases hsplit

end Anodizer.Git
