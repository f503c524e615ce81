import Anodizer.Git.Spelling
import Anodizer.Lib.Lines

/-! # The precedence of versions

The specification orders identifiers of digits by their number, however long. The code
reads numbers below 2 ^ 64 only, and orders longer ones as texts. It finds no difference
between two spellings of one number, which equality tells apart.
-/

namespace Anodizer.Git

open Template (Text CharTables)

variable {u : CharTables} {a b : Text} {as bs : List Text}

namespace SemVer

/-- Equality leaves the build metadata out. -/
protected def eq (v w : SemVer) : Bool :=
  v.major == w.major && v.minor == w.minor && v.patch == w.patch &&
    decide (v.prerelease = w.prerelease)

end SemVer

/-! ### The specification -/

namespace Spec

/-- The number an identifier of digits stands for. -/
def number (a : Text) : Option ℕ :=
  if a ≠ [] ∧ a.all Char.isDigit then some (Nat.ofDigitChars 10 a 0) else none

/-- Numbers come first, by their value, and then the texts that are no numbers. -/
def orderBy (number : Text → Option ℕ) (a b : Text) : Ordering :=
  match number a, number b with
  | some m, some n => cmp m n
  | some _, none => .lt
  | none, some _ => .gt
  | none, none => cmp a b

def identifier (a b : Text) : Ordering := orderBy number a b

/-- The first two identifiers that differ decide, else the longer list is higher. -/
def identifiers : List Text → List Text → Ordering
  | [], [] => .eq
  | [], _ :: _ => .lt
  | _ :: _, [] => .gt
  | a :: as, b :: bs => (identifier a b).then (identifiers as bs)

def prerelease : Option Text → Option Text → Ordering
  | some _, none => .lt
  | none, some _ => .gt
  | some a, some b => identifiers (a.splitOn '.') (b.splitOn '.')
  | none, none => .eq

def precedence (v w : SemVer) : Ordering :=
  (cmp v.major w.major).then <| (cmp v.minor w.minor).then <| (cmp v.patch w.patch).then <|
    prerelease v.prerelease w.prerelease

end Spec

/-! ### Identifiers -/

def Small (a : Text) : Prop := ∃ n < 2 ^ 64, Spec.number a = some n

def Large (a : Text) : Prop := ∃ n, 2 ^ 64 ≤ n ∧ Spec.number a = some n

/-- The identifiers are different, and the code orders them as texts though one is a number. -/
def OrderedAsTexts (a b : Text) : Prop := Large a ∧ ¬ Small b ∨ Large b ∧ ¬ Small a

/-- The code and the specification find the same difference between two lists of
identifiers. -/
def ToldApart : List Text → List Text → Prop
  | [], [] => False
  | [], _ :: _ => True
  | _ :: _, [] => True
  | a :: as, b :: bs =>
    a = b ∧ ToldApart as bs ∨
    a ≠ b ∧ OrderedAsTexts a b ∧ cmp a b = (Spec.identifier a b).then (Spec.identifiers as bs) ∨
    a ≠ b ∧ ¬ OrderedAsTexts a b ∧ (Spec.number a = none ∨ Spec.number a ≠ Spec.number b ∨
      ToldApart as bs)

theorem parseU64_of_no_plus (h : '+' ∉ a) :
    parseU64 a = (Spec.number a).filter (· < 2 ^ 64) := by
  have hplus : a.head? ≠ some '+' := fun hc => h (List.mem_of_mem_head? hc)
  simp only [parseU64, if_neg hplus, Spec.number]
  by_cases hdigits : a ≠ [] ∧ a.all Char.isDigit
  · simp [hdigits, Option.filter]
  · rw [if_neg hdigits, if_neg fun hall => hdigits ⟨hall.1, hall.2.1⟩]
    rfl

theorem number_cases (a : Text) : Small a ∨ Large a ∨ Spec.number a = none := by
  cases h : Spec.number a with
  | none => exact .inr (.inr rfl)
  | some n =>
    rcases Nat.lt_or_ge n (2 ^ 64) with hlt | hge
    · exact .inl ⟨n, hlt, h⟩
    · exact .inr (.inl ⟨n, hge, h⟩)

theorem not_small_of_none (h : Spec.number a = none) : ¬ Small a := by
  rintro ⟨n, -, hn⟩
  rw [h] at hn
  cases hn

theorem Small.not_large (h : Small a) : ¬ Large a := by
  obtain ⟨n, hlt, hn⟩ := h
  rintro ⟨m, hge, hm⟩
  obtain rfl := Option.some.inj (hn.symm.trans hm)
  omega

theorem Small.parse (h : Small a) (hplus : '+' ∉ a) : parseU64 a = Spec.number a := by
  obtain ⟨n, hlt, hn⟩ := h
  rw [parseU64_of_no_plus hplus, hn]
  exact if_pos (decide_eq_true hlt)

theorem parse_none_of_not_small (h : ¬ Small a) (hplus : '+' ∉ a) : parseU64 a = none := by
  rw [parseU64_of_no_plus hplus, Option.filter_eq_none_iff]
  intro n hn
  simpa using Nat.le_of_not_lt fun hlt => h ⟨n, hlt, hn⟩

theorem compareIdentifier_eq_orderBy : compareIdentifier a b = Spec.orderBy parseU64 a b := rfl

theorem orderBy_congr {f g : Text → Option ℕ} (ha : f a = g a) (hb : f b = g b) :
    Spec.orderBy f a b = Spec.orderBy g a b := by
  rw [Spec.orderBy, ha, hb, Spec.orderBy]

theorem orderBy_swap (f : Text → Option ℕ) (a b : Text) :
    (Spec.orderBy f a b).swap = Spec.orderBy f b a := by
  unfold Spec.orderBy
  cases f a <;> cases f b
  · exact cmp_swap a b
  · rfl
  · rfl
  · exact cmp_swap _ _

theorem orderBy_self (f : Text → Option ℕ) (a : Text) : Spec.orderBy f a a = .eq := by
  unfold Spec.orderBy
  cases f a with
  | none => exact (SemVer.compares_text a a).eq_eq.mpr rfl
  | some n => exact (cmp_compares n n).eq_eq.mpr rfl

/-- A number below 2 ^ 64 and a larger one are ordered as the specification says. -/
theorem compareIdentifier_of_small_large (ha : Small a) (hb : Large b) (hplus : '+' ∉ a)
    (hplus' : '+' ∉ b) : compareIdentifier a b = Spec.identifier a b := by
  have hnone := parse_none_of_not_small (fun h => h.not_large hb) hplus'
  obtain ⟨m, hm, hma⟩ := ha
  obtain ⟨n, hn, hnb⟩ := hb
  rw [compareIdentifier, Small.parse ⟨m, hm, hma⟩ hplus, hnone, Spec.identifier, Spec.orderBy, hma,
    hnb]
  exact ((cmp_compares m n).eq_lt.mpr (by omega)).symm

theorem compareIdentifier_eq_spec (h : ¬ OrderedAsTexts a b) (ha : '+' ∉ a) (hb : '+' ∉ b) :
    compareIdentifier a b = Spec.identifier a b := by
  have hparse : ∀ {c : Text}, '+' ∉ c → ¬ Large c → parseU64 c = Spec.number c := by
    intro c hc hlarge
    rcases number_cases c with hs | hl | hnone
    · exact hs.parse hc
    · exact absurd hl hlarge
    · rw [parse_none_of_not_small (not_small_of_none hnone) hc, hnone]
  by_cases hla : Large a
  · have hsb : Small b := by
      by_contra hsb
      exact h (.inl ⟨hla, hsb⟩)
    rw [Spec.identifier, ← orderBy_swap, compareIdentifier_eq_orderBy, ← orderBy_swap]
    exact congrArg Ordering.swap (compareIdentifier_of_small_large hsb hla hb ha)
  by_cases hlb : Large b
  · have hsa : Small a := by
      by_contra hsa
      exact h (.inr ⟨hlb, hsa⟩)
    exact compareIdentifier_of_small_large hsa hlb ha hb
  · exact orderBy_congr (hparse ha hla) (hparse hb hlb)

theorem compareIdentifier_asTexts (h : OrderedAsTexts a b) (ha : '+' ∉ a) (hb : '+' ∉ b) :
    compareIdentifier a b = cmp a b := by
  have hnone : parseU64 a = none ∧ parseU64 b = none := by
    rcases h with ⟨hla, hsb⟩ | ⟨hlb, hsa⟩
    · exact ⟨parse_none_of_not_small (fun hs => hs.not_large hla) ha,
        parse_none_of_not_small hsb hb⟩
    · exact ⟨parse_none_of_not_small hsa ha,
        parse_none_of_not_small (fun hs => hs.not_large hlb) hb⟩
  rw [compareIdentifier, hnone.1, hnone.2]

theorem cmp_text_ne_eq (h : a ≠ b) : cmp a b ≠ .eq := fun heq =>
  h ((SemVer.compares_text a b).eq_eq.mp heq)

theorem identifier_eq_eq (h : a ≠ b) :
    Spec.identifier a b = .eq ↔ Spec.number a ≠ none ∧ Spec.number a = Spec.number b := by
  unfold Spec.identifier Spec.orderBy
  cases Spec.number a with
  | none =>
    cases Spec.number b with
    | none => simpa using cmp_text_ne_eq h
    | some n => simp
  | some m =>
    cases Spec.number b with
    | none => simp
    | some n => simp

/-! ### Lists of identifiers -/

theorem then_eq_of_ne {o o' : Ordering} (h : o ≠ .eq) : o.then o' = o := by
  cases o with
  | eq => exact absurd rfl h
  | lt => rfl
  | gt => rfl

/-- The lists are told apart where the code's order is the specification's, and not a tie. -/
theorem toldApart_iff (ha : ∀ a ∈ as, '+' ∉ a) (hb : ∀ b ∈ bs, '+' ∉ b) :
    ToldApart as bs ↔ compareIdentifiers as bs = Spec.identifiers as bs ∧
      Spec.identifiers as bs ≠ .eq := by
  induction as generalizing bs with
  | nil =>
    cases bs with
    | nil => simp [ToldApart, Spec.identifiers]
    | cons b bs =>
      simp [ToldApart, Spec.identifiers, compareIdentifiers]
  | cons a as ih =>
    cases bs with
    | nil =>
      simp [ToldApart, Spec.identifiers, compareIdentifiers]
    | cons b bs =>
      obtain ⟨haa, has⟩ := List.forall_mem_cons.mp ha
      obtain ⟨hbb, hbs⟩ := List.forall_mem_cons.mp hb
      have ih := ih has hbs
      simp only [ToldApart, Spec.identifiers, compareIdentifiers]
      by_cases hab : a = b
      · subst hab
        rw [Spec.identifier, compareIdentifier_eq_orderBy, orderBy_self, orderBy_self]
        simpa using ih
      by_cases htexts : OrderedAsTexts a b
      · have hne := cmp_text_ne_eq hab
        rw [compareIdentifier_asTexts htexts haa hbb, then_eq_of_ne hne]
        simp only [hab, htexts, not_false_eq_true, false_and, true_and, not_true_eq_false,
          false_or, or_false, ne_eq]
        exact ⟨fun h => ⟨h, h ▸ hne⟩, And.left⟩
      · rw [compareIdentifier_eq_spec htexts haa hbb]
        simp only [hab, htexts, not_false_eq_true, false_and, true_and, false_or, ne_eq]
        by_cases heq : Spec.identifier a b = .eq
        · obtain ⟨hsome, hnum⟩ := (identifier_eq_eq hab).mp heq
          rw [heq]
          simpa [hsome, hnum, hnum ▸ hsome] using ih
        · have hdiff : Spec.number a = none ∨ ¬ Spec.number a = Spec.number b := by
            by_contra hcon
            obtain ⟨hsome, hnum⟩ := not_or.mp hcon
            exact heq ((identifier_eq_eq hab).mpr ⟨hsome, not_not.mp hnum⟩)
          rw [then_eq_of_ne heq, then_eq_of_ne heq]
          simp only [← or_assoc, hdiff, true_or, true_and, true_iff]
          exact heq

theorem identifiers_self (as : List Text) : Spec.identifiers as as = .eq := by
  induction as with
  | nil => rfl
  | cons a as ih =>
    rw [Spec.identifiers, Spec.identifier, orderBy_self, ih]
    rfl

theorem compareIdentifiers_self (as : List Text) : compareIdentifiers as as = .eq :=
  (SemVer.compareIdentifiers_compares as as).eq_eq.mpr rfl

/-! ### Versions -/

/-- The code and the specification order two versions alike, and equality is a tie. -/
structure OrderedAlike (v w : SemVer) : Prop where
  eq_iff : v.compare w = .eq ↔ v.eq w
  precedence : v.compare w = Spec.precedence v w

def SameRelease (v w : SemVer) : Prop := v.major = w.major ∧ v.minor = w.minor ∧ v.patch = w.patch

/-- The prereleases are the same, or are told apart. -/
def PrereleasesToldApart : Option Text → Option Text → Prop
  | some a, some b => a = b ∨ ToldApart (a.splitOn '.') (b.splitOn '.')
  | _, _ => True

theorem spec_prerelease_self (a : Option Text) : Spec.prerelease a a = .eq := by
  cases a with
  | none => rfl
  | some a => exact identifiers_self _

theorem prereleasesToldApart_iff {a b : Option Text} (ha : ∀ t ∈ a, '+' ∉ t)
    (hb : ∀ t ∈ b, '+' ∉ t) : PrereleasesToldApart a b ↔
      ((SemVer.comparePre a b = .eq ↔ a = b) ∧ SemVer.comparePre a b = Spec.prerelease a b) := by
  cases a with
  | none => cases b <;> simp [PrereleasesToldApart, SemVer.comparePre, Spec.prerelease]
  | some a =>
    cases b with
    | none => simp [PrereleasesToldApart, SemVer.comparePre, Spec.prerelease]
    | some b =>
      have hids : ∀ {t : Text}, '+' ∉ t → ∀ x ∈ t.splitOn '.', '+' ∉ x := fun ht x hx hc =>
        ht (Lines.mem_of_mem_splitOn hx hc)
      rw [PrereleasesToldApart, toldApart_iff (hids (ha a rfl)) (hids (hb b rfl))]
      change _ ↔ (compareIdentifiers _ _ = .eq ↔ some a = some b) ∧
        compareIdentifiers _ _ = Spec.identifiers _ _
      by_cases hab : a = b
      · subst hab
        simp [compareIdentifiers_self, identifiers_self]
      · simp only [hab, Option.some.injEq, false_or, iff_false]
        exact ⟨fun h => ⟨h.1 ▸ h.2, h.1⟩, fun h => ⟨h.2, h.2 ▸ h.1⟩⟩

theorem compare_of_sameRelease {v w : SemVer} (h : SameRelease v w) :
    v.compare w = SemVer.comparePre v.prerelease w.prerelease ∧
      Spec.precedence v w = Spec.prerelease v.prerelease w.prerelease ∧
      (v.eq w ↔ v.prerelease = w.prerelease) := by
  obtain ⟨hmajor, hminor, hpatch⟩ := h
  simp [SemVer.compare, Spec.precedence, SemVer.eq, hmajor, hminor, hpatch]

/-- Versions of different releases are ordered by these. -/
theorem orderedAlike_of_not_sameRelease {v w : SemVer} (h : ¬ SameRelease v w) :
    OrderedAlike v w := by
  have hrelease : ((cmp v.major w.major).then (cmp v.minor w.minor)).then
      (cmp v.patch w.patch) ≠ .eq := by
    simpa [SameRelease, Ordering.then_eq_eq, and_assoc] using h
  have hne : ¬ v.eq w = true := by
    simp only [SemVer.eq, Bool.and_eq_true, beq_iff_eq]
    exact fun heq => h ⟨heq.1.1.1, heq.1.1.2, heq.1.2⟩
  refine ⟨?_, ?_⟩
  · exact iff_of_false (fun heq => hrelease ((then_eq_of_ne hrelease).symm.trans heq)) hne
  · rw [Spec.precedence, ← Ordering.then_assoc, ← Ordering.then_assoc, then_eq_of_ne hrelease]
    exact then_eq_of_ne hrelease

/-- The order of versions is a preorder in which any two are comparable, and it is the order of
the specification where the prereleases of one release are told apart. -/
theorem orderedAlike_iff (u : CharTables) :
    (∀ v : SemVer, v.compare v = .eq) ∧
    (∀ v w : SemVer, w.compare v = (v.compare w).swap) ∧
    (∀ v w x : SemVer, v.compare w ≠ .gt → w.compare x ≠ .gt → v.compare x ≠ .gt) ∧
    ∀ s t v w, parseSemver u s = some v → parseSemver u t = some w →
      (OrderedAlike v w ↔
        (SameRelease v w → PrereleasesToldApart v.prerelease w.prerelease)) := by
  refine ⟨fun v => SemVer.compare_eq_eq.mpr rfl, fun v w => ?_, fun v w x hvw hwx => ?_, ?_⟩
  · exact (SemVer.compare_compares w v).inj (SemVer.compare_compares v w).swap
  · rw [(SemVer.compare_compares v x).ne_gt]
    exact le_trans ((SemVer.compare_compares v w).ne_gt.mp hvw)
      ((SemVer.compare_compares w x).ne_gt.mp hwx)
  · intro s t v w hv hw
    by_cases hrelease : SameRelease v w
    · obtain ⟨hcompare, hspec, heq⟩ := compare_of_sameRelease hrelease
      have hplus : ∀ {s : Text} {v : SemVer}, parseSemver u s = some v →
          ∀ t ∈ v.prerelease, '+' ∉ t := fun h t ht hc =>
        ((readable_of_parse h).prerelease t ht).2 _ hc rfl
      have hiff := prereleasesToldApart_iff (hplus hv) (hplus hw)
      rw [← hcompare, ← hspec, ← heq] at hiff
      exact ⟨fun h _ => hiff.mpr ⟨h.eq_iff, h.precedence⟩,
        fun h => ⟨(hiff.mp (h hrelease)).1, (hiff.mp (h hrelease)).2⟩⟩
    · exact ⟨fun _ h => absurd h hrelease, fun _ => orderedAlike_of_not_sameRelease hrelease⟩

/-- A leading zero makes a tie of two versions that are not equal, and of two numbers of 20 and
21 digits the smaller comes last. -/
theorem order_differs_from_specification :
    (∃ v w, parseSemver .ascii "1.0.0-01".toList = some v ∧
      parseSemver .ascii "1.0.0-1".toList = some w ∧ v.compare w = .eq ∧ v.eq w = false) ∧
    ∃ v w, parseSemver .ascii "1.0.0-99999999999999999999".toList = some v ∧
      parseSemver .ascii "1.0.0-100000000000000000000".toList = some w ∧
      v.compare w = .gt ∧ Spec.precedence v w = .lt :=
  ⟨⟨⟨1, 0, 0, some "01".toList, none⟩, ⟨1, 0, 0, some "1".toList, none⟩, by decide +kernel⟩,
    ⟨⟨1, 0, 0, some "99999999999999999999".toList, none⟩,
      ⟨1, 0, 0, some "100000000000000000000".toList, none⟩, by decide +kernel⟩⟩

end Anodizer.Git
