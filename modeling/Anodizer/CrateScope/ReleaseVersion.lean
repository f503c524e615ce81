import Anodizer.Git.TagSplit
import Anodizer.Tag.PerCrateTags
import Anodizer.Tag.ReleaseMessages
import Anodizer.Template.ShellGuard

/-! # Versions that may be released

A version is refused if it is empty, if it is the version that stands for a
missing one, or if it carries the mark of a snapshot or of a dirty tree. The
text of a parsed version is refused for its numbers or for what follows them.
-/

namespace Anodizer.CrateScope

open Template (Text CharTables isWhitespace)
open Git

/-- `0.0.0`, alone or in front of a suffix. -/
def isZeroSentinel (v : Text) : Bool :=
  match "0.0.0".toList.isPrefixOf? v with
  | none => false
  | some [] => true
  | some (c :: _) => c == '-' || c == '+' || c == '~'

def toAsciiLowercase (s : Text) : Text := s.map Char.toLower

/-- Why a version may not be released. -/
def nonReleaseReason (version : Text) : Option Text :=
  let v := Template.trim version
  if v = [] then some "no version resolved (empty)".toList
  else if isZeroSentinel v then some "0.0.0 missing-version sentinel".toList
  else
    let lower := toAsciiLowercase v
    if Template.contains lower "snapshot".toList then some "snapshot marker".toList
    else if Template.contains lower "dirty".toList then some "git-dirty marker".toList
    else none

def isReleaseVersion (version : Text) : Bool := (nonReleaseReason version).isNone

/-! ### Markers -/

section Infix

variable {α : Type*} {m a b : List α}

/-- What shares no element with a list does not reach into it. -/
theorem infix_append_left (hm : m ≠ []) (h : ∀ c ∈ a, c ∉ m) : m <:+: a ++ b ↔ m <:+: b := by
  induction a with
  | nil => rfl
  | cons d a ih =>
    rw [List.cons_append, List.infix_cons_iff, ih fun c hc => h c (List.mem_cons_of_mem _ hc)]
    refine or_iff_right ?_
    intro hpre
    obtain ⟨e, m', rfl⟩ := List.exists_cons_of_ne_nil hm
    obtain rfl := (List.cons_prefix_cons.mp hpre).1
    exact h e List.mem_cons_self List.mem_cons_self

theorem infix_append_right (hm : m ≠ []) (h : ∀ c ∈ b, c ∉ m) : m <:+: a ++ b ↔ m <:+: a := by
  have hm' : m.reverse ≠ [] := by simpa using hm
  have h' : ∀ c ∈ b.reverse, c ∉ m.reverse := by simpa using h
  rw [← List.reverse_infix, List.reverse_append, infix_append_left hm' h', List.reverse_infix]

end Infix

def markers : List Text := ["snapshot", "dirty"].map String.toList

/-- The text carries the mark of a snapshot or of a dirty tree, in any case. -/
def Marked (s : Text) : Prop := ∃ m ∈ markers, m <:+: toAsciiLowercase s

variable {u : CharTables} {s t a b : Text} {v : SemVer} {tag : Text}

theorem toLower_notMem {c : Char} (hc : c.isAlpha = false) : ∀ m ∈ markers, c.toLower ∉ m := by
  intro m hm hmem
  have halpha : ∀ m ∈ markers, ∀ d ∈ m, d.isAlpha = true := by simp [markers]
  have htrue := halpha m hm _ hmem
  rw [Char.isAlpha_toLower_eq_isAlpha, hc] at htrue
  exact Bool.false_ne_true htrue

/-- A mark is a word of letters, so it does not reach out of the text between others. -/
theorem marked_append (ha : ∀ c ∈ a, c.isAlpha = false) (hb : ∀ c ∈ b, c.isAlpha = false) :
    Marked (a ++ s ++ b) ↔ Marked s := by
  refine exists_congr fun m => and_congr_right fun hm => ?_
  have hne : m ≠ [] := by
    have hall : ∀ m ∈ markers, m ≠ [] := by decide
    exact hall m hm
  have hlower : ∀ {l : Text}, (∀ c ∈ l, c.isAlpha = false) → ∀ c ∈ toAsciiLowercase l, c ∉ m := by
    intro l hl c hc
    obtain ⟨d, hd, rfl⟩ := List.mem_map.mp hc
    exact toLower_notMem (hl d hd) m hm
  have hmap : toAsciiLowercase (a ++ s ++ b) =
      toAsciiLowercase a ++ toAsciiLowercase s ++ toAsciiLowercase b := by
    simp only [toAsciiLowercase, List.map_append]
  rw [hmap, infix_append_right hne (hlower hb), infix_append_left hne (hlower ha)]

theorem Marked.mono (h : Marked s) (hst : s <:+: t) : Marked t := by
  obtain ⟨m, hm, hin⟩ := h
  exact ⟨m, hm, hin.trans (hst.map _)⟩

theorem isAlpha_of_isWhitespace {c : Char} (hc : isWhitespace c) : c.isAlpha = false := by
  have hval : c.val.toNat = c.toNat := rfl
  simp only [isWhitespace, Bool.or_eq_true, Bool.and_eq_true, decide_eq_true_eq, beq_iff_eq] at hc
  simp only [Char.isAlpha, Char.isUpper, Char.isLower, Bool.or_eq_false_iff, Bool.and_eq_false_iff,
    decide_eq_false_iff_not, UInt32.le_iff_toNat_le, hval]
  have h₁ : ('A'.val.toNat : ℕ) = 65 := rfl
  have h₂ : ('Z'.val.toNat : ℕ) = 90 := rfl
  have h₃ : ('a'.val.toNat : ℕ) = 97 := rfl
  have h₄ : ('z'.val.toNat : ℕ) = 122 := rfl
  omega

/-- What is trimmed off is whitespace. -/
theorem exists_trim (s : Text) : ∃ a b, s = a ++ Template.trim s ++ b ∧
    (∀ c ∈ a, isWhitespace c) ∧ ∀ c ∈ b, isWhitespace c := by
  refine ⟨s.takeWhile isWhitespace, (s.dropWhile isWhitespace).rtakeWhile isWhitespace, ?_,
    fun c hc => List.mem_takeWhile_imp hc, fun c hc => List.mem_rtakeWhile_imp hc⟩
  rw [Tag.trim_eq, List.append_assoc, List.rdropWhile_append_rtakeWhile,
    List.takeWhile_append_dropWhile]

theorem marked_trim : Marked (Template.trim s) ↔ Marked s := by
  obtain ⟨a, b, hs, ha, hb⟩ := exists_trim s
  have happend := marked_append (s := Template.trim s) (fun c hc => isAlpha_of_isWhitespace (ha c hc))
    fun c hc => isAlpha_of_isWhitespace (hb c hc)
  rw [← happend, ← hs]

theorem isReleaseVersion_iff : isReleaseVersion s ↔
    Template.trim s ≠ [] ∧ isZeroSentinel (Template.trim s) = false ∧ ¬Marked s := by
  have hmarked : Marked s ↔
      Template.contains (toAsciiLowercase (Template.trim s)) "snapshot".toList ∨
        Template.contains (toAsciiLowercase (Template.trim s)) "dirty".toList := by
    rw [← marked_trim, Template.contains_iff_mem, Template.contains_iff_mem]
    simp [Marked, markers]
  rw [hmarked, isReleaseVersion, nonReleaseReason]
  dsimp only
  split
  · next hempty => exact iff_of_false Bool.false_ne_true fun h => h.1 hempty
  split
  · next hzero => exact iff_of_false Bool.false_ne_true fun h => Bool.false_ne_true (h.2.1 ▸ hzero)
  split
  · next hsnapshot => exact iff_of_false Bool.false_ne_true fun h => h.2.2 (.inl hsnapshot)
  split
  · next hdirty => exact iff_of_false Bool.false_ne_true fun h => h.2.2 (.inr hdirty)
  · next hempty hzero hsnapshot hdirty =>
    exact iff_of_true rfl ⟨hempty, Bool.not_eq_true _ ▸ hzero, not_or.mpr ⟨hsnapshot, hdirty⟩⟩

/-! ### Parsed versions -/

/-- The version that stands for a missing one, whatever follows its numbers. -/
def IsZero (v : SemVer) : Prop := v.major = 0 ∧ v.minor = 0 ∧ v.patch = 0

/-- What follows the numbers of a version. -/
def suffixText (v : SemVer) : Text :=
  SemVer.suffix '-' v.prerelease ++ SemVer.suffix '+' v.buildMetadata

theorem versionString_eq (v : SemVer) : v.versionString = v.rawVersionString ++ suffixText v :=
  List.append_assoc _ _ _

theorem isZeroSentinel_append (r : Text) : isZeroSentinel ("0.0.0".toList ++ r) ↔
    ∀ c ∈ r.head?, c = '-' ∨ c = '+' ∨ c = '~' := by
  rw [isZeroSentinel, List.isPrefixOf?_eq_some_iff_append_eq.mpr rfl]
  cases r with
  | nil => simp
  | cons c r => simp [or_assoc]

theorem exists_of_isZeroSentinel (h : isZeroSentinel s) : ∃ r, s = "0.0.0".toList ++ r := by
  cases hprefix : "0.0.0".toList.isPrefixOf? s with
  | none =>
    rw [isZeroSentinel, hprefix] at h
    exact absurd h Bool.false_ne_true
  | some r => exact ⟨r, (List.isPrefixOf?_eq_some_iff_append_eq.mp hprefix).symm⟩

theorem isDigit_apart {c : Char} (h : c.isDigit) : c.isAlpha = false ∧ isWhitespace c = false := by
  have hval : c.val.toNat = c.toNat := rfl
  simp only [Char.isDigit, Bool.and_eq_true, decide_eq_true_eq, ge_iff_le,
    UInt32.le_iff_toNat_le, hval] at h
  have h₀ : ('0'.val.toNat : ℕ) = 48 := rfl
  have h₉ : ('9'.val.toNat : ℕ) = 57 := rfl
  constructor
  · cases halpha : c.isAlpha with
    | false => rfl
    | true =>
      have h₁ : ('A'.val.toNat : ℕ) = 65 := rfl
      have h₃ : ('a'.val.toNat : ℕ) = 97 := rfl
      simp only [Char.isAlpha, Char.isUpper, Char.isLower, Bool.or_eq_true, Bool.and_eq_true,
        decide_eq_true_eq, ge_iff_le, UInt32.le_iff_toNat_le, hval] at halpha
      omega
  · cases hspace : isWhitespace c with
    | false => rfl
    | true =>
      simp only [isWhitespace, Bool.or_eq_true, Bool.and_eq_true, decide_eq_true_eq,
        beq_iff_eq] at hspace
      omega

/-- The numbers of a version have neither letters nor whitespace. -/
theorem rawVersionString_apart {c : Char} (h : c ∈ v.rawVersionString) :
    c.isAlpha = false ∧ isWhitespace c = false := by
  have hcases : c.isDigit ∨ c = '.' := by
    simp only [SemVer.rawVersionString, List.mem_append, List.mem_cons] at h
    rcases h with h | h | h | h | h
    · exact .inl (isDigit_toDigits h)
    · exact .inr h
    · exact .inl (isDigit_toDigits h)
    · exact .inr h
    · exact .inl (isDigit_toDigits h)
  rcases hcases with h | rfl
  · exact isDigit_apart h
  · exact ⟨rfl, rfl⟩

theorem trim_append {r : Text} (hne : r ≠ []) (hr : ∀ c ∈ r, isWhitespace c = false) :
    Template.trim (r ++ s) = r ++ s.rdropWhile isWhitespace := by
  obtain rfl | ⟨r, d, rfl⟩ := List.eq_nil_or_concat r
  · exact absurd rfl hne
  rw [List.concat_eq_append] at hr ⊢
  have hd : isWhitespace d = false := hr d (by simp)
  have hdrop : r.dropWhile isWhitespace = r := by
    refine List.dropWhile_eq_self_iff.mpr fun hpos => ?_
    simp [hr _ (List.mem_append_left _ (List.getElem_mem hpos))]
  rw [List.append_assoc, List.singleton_append, Tag.trim_append_cons hd, hdrop, List.append_assoc,
    List.singleton_append]

theorem rawVersionString_ne_nil : v.rawVersionString ≠ [] := by simp [SemVer.rawVersionString]

theorem trim_versionString (v : SemVer) : Template.trim v.versionString =
    v.rawVersionString ++ (suffixText v).rdropWhile isWhitespace := by
  rw [versionString_eq]
  exact trim_append rawVersionString_ne_nil fun c hc => (rawVersionString_apart hc).2

theorem head_suffixText {c : Char} (h : c ∈ ((suffixText v).rdropWhile isWhitespace).head?) :
    c = '-' ∨ c = '+' := by
  obtain ⟨r, hr⟩ := List.rdropWhile_prefix isWhitespace (l := suffixText v)
  have hhead : c ∈ (suffixText v).head? := by
    rw [← hr, List.head?_append, Option.mem_def.mp h]
    rfl
  cases hpre : v.prerelease with
  | none =>
    rw [suffixText, hpre] at hhead
    exact .inr (Spelling.head_suffix hhead)
  | some t =>
    rw [suffixText, hpre] at hhead
    exact .inl (Spelling.head_suffix (o := some t) hhead)

theorem toDigits_eq_zero {n : ℕ} : Nat.toDigits 10 n = ['0'] ↔ n = 0 := by
  constructor
  · intro h
    have hvalue := Nat.ofDigitChars_ten_toDigits (n := n)
    rw [h] at hvalue
    exact hvalue.symm
  · rintro rfl
    rfl

/-- The text of a version is the sentinel exactly for the zero version. -/
theorem isZeroSentinel_trim (v : SemVer) :
    isZeroSentinel (Template.trim v.versionString) ↔ IsZero v := by
  rw [trim_versionString]
  constructor
  · intro h
    obtain ⟨r, hr⟩ := exists_of_isZeroSentinel h
    rw [hr, isZeroSentinel_append] at h
    have hnumber : ∀ n, Spelling.IsNumber CharTables.ascii (Nat.toDigits 10 n) :=
      isNumber_toDigits _
    have hzero : Spelling.IsNumber CharTables.ascii ['0'] := isNumber_toDigits _ 0
    have hmark : ∀ d : Char, d = '-' ∨ d = '+' ∨ d = '~' → CharTables.ascii.digit d = false := by
      rintro d (rfl | rfl | rfl) <;> exact CharTables.not_digit _ (by decide) (by decide)
    have hr' : Nat.toDigits 10 v.major ++ '.' :: (Nat.toDigits 10 v.minor ++
        '.' :: (Nat.toDigits 10 v.patch ++ (suffixText v).rdropWhile isWhitespace)) =
        ['0'] ++ '.' :: (['0'] ++ '.' :: (['0'] ++ r)) := by
      simpa [SemVer.rawVersionString] using hr
    obtain ⟨hmajor, hminor, hpatch, -⟩ := Spelling.numbers_unique (hnumber _) (hnumber _)
      (hnumber _) hzero hzero hzero
      (fun d hd => hmark d ((head_suffixText hd).imp_right .inl)) (fun d hd => hmark d (h d hd)) hr'
    exact ⟨toDigits_eq_zero.mp hmajor, toDigits_eq_zero.mp hminor, toDigits_eq_zero.mp hpatch⟩
  · rintro ⟨hmajor, hminor, hpatch⟩
    have hraw : v.rawVersionString = "0.0.0".toList := by
      rw [SemVer.rawVersionString, hmajor, hminor, hpatch]
      rfl
    rw [hraw, isZeroSentinel_append]
    exact fun c hc => (head_suffixText hc).imp_right .inl

theorem isReleaseVersion_versionString (v : SemVer) :
    isReleaseVersion v.versionString ↔ ¬IsZero v ∧ ¬Marked (suffixText v) := by
  have hmarked : Marked v.versionString ↔ Marked (suffixText v) := by
    have happend := marked_append (s := suffixText v) (b := [])
      (fun c hc => (rawVersionString_apart (v := v) hc).1) (by simp)
    rwa [List.append_nil, ← versionString_eq] at happend
  have hne : Template.trim v.versionString ≠ [] := by
    rw [trim_versionString]
    exact List.append_ne_nil_of_left_ne_nil rawVersionString_ne_nil _
  rw [isReleaseVersion_iff, hmarked, ← isZeroSentinel_trim, Bool.not_eq_true]
  exact and_iff_right hne

/-- What follows the numbers of a version stands at the end of its tag. -/
theorem suffixText_suffix (h : parseSemverTag u tag = some v) : suffixText v <:+ tag := by
  obtain ⟨r, hr⟩ := exists_parseReads h
  obtain ⟨a, -, hra⟩ := text_of_parse (hr.parse ▸ h)
  have hsuffix : suffixText v <:+ r := ⟨a, hra.symm⟩
  rcases hr with ⟨-, rfl⟩ | ⟨-, x, hsep, -⟩
  · exact hsuffix
  · rw [hsep.tag_eq]
    exact hsuffix.trans (List.suffix_append _ _)

end Anodizer.CrateScope
