import Anodizer.Git.TagFamily
import Anodizer.Lib.Wildmatch

/-! # Nightly tags in the two searches

The search by list asks whether a tag is a nightly, and the search by description hands
git five patterns to exclude. The two agree on a tag unless a marker stands before the
last version mark, or in a tag without one that no digit starts.
-/

namespace Anodizer.Git

open Template (Text)
open Wildmatch (Token wildmatch)

/-- The patterns of the tags that `git describe` leaves out. -/
def nightlyExcludeGlobs : List Text :=
  ["nightly".toList, "*v[0-9]*[-.+]nightly".toList, "*v[0-9]*[-.+]nightly[-.+]*".toList,
    "[0-9]*[-.+]nightly".toList, "[0-9]*[-.+]nightly[-.+]*".toList]

/-- A pattern leaves the tag out. -/
def excludedNightly (tag : Text) : Bool := nightlyExcludeGlobs.any (wildmatch · tag)

variable {prev : Option Char} {s t tag r : Text}

/-! ### Markers -/

/-- The marker stands in the text between delimiters, of which the text may be the last. -/
def Marked (s : Text) : Prop :=
  ∃ a d b, d ∈ nightlyDelims ∧ s = a ++ d :: ("nightly".toList ++ b) ∧
    ∀ e ∈ b.head?, e ∈ nightlyDelims

/-- The marker stands in the text, behind a delimiter that may be the character before it. -/
def MarkedFrom (prev : Option Char) (s : Text) : Prop :=
  ∃ a b, s = a ++ ("nightly".toList ++ b) ∧ (∃ d ∈ a.getLast?.or prev, d ∈ nightlyDelims) ∧
    ∀ e ∈ b.head?, e ∈ nightlyDelims

theorem markedFrom_none : MarkedFrom none s ↔ Marked s := by
  constructor
  · rintro ⟨a, b, rfl, ⟨d, hd, hdelim⟩, hb⟩
    rw [Option.or_none] at hd
    obtain ⟨a', rfl⟩ := List.getLast?_eq_some_iff.mp hd
    exact ⟨a', d, b, hdelim, by simp, hb⟩
  · rintro ⟨a, d, b, hdelim, rfl, hb⟩
    exact ⟨a ++ [d], b, by simp, ⟨d, by simp, hdelim⟩, hb⟩

theorem nightlyStep_shrinks : Scan.Shrinks nightlyStep := by
  intro prev c cs
  unfold nightlyStep
  split
  · simp
  · exact le_rfl

theorem getLast?_cons_or {c : Char} {a : Text} :
    (c :: a).getLast?.or prev = a.getLast?.or (some c) := by
  rw [List.getLast?_cons]
  cases a.getLast? <;> rfl

theorem markedFrom_cons {c : Char} (h : ¬ "nightly".toList <+: c :: s) :
    MarkedFrom prev (c :: s) ↔ MarkedFrom (some c) s := by
  constructor
  · rintro ⟨a, b, heq, hd, hb⟩
    cases a with
    | nil => exact absurd ⟨b, heq.symm⟩ h
    | cons c' a =>
      obtain ⟨rfl, rfl⟩ := List.cons.inj heq
      exact ⟨a, b, rfl, getLast?_cons_or ▸ hd, hb⟩
  · rintro ⟨a, b, rfl, hd, hb⟩
    exact ⟨c :: a, b, rfl, getLast?_cons_or ▸ hd, hb⟩

/-- No marker starts within another one. -/
theorem nightly_append_eq {a b : Text} (h : "nightly".toList ++ s = a ++ ("nightly".toList ++ b)) :
    a = [] ∧ s = b ∨ ∃ a', a = "nightly".toList ++ a' ∧ s = a' ++ ("nightly".toList ++ b) := by
  rcases List.append_eq_append_iff.mp h with ⟨a', ha, hs⟩ | ⟨a', ha, hb⟩
  · exact .inr ⟨a', ha, hs⟩
  · by_cases hnil : a = []
    · subst hnil
      exact .inl ⟨rfl, List.append_cancel_left h⟩
    · have hhead : ∀ x y : Text, x ≠ [] → x ++ y = "nightly".toList ++ b → 'n' ∈ x := by
        intro x y hx hxy
        obtain ⟨c, x, rfl⟩ := List.exists_cons_of_ne_nil hx
        obtain ⟨rfl, -⟩ := List.cons.inj hxy
        exact List.mem_cons_self
      by_cases ha' : a' = []
      · subst ha'
        exact .inr ⟨[], by simpa using ha.symm, by simpa using hb.symm⟩
      · -- the letter that starts the marker stands in it only once
        have hcount := congrArg (List.count 'n') ha
        have hone : List.count 'n' "nightly".toList = 1 := by decide
        have hleft : 'n' ∈ a := by
          obtain ⟨c, x, rfl⟩ := List.exists_cons_of_ne_nil hnil
          obtain ⟨rfl, -⟩ := List.cons.inj ha
          exact List.mem_cons_self
        have hright := List.count_pos_iff.mpr (hhead a' s ha' hb.symm)
        have hpos := List.count_pos_iff.mpr hleft
        rw [hone, List.count_append] at hcount
        omega

/-- Behind one marker the next one starts. -/
theorem markedFrom_nightly : MarkedFrom prev ("nightly".toList ++ s) ↔
    ((∃ d ∈ prev, d ∈ nightlyDelims) ∧ ∀ e ∈ s.head?, e ∈ nightlyDelims) ∨
      MarkedFrom (some 'y') s := by
  constructor
  · rintro ⟨a, b, heq, hd, hb⟩
    rcases nightly_append_eq heq with ⟨rfl, rfl⟩ | ⟨a', rfl, rfl⟩
    · exact .inl ⟨hd, hb⟩
    · refine .inr ⟨a', b, rfl, ?_, hb⟩
      rw [List.getLast?_append] at hd
      cases a' using List.reverseRecOn <;> simpa using hd
  · rintro (⟨hd, hb⟩ | ⟨a, b, rfl, hd, hb⟩)
    · exact ⟨[], s, rfl, hd, hb⟩
    · refine ⟨"nightly".toList ++ a, b, by simp, ?_, hb⟩
      rw [List.getLast?_append]
      cases a using List.reverseRecOn <;> simpa using hd

theorem scan_nightlyStep : (Scan.scan nightlyStep prev s).any id ↔ MarkedFrom prev s := by
  induction hn : s.length using Nat.strong_induction_on generalizing s prev with
  | _ n ih =>
    subst hn
    cases s with
    | nil => simp [MarkedFrom]
    | cons c cs =>
      rw [Scan.scan_cons nightlyStep_shrinks, nightlyStep]
      by_cases hpre : "nightly".toList <+: c :: cs
      · obtain ⟨t, ht⟩ := hpre
        have hlt : t.length < (c :: cs).length := by
          rw [← ht, List.length_append]
          exact Nat.lt_add_of_pos_left (by decide)
        rw [if_pos (List.isPrefixOf_iff_prefix.mpr ⟨t, ht⟩), ← ht, markedFrom_nightly,
          ← ih t.length hlt rfl]
        cases t with
        | nil => cases prev <;> simp
        | cons e t => cases prev <;> simp
      · have hno : ¬ "nightly".toList.isPrefixOf (c :: cs) = true :=
          List.isPrefixOf_iff_prefix.not.mpr hpre
        rw [if_neg hno, markedFrom_cons hpre, ← ih cs.length (by simp) rfl]
        rfl

/-! ### Version marks -/

/-- A version mark of the tag, with the version behind it. -/
def VersionMark (tag r : Text) : Prop :=
  r.head?.any Char.isDigit ∧ ∃ a, tag = a ++ 'v' :: r

theorem versionMark_cons {c : Char} {cs : Text} : VersionMark (c :: cs) r ↔
    (c = 'v' ∧ cs.head?.any Char.isDigit) ∧ cs = r ∨ VersionMark cs r := by
  constructor
  · rintro ⟨hdigit, a, ha⟩
    cases a with
    | nil =>
      obtain ⟨rfl, rfl⟩ := List.cons.inj ha
      exact .inl ⟨⟨rfl, hdigit⟩, rfl⟩
    | cons c' a => exact .inr ⟨hdigit, a, (List.cons.inj ha).2⟩
  · rintro (⟨⟨rfl, hdigit⟩, rfl⟩ | ⟨hdigit, a, rfl⟩)
    · exact ⟨hdigit, [], rfl⟩
    · exact ⟨hdigit, c :: a, rfl⟩

theorem afterLastVersionMark_eq_none :
    afterLastVersionMark tag = none ↔ ∀ r, ¬ VersionMark tag r := by
  induction tag with
  | nil => simp [afterLastVersionMark, VersionMark]
  | cons c cs ih =>
    simp only [versionMark_cons, not_or, forall_and, ← ih]
    rw [afterLastVersionMark]
    cases afterLastVersionMark cs with
    | none => simp
    | some r => simp

/-- The version that the scan reads: no version mark is in it. -/
theorem afterLastVersionMark_eq_some : afterLastVersionMark tag = some r ↔
    VersionMark tag r ∧ ∀ r', ¬ VersionMark r r' := by
  induction tag with
  | nil => simp [afterLastVersionMark, VersionMark]
  | cons c cs ih =>
    rw [versionMark_cons, or_and_right, ← ih, afterLastVersionMark]
    cases h : afterLastVersionMark cs with
    | none =>
      have hnone := afterLastVersionMark_eq_none.mp h
      simp only [Option.ite_none_right_eq_some, Option.some.injEq, Bool.and_eq_true,
        decide_eq_true_eq, reduceCtorEq, or_false]
      refine ⟨?_, And.left⟩
      rintro ⟨hmark, rfl⟩
      exact ⟨⟨hmark, rfl⟩, hnone⟩
    | some r' =>
      refine ⟨.inr, ?_⟩
      rintro (⟨⟨-, rfl⟩, hno⟩ | heq)
      · rw [afterLastVersionMark_eq_none.mpr hno] at h
        cases h
      · exact heq

/-- A nightly carries the marker behind its last version mark, or anywhere if it has none. -/
theorem isNightlyTag_iff : isNightlyTag tag ↔ tag = "nightly".toList ∨
    (∃ r, VersionMark tag r ∧ (∀ r', ¬ VersionMark r r') ∧ Marked r) ∨
      (∀ r, ¬ VersionMark tag r) ∧ Marked tag := by
  rw [isNightlyTag, Bool.or_eq_true, decide_eq_true_eq, scan_nightlyStep, markedFrom_none]
  have hlast : ∀ r, (VersionMark tag r ∧ (∀ r', ¬ VersionMark r r') ∧ Marked r) ↔
      afterLastVersionMark tag = some r ∧ Marked r := by
    intro r
    rw [afterLastVersionMark_eq_some, and_assoc]
  rw [exists_congr hlast, ← afterLastVersionMark_eq_none]
  cases afterLastVersionMark tag <;> simp

/-! ### Patterns -/

def digitToken : Token := .one false [('0', '0'), ('0', '9')]

def delimToken : Token := .one false [('-', '-'), ('.', '.'), ('+', '+')]

/-- The tokens behind the place where a version starts. -/
def markerTokens (ts : List Token) : List Token :=
  .star :: delimToken :: ("nightly".toList.map .lit ++ ts)

theorem parse_nightlyExcludeGlobs : nightlyExcludeGlobs.map (Wildmatch.parse .text) =
    [some ("nightly".toList.map .lit),
      some (.star :: .lit 'v' :: digitToken :: markerTokens []),
      some (.star :: .lit 'v' :: digitToken :: markerTokens [delimToken, .star]),
      some (digitToken :: markerTokens []),
      some (digitToken :: markerTokens [delimToken, .star])] := by
  decide +kernel

theorem admits_digit {c : Char} :
    Token.admits false [('0', '0'), ('0', '9')] c ↔ c.isDigit := by
  simp only [Token.admits, List.any_cons, List.any_nil, Bool.or_false, Char.isDigit, Char.le_def,
    bne_iff_ne, ne_eq, Bool.not_eq_false, Bool.or_eq_true, Bool.and_eq_true, decide_eq_true_eq,
    UInt32.le_iff_toNat_le]
  have h₀ : ('0' : Char).val.toNat = 48 := rfl
  have h₉ : ('9' : Char).val.toNat = 57 := rfl
  omega

theorem admits_delim {c : Char} :
    Token.admits false [('-', '-'), ('.', '.'), ('+', '+')] c ↔ c ∈ nightlyDelims := by
  have hself : ∀ d : Char, d ≤ c ∧ c ≤ d ↔ c = d := fun d =>
    ⟨fun h => Char.le_antisymm h.2 h.1, fun h => h ▸ ⟨Char.le_refl _, Char.le_refl _⟩⟩
  simp [Token.admits, nightlyDelims, hself]

theorem accepts_markerTokens {ts : List Token} : Wildmatch.accepts (markerTokens ts) s ↔
    ∃ a d b, d ∈ nightlyDelims ∧ s = a ++ d :: ("nightly".toList ++ b) ∧
      Wildmatch.accepts ts b := by
  simp only [markerTokens, delimToken, Wildmatch.accepts_star, Wildmatch.accepts_one,
    Wildmatch.accepts_text, admits_delim]
  constructor
  · rintro ⟨a, _, rfl, d, _, rfl, hd, b, rfl, hb⟩
    exact ⟨a, d, b, hd, rfl, hb⟩
  · rintro ⟨a, d, b, hd, rfl, hb⟩
    exact ⟨a, _, rfl, d, _, rfl, hd, b, rfl, hb⟩

/-- The marker with nothing or a delimiter behind it. -/
theorem accepts_marker : (Wildmatch.accepts (markerTokens []) s ∨
    Wildmatch.accepts (markerTokens [delimToken, .star]) s) ↔ Marked s := by
  have hall : ∀ b : Text, (b = [] ∨ Wildmatch.accepts [delimToken, .star] b) ↔
      ∀ e ∈ b.head?, e ∈ nightlyDelims := by
    intro b
    cases b with
    | nil => simp
    | cons e b => simp [delimToken, admits_delim]
  simp only [accepts_markerTokens, Wildmatch.accepts_nil, Marked, ← hall, and_or_left, exists_or]

theorem marked_cons_digit {c : Char} (h : c.isDigit) : Marked (c :: s) ↔ Marked s := by
  constructor
  · rintro ⟨a, d, b, hd, heq, hb⟩
    cases a with
    | nil =>
      obtain ⟨rfl, -⟩ := List.cons.inj heq
      simp only [nightlyDelims, List.mem_cons, List.not_mem_nil, or_false] at hd
      rcases hd with rfl | rfl | rfl <;> cases h
    | cons c' a => exact ⟨a, d, b, hd, (List.cons.inj heq).2, hb⟩
  · rintro ⟨a, d, b, hd, rfl, hb⟩
    exact ⟨c :: a, d, b, hd, rfl, hb⟩

/-- A pattern leaves out the tags with a marker behind a place where a version may start. -/
theorem excludedNightly_iff : excludedNightly tag ↔ tag = "nightly".toList ∨
    (∃ r, VersionMark tag r ∧ Marked r) ∨ tag.head?.any Char.isDigit ∧ Marked tag := by
  have hdigit : ∀ {ts : List Token} {s : Text}, Wildmatch.accepts (digitToken :: ts) s ↔
      ∃ c t, s = c :: t ∧ c.isDigit ∧ Wildmatch.accepts ts t := by
    intro ts s
    simp only [digitToken, Wildmatch.accepts_one, admits_digit]
  have hstart : ∀ {s : Text}, (Wildmatch.accepts (digitToken :: markerTokens []) s ∨
      Wildmatch.accepts (digitToken :: markerTokens [delimToken, .star]) s) ↔
        s.head?.any Char.isDigit ∧ Marked s := by
    intro s
    simp only [hdigit, ← exists_or, ← and_or_left, accepts_marker]
    constructor
    · rintro ⟨c, t, rfl, hc, hmark⟩
      exact ⟨hc, (marked_cons_digit hc).mpr hmark⟩
    · rintro ⟨hc, hmark⟩
      cases s with
      | nil => cases hc
      | cons c t => exact ⟨c, t, rfl, hc, (marked_cons_digit hc).mp hmark⟩
  have hmark : (Wildmatch.accepts (.star :: .lit 'v' :: digitToken :: markerTokens []) tag ∨
      Wildmatch.accepts (.star :: .lit 'v' :: digitToken :: markerTokens [delimToken, .star]) tag) ↔
        ∃ r, VersionMark tag r ∧ Marked r := by
    simp only [Wildmatch.accepts_star, Wildmatch.accepts_lit, ← exists_or, ← and_or_left, hstart]
    constructor
    · rintro ⟨a, _, rfl, r, rfl, hr⟩
      exact ⟨r, ⟨hr.1, a, rfl⟩, hr.2⟩
    · rintro ⟨r, ⟨hr, a, rfl⟩, hmarked⟩
      exact ⟨a, _, rfl, r, rfl, hr, hmarked⟩
  have hliteral : Wildmatch.accepts ("nightly".toList.map .lit) tag ↔ tag = "nightly".toList := by
    have htext : Wildmatch.accepts ("nightly".toList.map .lit ++ []) tag ↔
        ∃ t, tag = "nightly".toList ++ t ∧ Wildmatch.accepts [] t := Wildmatch.accepts_text
    rw [List.append_nil] at htext
    simp only [htext, Wildmatch.accepts_nil, exists_eq_right, List.append_nil]
  have hany : excludedNightly tag =
      (nightlyExcludeGlobs.map (Wildmatch.parse .text)).any (·.any (Wildmatch.accepts · tag)) := by
    rw [excludedNightly, List.any_map]
    rfl
  rw [hany, parse_nightlyExcludeGlobs, ← hmark, ← hstart, ← hliteral]
  simp only [List.any_cons, List.any_nil, Option.any_some, Bool.or_eq_true, Bool.or_false,
    or_assoc]

/-! ### Agreement -/

/-- The marker stands where both searches look for it, or where neither does. -/
structure SameNightly (tag : Text) : Prop where
  /-- With a version mark: behind the last one, if it is where any version may start. -/
  behindLast : (∃ r, VersionMark tag r) →
    (∃ r, VersionMark tag r ∧ Marked r) ∨ tag.head?.any Char.isDigit ∧ Marked tag →
      ∃ r, VersionMark tag r ∧ (∀ r', ¬ VersionMark r r') ∧ Marked r
  /-- Without one: only in a tag that a digit starts. -/
  digitFirst : (∀ r, ¬ VersionMark tag r) → Marked tag → tag.head?.any Char.isDigit

theorem sameNightly_literal : SameNightly "nightly".toList := by
  have hnone : ∀ r, ¬ VersionMark "nightly".toList r := afterLastVersionMark_eq_none.mp rfl
  refine ⟨fun ⟨r, hr⟩ => absurd hr (hnone r), fun _ hmarked => ?_⟩
  rw [← markedFrom_none, ← scan_nightlyStep] at hmarked
  exact absurd hmarked (by decide)

/-- The two searches agree on a tag exactly when the marker stands where both look for it or
where neither does. -/
theorem isNightlyTag_eq_excludedNightly_iff (tag : Text) :
    isNightlyTag tag = excludedNightly tag ↔ SameNightly tag := by
  rw [Bool.eq_iff_iff, isNightlyTag_iff, excludedNightly_iff]
  by_cases hlit : tag = "nightly".toList
  · subst hlit
    exact iff_of_true (iff_of_true (.inl rfl) (.inl rfl)) sameNightly_literal
  simp only [hlit, false_or]
  by_cases hsome : ∃ r, VersionMark tag r
  · have hno : ¬ ∀ r, ¬ VersionMark tag r := fun h => hsome.elim h
    simp only [hno, false_and, or_false]
    constructor
    · exact fun h => ⟨fun _ => h.mpr, fun hnone => absurd hnone hno⟩
    · intro h
      refine ⟨?_, h.behindLast hsome⟩
      rintro ⟨r, hr, -, hmarked⟩
      exact .inl ⟨r, hr, hmarked⟩
  · have hnone : ∀ r, ¬ VersionMark tag r := not_exists.mp hsome
    simp only [hnone, false_and, exists_false, false_or, not_false_eq_true, implies_true, true_and]
    constructor
    · exact fun h => ⟨fun hmark => absurd hmark hsome, fun _ hmarked => (h.mp hmarked).1⟩
    · exact fun h => ⟨fun hmarked => ⟨h.digitFirst hnone hmarked, hmarked⟩, And.right⟩

example : isNightlyTag "v0.4.0-3f2a1b9-nightly".toList =
    excludedNightly "v0.4.0-3f2a1b9-nightly".toList := by decide +kernel

/-- A tag that the search by list leaves out and git keeps. -/
theorem release_nightly_disagree :
    ¬ ∀ tag, isNightlyTag tag = true ↔ ∃ g ∈ nightlyExcludeGlobs, wildmatch g tag = true := by
  intro h
  have hlist := (h "release-nightly".toList).mp (by decide +kernel)
  exact absurd hlist (by decide +kernel)

end Anodizer.Git
