import Anodizer.Lib.Lines
import Anodizer.Lib.SplitOnce
import Mathlib.Data.List.Lex
import Mathlib.Data.Nat.Digits.Defs
import Mathlib.Data.Prod.Lex
import Mathlib.Data.List.TakeWhile
import Mathlib.Order.WithBot
import Mathlib.Tactic.Common

/-! # Public version identifiers of PEP 440

A version is an optional epoch, release numbers, and optional segments for a prerelease, a
post-release and a development release. Versions are ordered by a key.
-/

namespace Pep440

inductive Phase
  | a
  | b
  | rc
  deriving DecidableEq, Repr

def Phase.text : Phase → List Char
  | a => "a".toList
  | b => "b".toList
  | rc => "rc".toList

def Phase.rank : Phase → ℕ
  | a => 0
  | b => 1
  | rc => 2

structure Version where
  epoch : ℕ
  release : List ℕ
  pre : Option (Phase × ℕ)
  post : Option ℕ
  dev : Option ℕ
  deriving DecidableEq, Repr

/-! ### Parsing -/

def isNumber (t : List Char) : Bool := !t.isEmpty && t.all Char.isDigit

def value (t : List Char) : ℕ := Nat.ofDigitChars 10 t 0

/-- The number behind a mark. -/
def numberAfter (mark t : List Char) : Option ℕ :=
  if mark.isPrefixOf t ∧ isNumber (t.drop mark.length) then some (value (t.drop mark.length))
  else none

def preSegment (t : List Char) : Option (Phase × ℕ) :=
  [Phase.a, .b, .rc].findSome? fun phase => (numberAfter phase.text t).map fun n => (phase, n)

/-- The last release number, with the prerelease behind it. -/
def withPre (t : List Char) : Option (ℕ × Phase × ℕ) :=
  let digits := t.takeWhile Char.isDigit
  if digits = [] then none
  else (preSegment (t.dropWhile Char.isDigit)).map fun pre => (value digits, pre)

/-- The post-release and the development release. -/
def suffixes : List (List Char) → Option (Option ℕ × Option ℕ)
  | [] => some (none, none)
  | [t] =>
    match numberAfter "post".toList t with
    | some n => some (some n, none)
    | none => (numberAfter "dev".toList t).map fun n => (none, some n)
  | [t, t'] =>
    match numberAfter "post".toList t, numberAfter "dev".toList t' with
    | some n, some m => some (some n, some m)
    | _, _ => none
  | _ => none

def parseEpoch (s : List Char) : Option (ℕ × List Char) :=
  match SplitOnce.first '!' s with
  | none => some (0, s)
  | some (e, rest) => if isNumber e then some (value e, rest) else none

/-- The release numbers and the segments behind them, cut at the dots. -/
def parseParts (epoch : ℕ) (parts : List (List Char)) : Option Version :=
  let release := (parts.takeWhile isNumber).map value
  match parts.dropWhile isNumber with
  | [] => some ⟨epoch, release, none, none, none⟩
  | part :: rest =>
    match withPre part with
    | some (n, pre) => (suffixes rest).map fun (post, dev) =>
      ⟨epoch, release ++ [n], some pre, post, dev⟩
    | none =>
      if release = [] then none
      else (suffixes (part :: rest)).map fun (post, dev) => ⟨epoch, release, none, post, dev⟩

def parse (s : List Char) : Option Version :=
  (parseEpoch s).bind fun (epoch, rest) => parseParts epoch (rest.splitOn '.')

example : parse "1!2.0.10rc01.post3.dev4".toList =
    some ⟨1, [2, 0, 10], some (.rc, 1), some 3, some 4⟩ := by decide +kernel

example : parse "1.2.3-rc.1".toList = none := by decide +kernel

/-! ### Order -/

/-- Zeros at the end of a release do not count. -/
def strip : List ℕ → List ℕ
  | [] => []
  | n :: ns =>
    match strip ns with
    | [] => if n = 0 then [] else [n]
    | m :: ms => n :: m :: ms

/-- A development release of the release itself precedes its prereleases. -/
def preKey (v : Version) : WithBot (WithTop (ℕ ×ₗ ℕ)) :=
  match v.pre, v.post, v.dev with
  | some (phase, n), _, _ => ((toLex (phase.rank, n) : ℕ ×ₗ ℕ) : WithTop (ℕ ×ₗ ℕ))
  | none, none, some _ => ⊥
  | none, _, _ => (⊤ : WithTop (ℕ ×ₗ ℕ))

def postKey : Option ℕ → WithBot ℕ
  | none => ⊥
  | some n => n

def devKey : Option ℕ → WithTop ℕ
  | none => ⊤
  | some n => n

abbrev SegmentKey := WithBot (WithTop (ℕ ×ₗ ℕ)) ×ₗ WithBot ℕ ×ₗ WithTop ℕ

def segmentKey (v : Version) : SegmentKey := toLex (preKey v, toLex (postKey v.post, devKey v.dev))

abbrev Key := ℕ ×ₗ List ℕ ×ₗ SegmentKey

/-- The place of a version in the order of versions. -/
def key (v : Version) : Key := toLex (v.epoch, toLex (strip v.release, segmentKey v))

/-! ### Releases of one length -/

theorem strip_cons (n : ℕ) (ns : List ℕ) :
    strip (n :: ns) = if n = 0 ∧ strip ns = [] then [] else n :: strip ns := by
  rw [strip]
  split
  · next h =>
    by_cases hn : n = 0
    · rw [if_pos hn, if_pos ⟨hn, h⟩]
    · rw [if_neg hn, if_neg fun hc => hn hc.1, h]
  · next h => rw [if_neg fun hc => List.cons_ne_nil _ _ (h ▸ hc.2), h]

theorem strip_lt_cons (n : ℕ) (ms : List ℕ) :
    ∀ ns : List ℕ, strip ns < strip ms → strip (n :: ns) < strip (n :: ms) := by
  intro ns h
  have hne : strip ms ≠ [] := by
    intro hnil
    rw [hnil] at h
    exact absurd h (List.not_lt_nil _)
  rw [strip_cons n ms, if_neg fun hc => hne hc.2, strip_cons n ns]
  split
  · exact List.nil_lt_cons _ _
  · exact List.cons_lt_cons_self.mpr h

theorem strip_lt {ns ms : List ℕ} (hlen : ns.length = ms.length) (h : ns < ms) :
    strip ns < strip ms := by
  induction ns generalizing ms with
  | nil =>
    obtain rfl := List.eq_nil_of_length_eq_zero hlen.symm
    exact absurd h (List.not_lt_nil _)
  | cons n ns ih =>
    obtain ⟨m, ms, rfl⟩ := List.exists_cons_of_length_eq_add_one hlen.symm
    rcases List.cons_lt_cons_iff.mp h with hlt | ⟨rfl, hlt⟩
    · have hm : m ≠ 0 := by omega
      rw [strip_cons m, if_neg fun hc => hm hc.1, strip_cons]
      split
      · exact List.nil_lt_cons _ _
      · exact List.cons_lt_cons_iff.mpr (.inl hlt)
    · exact strip_lt_cons n ms ns (ih (by simpa using hlen) hlt)

theorem strip_lt_iff {ns ms : List ℕ} (hlen : ns.length = ms.length) :
    strip ns < strip ms ↔ ns < ms := by
  refine ⟨fun h => ?_, strip_lt hlen⟩
  rcases lt_trichotomy ns ms with hlt | rfl | hlt
  · exact hlt
  · exact absurd h (lt_irrefl _)
  · exact absurd h (strip_lt hlen.symm hlt).asymm

theorem strip_eq_iff {ns ms : List ℕ} (hlen : ns.length = ms.length) :
    strip ns = strip ms ↔ ns = ms := by
  refine ⟨fun h => ?_, congrArg strip⟩
  rcases lt_trichotomy ns ms with hlt | heq | hlt
  · exact absurd h (strip_lt hlen hlt).ne
  · exact heq
  · exact absurd h (strip_lt hlen.symm hlt).ne'

section Keys

variable {v w : Version}

theorem key_lt_iff (hepoch : v.epoch = w.epoch) (hlen : v.release.length = w.release.length) :
    key v < key w ↔
      v.release < w.release ∨ v.release = w.release ∧ segmentKey v < segmentKey w := by
  rw [key, key, hepoch, Prod.Lex.toLex_lt_toLex, Prod.Lex.toLex_lt_toLex, strip_lt_iff hlen,
    strip_eq_iff hlen]
  simp

theorem key_eq_iff (hepoch : v.epoch = w.epoch) (hlen : v.release.length = w.release.length) :
    key v = key w ↔ v.release = w.release ∧ segmentKey v = segmentKey w := by
  rw [key, key, hepoch, toLex_inj, Prod.mk.injEq, toLex_inj, Prod.mk.injEq, strip_eq_iff hlen]
  simp

end Keys

/-! ### Spelling versions -/

section Spelling

variable {parts ns : List (List Char)} {n ds : List Char}

theorem isNumber_iff {t : List Char} : isNumber t ↔ t ≠ [] ∧ ∀ c ∈ t, c.isDigit := by
  simp [isNumber]

theorem numberAfter_append (mark : List Char) (h : isNumber ds) :
    numberAfter mark (mark ++ ds) = some (value ds) := by
  rw [numberAfter, List.drop_left, if_pos ⟨by simp, h⟩]

/-- Every character of the parts is kept, so no part may hold a dot or an epoch mark. -/
theorem parse_intercalate (hne : parts ≠ []) (h : ∀ t ∈ parts, '.' ∉ t ∧ '!' ∉ t) :
    parse (['.'].intercalate parts) = parseParts 0 parts := by
  have hbang : '!' ∉ ['.'].intercalate parts := by
    intro hmem
    rcases Lines.mem_intercalate hmem with hc | ⟨t, ht, hc⟩
    · exact absurd hc (by decide)
    · exact (h t ht).2 hc
  rw [parse, parseEpoch, SplitOnce.first_eq_none.mpr hbang]
  simp only [Option.bind_some]
  rw [List.splitOn_intercalate '.' (fun t ht => (h t ht).1) hne]

theorem parseParts_release (hns : ∀ t ∈ ns, isNumber t) :
    parseParts 0 ns = some ⟨0, ns.map value, none, none, none⟩ := by
  have htake : ns.takeWhile isNumber = ns := List.takeWhile_eq_self_iff.mpr hns
  have hdrop : ns.dropWhile isNumber = [] := List.dropWhile_eq_nil_iff.mpr hns
  simp only [parseParts, htake, hdrop]

/-- A part that starts with a number and does not end with it ends the release. -/
theorem withPre_append (hn : isNumber n) (phase : Phase) (hds : isNumber ds) :
    withPre (n ++ (phase.text ++ ds)) = some (value n, phase, value ds) := by
  have hdigit := (isNumber_iff.mp hn).2
  have hhead : ∃ c r, phase.text ++ ds = c :: r ∧ c.isDigit = false := by
    cases phase <;> exact ⟨_, _, rfl, by decide⟩
  obtain ⟨c, r, hcut, hc⟩ := hhead
  have htake : (n ++ (phase.text ++ ds)).takeWhile Char.isDigit = n := by
    rw [List.takeWhile_append_of_pos hdigit, hcut, List.takeWhile_cons_of_neg (by simp [hc]),
      List.append_nil]
  have hdrop : (n ++ (phase.text ++ ds)).dropWhile Char.isDigit = phase.text ++ ds := by
    rw [List.dropWhile_append_of_pos hdigit, hcut, List.dropWhile_cons_of_neg (by simp [hc])]
  have hpre : preSegment (phase.text ++ ds) = some (phase, value ds) := by
    have hsome := numberAfter_append phase.text hds
    cases phase with
    | a => rw [preSegment, List.findSome?_cons, hsome, Option.map_some]
    | b =>
      have ha : numberAfter Phase.a.text (Phase.b.text ++ ds) = none := rfl
      rw [preSegment, List.findSome?_cons, ha, Option.map_none, List.findSome?_cons, hsome,
        Option.map_some]
    | rc =>
      have ha : numberAfter Phase.a.text (Phase.rc.text ++ ds) = none := rfl
      have hb : numberAfter Phase.b.text (Phase.rc.text ++ ds) = none := rfl
      rw [preSegment, List.findSome?_cons, ha, Option.map_none, List.findSome?_cons, hb,
        Option.map_none, List.findSome?_cons, hsome, Option.map_some]
  simp [withPre, htake, hdrop, hpre, (isNumber_iff.mp hn).1]

theorem parseParts_pre (hns : ∀ t ∈ ns, isNumber t) (hn : isNumber n) (phase : Phase)
    (hds : isNumber ds) : parseParts 0 (ns ++ [n ++ (phase.text ++ ds)]) =
      some ⟨0, (ns ++ [n]).map value, some (phase, value ds), none, none⟩ := by
  have hlast : isNumber (n ++ (phase.text ++ ds)) = false := by
    rw [Bool.eq_false_iff]
    intro hall
    obtain ⟨c, hc, hdigit⟩ : ∃ c ∈ phase.text, c.isDigit = false := by
      cases phase <;> exact ⟨_, List.mem_cons_self, rfl⟩
    rw [(isNumber_iff.mp hall).2 c (by simp [hc])] at hdigit
    cases hdigit
  have htake : (ns ++ [n ++ (phase.text ++ ds)]).takeWhile isNumber = ns := by
    rw [List.takeWhile_append_of_pos hns, List.takeWhile_cons_of_neg (by simp [hlast]),
      List.append_nil]
  have hdrop : (ns ++ [n ++ (phase.text ++ ds)]).dropWhile isNumber =
      [n ++ (phase.text ++ ds)] := by
    rw [List.dropWhile_append_of_pos hns, List.dropWhile_cons_of_neg (by simp [hlast])]
  simp [parseParts, htake, hdrop, withPre_append hn phase hds, suffixes]

theorem parseParts_dev (hne : ns ≠ []) (hns : ∀ t ∈ ns, isNumber t) (hds : isNumber ds) :
    parseParts 0 (ns ++ ["dev".toList ++ ds]) =
      some ⟨0, ns.map value, none, none, some (value ds)⟩ := by
  have hlast : isNumber ("dev".toList ++ ds) = false := by
    rw [Bool.eq_false_iff]
    intro hall
    exact absurd ((isNumber_iff.mp hall).2 'd' (by simp)) (by decide)
  have htake : (ns ++ ["dev".toList ++ ds]).takeWhile isNumber = ns := by
    rw [List.takeWhile_append_of_pos hns, List.takeWhile_cons_of_neg (Bool.eq_false_iff.mp hlast),
      List.append_nil]
  have hdrop : (ns ++ ["dev".toList ++ ds]).dropWhile isNumber = ["dev".toList ++ ds] := by
    rw [List.dropWhile_append_of_pos hns, List.dropWhile_cons_of_neg (Bool.eq_false_iff.mp hlast)]
  have hpre : withPre ("dev".toList ++ ds) = none := rfl
  have hpost : numberAfter "post".toList ("dev".toList ++ ds) = none := rfl
  have hdev := numberAfter_append "dev".toList hds
  simp only [parseParts, htake, hdrop, hpre, suffixes, hpost, hdev]
  simp [hne]

end Spelling

end Pep440
