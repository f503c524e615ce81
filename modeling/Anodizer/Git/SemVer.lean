import Anodizer.Template.StringLit
import Mathlib.Data.Char
import Mathlib.Data.List.Lex
import Mathlib.Data.Sum.Order
import Mathlib.Data.Prod.Lex
import Mathlib.Order.Compare
import Mathlib.Order.WithBot

/-! # Semantic versions

Versions are read off tags by regular expressions. Their order looks at the
numbers and the prerelease only, and is the order of a key.
-/

namespace Anodizer.Git

open Regex
open Template (Text CharTables)

structure SemVer where
  major : ℕ
  minor : ℕ
  patch : ℕ
  prerelease : Option Text
  buildMetadata : Option Text
  deriving DecidableEq, Repr

namespace SemVer

def isPrerelease (v : SemVer) : Bool := v.prerelease.isSome

def rawVersionString (v : SemVer) : Text :=
  Nat.toDigits 10 v.major ++ '.' :: (Nat.toDigits 10 v.minor ++ '.' :: Nat.toDigits 10 v.patch)

/-- The text after `mark`, when there is one. -/
def suffix (mark : Char) : Option Text → Text
  | none => []
  | some t => mark :: t

def versionString (v : SemVer) : Text :=
  v.rawVersionString ++ suffix '-' v.prerelease ++ suffix '+' v.buildMetadata

end SemVer

/-- The decimal numbers below `2 ^ 64`, with an optional plus sign. -/
def parseU64 (s : Text) : Option ℕ :=
  let digits := if s.head? = some '+' then s.tail else s
  if digits ≠ [] ∧ digits.all Char.isDigit ∧ Nat.ofDigitChars 10 digits 0 < 2 ^ 64 then
    some (Nat.ofDigitChars 10 digits 0)
  else none

/-! ### Parsing -/

section Parse

variable (u : CharTables)

def digitsRe : Re := .plus true (.char u.digit)

def notPlus : Re := .char (· != '+')

def notNewline : Re := .char (· != '\n')

def semverRe : Re :=
  .cat [.textStart, .opt (.lit "v"), .group "1" (digitsRe u), .lit ".", .group "2" (digitsRe u),
    .lit ".", .group "3" (digitsRe u), .opt (.cat [.lit "-", .group "4" (.plus true notPlus)]),
    .opt (.cat [.lit "+", .group "5" (.plus true notNewline)]), .textEnd]

/-- Three numbers with an optional prerelease and optional build metadata. -/
def coreRe : Re :=
  .cat [digitsRe u, .lit ".", digitsRe u, .lit ".", digitsRe u,
    .opt (.cat [.lit "-", .plus true notPlus]), .opt (.cat [.lit "+", .plus true notNewline])]

/-- The marks that separate a version from what precedes it. -/
def separatorRe : Re := .char fun c => c == '-' || c == '_' || c == '/'

def prefixVersionRe : Re :=
  .cat [separatorRe, .group "1" (.cat [.opt (.lit "v"), coreRe u]), .textEnd]

def familyRe : Re :=
  .cat [.textStart,
    .group "1" (.cat [.alt .empty (.cat [.star true notNewline, separatorRe]), .opt (.lit "v")]),
    .group "2" (coreRe u), .textEnd]

def parseSemver (tag : Text) : Option SemVer := do
  let caps ← matchStart (semverRe u) tag
  let major ← parseU64 (caps.get "1")
  let minor ← parseU64 (caps.get "2")
  let patch ← parseU64 (caps.get "3")
  some ⟨major, minor, patch, caps.get? "4", caps.get? "5"⟩

/-- The version at the end of a tag, which may stand after a separator. -/
def parseSemverTag (tag : Text) : Option SemVer :=
  match parseSemver u tag with
  | some v => some v
  | none => (findIter (prefixVersionRe u) tag).head?.bind fun caps => parseSemver u (caps.get "1")

/-- The text before the version of a tag, and the version. -/
def splitTagFamily (tag : Text) : Option (Text × SemVer) := do
  let caps ← matchStart (familyRe u) tag
  let v ← parseSemver u (caps.get "2")
  some (tag.take (caps.get "1").length, v)

end Parse

example : parseSemver .ascii "v1.0.0-rc.1+build.42".toList =
    some ⟨1, 0, 0, some "rc.1".toList, some "build.42".toList⟩ := by decide +kernel

example : (parseSemverTag .ascii "crd-v0.5.0".toList).map SemVer.versionString =
    some "0.5.0".toList := by decide +kernel

/-! ### Order -/

/-- Numeric identifiers come before the others. -/
def compareIdentifier (a b : Text) : Ordering :=
  match parseU64 a, parseU64 b with
  | some m, some n => cmp m n
  | some _, none => .lt
  | none, some _ => .gt
  | none, none => cmp a b

def compareIdentifiers : List Text → List Text → Ordering
  | a :: as, b :: bs => (compareIdentifier a b).then (compareIdentifiers as bs)
  | as, bs => cmp as.length bs.length

def comparePrerelease (a b : Text) : Ordering :=
  compareIdentifiers (a.splitOn '.') (b.splitOn '.')

namespace SemVer

/-- A prerelease comes before its release. -/
def comparePre : Option Text → Option Text → Ordering
  | some _, none => .lt
  | none, some _ => .gt
  | some a, some b => comparePrerelease a b
  | none, none => .eq

def compare (v w : SemVer) : Ordering :=
  (((cmp v.major w.major).then (cmp v.minor w.minor)).then (cmp v.patch w.patch)).then
    (comparePre v.prerelease w.prerelease)

/-- The place of an identifier in the order of identifiers. -/
abbrev IdKey := Lex (ℕ ⊕ List Char)

def idKey (a : Text) : IdKey :=
  match parseU64 a with
  | some n => toLex (.inl n)
  | none => toLex (.inr a)

def preKey : Option Text → WithTop (List IdKey)
  | none => ⊤
  | some a => ((a.splitOn '.').map idKey : List IdKey)

abbrev Key := ℕ ×ₗ ℕ ×ₗ ℕ ×ₗ WithTop (List IdKey)

/-- The place of a version in the order of versions. -/
def key (v : SemVer) : Key := toLex (v.major, toLex (v.minor, toLex (v.patch, preKey v.prerelease)))

theorem compares_text (a b : Text) : (cmp a b).Compares a b := by
  unfold cmp cmpUsing
  split_ifs with hab hba
  · exact hab
  · exact hba
  · exact le_antisymm (not_lt.mp hba) (not_lt.mp hab)

theorem compareIdentifier_compares (a b : Text) :
    (compareIdentifier a b).Compares (idKey a) (idKey b) := by
  unfold compareIdentifier idKey
  rcases parseU64 a with - | m <;> rcases parseU64 b with - | n
  · have hmono : StrictMono fun x : List Char => (toLex (.inr x) : IdKey) := fun _ _ h =>
      Sum.Lex.inr_lt_inr_iff.mpr h
    exact hmono.compares.mpr (compares_text a b)
  · exact Sum.Lex.inl_lt_inr n a
  · exact Sum.Lex.inl_lt_inr m b
  · have hmono : StrictMono fun x : ℕ => (toLex (.inl x) : IdKey) := fun _ _ h =>
      Sum.Lex.inl_lt_inl_iff.mpr h
    exact hmono.compares.mpr (cmp_compares m n)

section Lexicographic

variable {α β : Type*} [LinearOrder α] [LinearOrder β]

theorem compares_cons {a b : α} {as bs : List α} {o o' : Ordering} (h : o.Compares a b)
    (h' : o'.Compares as bs) : (o.then o').Compares (a :: as) (b :: bs) := by
  cases o with
  | lt => exact List.cons_lt_cons_iff.mpr (.inl h)
  | gt => exact List.cons_lt_cons_iff.mpr (.inl h)
  | eq =>
    obtain rfl : a = b := h
    cases o' with
    | lt => exact List.cons_lt_cons_self.mpr h'
    | eq => exact congrArg _ h'
    | gt => exact List.cons_lt_cons_self.mpr h'

theorem compares_toLex {a a' : α} {b b' : β} {o o' : Ordering} (h : o.Compares a a')
    (h' : o'.Compares b b') : (o.then o').Compares (toLex (a, b)) (toLex (a', b')) := by
  cases o with
  | lt => exact Prod.Lex.toLex_lt_toLex.mpr (.inl h)
  | gt => exact Prod.Lex.toLex_lt_toLex.mpr (.inl h)
  | eq =>
    obtain rfl : a = a' := h
    cases o' with
    | lt => exact Prod.Lex.toLex_lt_toLex.mpr (.inr ⟨rfl, h'⟩)
    | eq =>
      obtain rfl : b = b' := h'
      exact rfl
    | gt => exact Prod.Lex.toLex_lt_toLex.mpr (.inr ⟨rfl, h'⟩)

end Lexicographic

theorem compareIdentifiers_compares (as bs : List Text) :
    (compareIdentifiers as bs).Compares (as.map idKey) (bs.map idKey) := by
  induction as generalizing bs with
  | nil =>
    cases bs with
    | nil => exact (rfl : ([] : List IdKey) = [])
    | cons b bs => exact List.nil_lt_cons _ _
  | cons a as ih =>
    cases bs with
    | nil => exact List.nil_lt_cons _ _
    | cons b bs => exact compares_cons (compareIdentifier_compares a b) (ih bs)

theorem comparePre_compares (a b : Option Text) :
    (comparePre a b).Compares (preKey a) (preKey b) := by
  cases a with
  | none =>
    cases b with
    | none => exact (rfl : (⊤ : WithTop (List IdKey)) = ⊤)
    | some b => exact WithTop.coe_lt_top _
  | some a =>
    cases b with
    | none => exact WithTop.coe_lt_top _
    | some b =>
      exact (WithTop.coe_strictMono).compares.mpr (compareIdentifiers_compares _ _)

/-- The order of versions is the order of their keys. -/
theorem compare_compares (v w : SemVer) : (v.compare w).Compares v.key w.key := by
  unfold compare key
  rw [Ordering.then_assoc, Ordering.then_assoc]
  exact compares_toLex (cmp_compares _ _) (compares_toLex (cmp_compares _ _)
    (compares_toLex (cmp_compares _ _) (comparePre_compares _ _)))

theorem compare_eq_lt {v w : SemVer} : v.compare w = .lt ↔ v.key < w.key :=
  (compare_compares v w).eq_lt

theorem compare_eq_gt {v w : SemVer} : v.compare w = .gt ↔ w.key < v.key :=
  (compare_compares v w).eq_gt

theorem compare_eq_eq {v w : SemVer} : v.compare w = .eq ↔ v.key = w.key :=
  (compare_compares v w).eq_eq

end SemVer

end Anodizer.Git
