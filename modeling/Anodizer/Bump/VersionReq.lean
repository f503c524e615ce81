import Anodizer.Git.Precedence

/-! # Version requirements

A requirement lists comparators. The library that reads requirements and matches versions against
them is known by what it documents: how one comparator is written, and which versions it admits.
-/

namespace Anodizer.Bump

open Template (Text)
open Git

/-! ### Versions and comparators -/

def isIdentChar (c : Char) : Bool := c.isAlphanum || c == '-'

/-- Nothing, or identifiers between dots. An identifier of digits has no leading zero. -/
def isPrerelease (t : Text) : Bool :=
  t = [] || (t.splitOn '.').all fun id => id ≠ [] && id.all isIdentChar &&
    !(id.all Char.isDigit && id.length > 1 && id.head? = some '0')

abbrev Prerelease := { t : Text // isPrerelease t = true }

def Prerelease.empty : Prerelease := ⟨[], rfl⟩

structure Version where
  major : UInt64
  minor : UInt64
  patch : UInt64
  pre : Prerelease
  build : Text
  deriving DecidableEq

/-- The version without its build metadata. -/
def Version.semver (v : Version) : SemVer :=
  ⟨v.major.toNat, v.minor.toNat, v.patch.toNat, if v.pre.1 = [] then none else some v.pre.1, none⟩

inductive Op
  | exact
  | greater
  | greaterEq
  | less
  | lessEq
  | tilde
  | caret
  | wildcard
  deriving DecidableEq, Repr

structure Comparator where
  op : Op
  major : UInt64
  minor : Option UInt64
  patch : Option UInt64
  pre : Prerelease
  deriving DecidableEq

namespace Comparator

/-- The lowest version that the comparator names. -/
def floor (c : Comparator) : Version := ⟨c.major, c.minor.getD 0, c.patch.getD 0, c.pre, []⟩

def sameAs (c : Comparator) (v : Version) : Bool :=
  c.major = v.major && c.minor.all (· = v.minor) && c.patch.all (· = v.patch)

/-- The versions that the comparator ranges over. -/
def inRange (c : Comparator) (v : Version) : Bool :=
  let order := Spec.precedence c.floor.semver v.semver
  match c.op with
  | .exact | .wildcard => c.sameAs v && (c.patch.isNone || c.pre = v.pre)
  | .greater => order = .lt && (c.patch.isSome || !c.sameAs v)
  | .greaterEq => order ≠ .gt
  | .less => order = .gt
  | .lessEq => order ≠ .lt || (c.patch.isNone && c.sameAs v)
  | .tilde => order ≠ .gt && c.major = v.major && c.minor.all (· = v.minor)
  | .caret => order ≠ .gt && c.major = v.major && (c.major ≠ 0 || c.minor.all fun b =>
      b = v.minor && (b ≠ 0 || c.patch.all (· = v.patch)))

/-- The comparator names a prerelease of the same release. -/
def allowsPre (c : Comparator) (v : Version) : Bool :=
  c.pre.1 ≠ [] && c.major = v.major && c.minor = some v.minor && c.patch = some v.patch

end Comparator

/-! ### How a comparator is written -/

/-- The texts of the operators that bound from below. No text stands for a caret. -/
inductive Token : Op → Text → Prop
  | exact : Token .exact ['=']
  | greater : Token .greater ['>']
  | greaterEq : Token .greaterEq ['>', '=']
  | tilde : Token .tilde ['~']
  | caret : Token .caret ['^']
  | default : Token .caret []

def spaces (n : ℕ) : Text := List.replicate n ' '

def number (n : UInt64) : Text := Nat.toDigits 10 n.toNat

/-- A version of which the last numbers may be left out. -/
inductive Partial
  | major (a : UInt64)
  | minor (a b : UInt64)
  | patch (a b c : UInt64) (pre : Prerelease)

namespace Partial

def text : Partial → Text
  | .major a => number a
  | .minor a b => number a ++ '.' :: number b
  | .patch a b c pre =>
    number a ++ '.' :: (number b ++ '.' :: (number c ++
      if pre.1 = [] then [] else '-' :: pre.1))

def comparator (op : Op) : Partial → Comparator
  | .major a => ⟨op, a, none, none, .empty⟩
  | .minor a b => ⟨op, a, some b, none, .empty⟩
  | .patch a b c pre => ⟨op, a, some b, some c, pre⟩

end Partial

def isLowerBounded : Op → Bool
  | .exact | .greater | .greaterEq | .tilde | .caret => true
  | .less | .lessEq | .wildcard => false

/-- The library that reads requirements. -/
structure SemverCrate where
  parse : Text → Option (List Comparator)
  admits : List Comparator → Version → Bool
  compare : Version → Version → Ordering

/-- What the library documents. -/
structure SemverCrate.Documented (crate : SemverCrate) : Prop where
  /-- One comparator with a lower bound is an operator in front of a number. -/
  reads : ∀ s c, crate.parse s = some [c] → isLowerBounded c.op →
    (c.patch.isSome → c.minor.isSome) ∧ ∃ lead token gap d rest, Token c.op token ∧
      (token = [] → gap = 0) ∧ Char.isDigit d ∧ s = spaces lead ++ (token ++ (spaces gap ++ d :: rest))
  /-- An operator in front of a version is read as written. -/
  parses : ∀ op token gap w, Token op token → (token = [] → gap = 0) →
    crate.parse (token ++ (spaces gap ++ Partial.text w)) = some [w.comparator op]
  /-- A version is admitted in the range of all comparators, and a prerelease only where one of them
  names a prerelease of its release. -/
  admits : ∀ cs v, crate.admits cs v ↔
    (∀ c ∈ cs, c.inRange v) ∧ (v.pre.1 = [] ∨ ∃ c ∈ cs, c.allowsPre v)

end Anodizer.Bump
