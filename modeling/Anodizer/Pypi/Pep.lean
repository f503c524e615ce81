import Anodizer.Git.Precedence
import Anodizer.Lib.Pep440

/-! # Versions for the package index

The index takes versions of PEP 440, whose prereleases are spelled in another way than those of
semantic versions. A version is mapped segment by segment.
-/

namespace Anodizer.Pypi

open Git (SemVer)
open Pep440 (isNumber value)
open Template (Text)

/-- The label of a prerelease and the number behind it, after a dot or glued to the label. -/
def splitPrerelease (pre : Text) : Text × Option Text :=
  match SplitOnce.first '.' pre with
  | some (label, num) => if isNumber num then (label, some num) else (pre, none)
  | none =>
    let label := pre.takeWhile fun c => !c.isDigit
    let num := pre.dropWhile fun c => !c.isDigit
    if label ≠ [] ∧ isNumber num then (label, some num) else (pre, none)

/-- The segment that a label becomes. -/
def segment (label : Text) : Option Text :=
  if label ∈ ["alpha".toList, "a".toList] then some "a".toList
  else if label ∈ ["beta".toList, "b".toList] then some "b".toList
  else if label ∈ ["rc".toList, "pre".toList, "preview".toList, "c".toList] then some "rc".toList
  else if label = "dev".toList then some ".dev".toList
  else none

/-- A version in quotation marks, or a part of it, as the messages name it. -/
def named (what : String) (t : Text) : Text := what.toList ++ t ++ "'".toList

def noCore (version : Text) : Text :=
  named "pypi: version '" version ++ " does not have a numeric X.Y.Z core".toList

def noEquivalent (pre version : Text) : Text :=
  named "pypi: prerelease '-" pre ++ named " in version '" version ++
    " has no PEP 440 equivalent (supported: alpha/beta/rc/pre/preview/dev)".toList

def illegalLocal (loc version : Text) : Text :=
  named "pypi: build metadata '+" loc ++ named " in version '" version ++
    " is not a legal PEP 440 local segment (dot-separated alphanumerics)".toList

def semverToPep440 (version : Text) : Except Text Text := do
  let (coreAndPre, loc) := match SplitOnce.first '+' version with
    | some (v, l) => (v, some l)
    | none => (version, none)
  let (core, pre) := match SplitOnce.first '-' coreAndPre with
    | some (c, p) => (c, some p)
    | none => (coreAndPre, none)
  if core = [] ∨ ¬ (core.splitOn '.').all isNumber then throw (noCore version)
  let out ← match pre with
    | none => .ok core
    | some pre =>
      match segment (splitPrerelease pre).1 with
      | none => throw (noEquivalent pre version)
      | some seg => .ok (core ++ (seg ++ (splitPrerelease pre).2.getD "0".toList))
  match loc with
  | none => .ok out
  | some loc =>
    if loc = [] ∨ ¬ (loc.splitOn '.').all (fun part => part ≠ [] && part.all Char.isAlphanum) then
      throw (illegalLocal loc version)
    else .ok (out ++ '+' :: loc.map Char.toLower)

example : (semverToPep440 "1.2.3-preview.4+Build.7".toList).toOption =
    some "1.2.3rc4+build.7".toList := by decide +kernel

/-! ### Versions without build metadata -/

/-- An identifier of a prerelease. -/
structure IsIdentifier (id : Text) : Prop where
  ne_nil : id ≠ []
  chars : ∀ c ∈ id, c.isAlphanum ∨ c = '-'
  no_leading_zero : isNumber id → id.head? = some '0' → id = ['0']

instance (id : Text) : Decidable (IsIdentifier id) :=
  decidable_of_iff (id ≠ [] ∧ id.all (fun c => c.isAlphanum || c == '-') ∧
    (isNumber id → id.head? = some '0' → id = ['0']))
    ⟨fun h => ⟨h.1, by simpa using h.2.1, h.2.2⟩, fun h => ⟨h.1, by simpa using h.2, h.3⟩⟩

/-- A version of the specification of semantic versions, without build metadata. -/
structure Conforming (v : SemVer) : Prop where
  no_build : v.buildMetadata = none
  identifiers : ∀ p ∈ v.prerelease, ∀ id ∈ p.splitOn '.', IsIdentifier id

instance (v : SemVer) : Decidable (Conforming v) :=
  decidable_of_iff (v.buildMetadata = none ∧
    ∀ p ∈ v.prerelease, ∀ id ∈ p.splitOn '.', IsIdentifier id)
    ⟨fun h => ⟨h.1, h.2⟩, fun h => ⟨h.1, h.2⟩⟩

end Anodizer.Pypi
