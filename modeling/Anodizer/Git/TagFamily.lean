import Anodizer.Git.Spelling
import Anodizer.Lib.Lines

/-! # Tag families

A tag template names a family of tags. The scope of the family filters the
tags of the repository, together with the ignore configuration.
-/

namespace Anodizer.Git

open Regex
open Template (Text CharTables)

/-! ### Templates -/

def versionPlaceholders : List Text :=
  ["\x7b\x7b .Version \x7d\x7d".toList, "\x7b\x7b.Version\x7d\x7d".toList,
    "\x7b\x7b Version \x7d\x7d".toList, "\x7b\x7bVersion\x7d\x7d".toList]

/-- The text before the first occurrence of `needle`. -/
def beforeFirst (needle : Text) : Text → Option Text
  | [] => if needle = [] then some [] else none
  | c :: cs =>
    if needle.isPrefixOf (c :: cs) then some []
    else (beforeFirst needle cs).map (c :: ·)

/-- The text of a template before its version placeholder. -/
def extractTagPrefix (template : Text) : Option Text :=
  versionPlaceholders.findSome? fun p => beforeFirst p template

/-- Glue a namespace onto a value that does not spell it out already. -/
def composePrefix (ns value : Text) : Text :=
  if ns = [] || ns.isPrefixOf value then value else ns ++ value

def perCrateTagPrefix (name template : Text) : Text :=
  (extractTagPrefix template).getD (name ++ "-v".toList)

/-- The tags one template creates. -/
inductive TagFamilyScope
  | literal (p : Text)
  | bareVersion
  deriving DecidableEq, Repr

namespace TagFamilyScope

def contains : TagFamilyScope → Text → Bool
  | literal p, tag => p.isPrefixOf tag
  | bareVersion, tag => tag.head?.any Char.isDigit

end TagFamilyScope

/-- The tag without the prefix, if it has it. -/
def stripMonorepoPrefix (tag p : Text) : Text :=
  if p.isPrefixOf tag then tag.drop p.length else tag

def TagFamilyScope.strip : TagFamilyScope → Text → Text
  | literal p, tag => stripMonorepoPrefix tag p
  | bareVersion, tag => tag

/-- The family of a template, inside the monorepo namespace. -/
def tagFamilyScope (template : Text) (monorepoPrefix : Option Text) : Option TagFamilyScope :=
  let ns := monorepoPrefix.getD []
  match extractTagPrefix template with
  | some p =>
    if p ≠ [] then some (.literal (composePrefix ns p))
    else if ns = [] then some .bareVersion
    else some (.literal ns)
  | none => if ns = [] then none else some (.literal ns)

def tagFamilyPrefix (template : Text) (monorepoPrefix : Option Text) : Option Text :=
  (tagFamilyScope template monorepoPrefix).map fun
    | .literal p => p
    | .bareVersion => []

/-- The length of a text in bytes. -/
def byteLength (t : Text) : ℕ := (t.map Char.utf8Size).sum

/-- The prefixes of the sibling families narrower than the family of the template. -/
def excludedSiblingPrefixes (template : Text) (monorepoPrefix : Option Text)
    (siblings : List Text) : List Text :=
  let own := (tagFamilyPrefix template monorepoPrefix).getD []
  siblings.foldl (fun out sib =>
    match tagFamilyPrefix sib monorepoPrefix with
    | none => out
    | some p => if byteLength p > byteLength own && !out.contains p then out ++ [p] else out) []

/-! ### Nightly tags -/

def nightlyDelims : List Char := ['-', '.', '+']

/-- The text after the last `v` that a digit follows. -/
def afterLastVersionMark : Text → Option Text
  | [] => none
  | c :: cs =>
    match afterLastVersionMark cs with
    | some rest => some rest
    | none => if c = 'v' && cs.head?.any Char.isDigit then some cs else none

/-- The marker word at a position, in view of the character before it. -/
def nightlyStep (prev : Option Char) (c : Char) (cs : Text) :
    Scan.Step (Option Char) Char Bool :=
  if "nightly".toList.isPrefixOf (c :: cs) then
    let rest := (c :: cs).drop 7
    ⟨[prev.any (nightlyDelims.contains ·) && rest.head?.all (nightlyDelims.contains ·)],
      some 'y', rest⟩
  else ⟨[], some c, cs⟩

/-- The version part of the tag carries the nightly marker. -/
def isNightlyTag (tag : Text) : Bool :=
  tag = "nightly".toList ||
    (Scan.scan nightlyStep none ((afterLastVersionMark tag).getD tag)).any id

example : isNightlyTag "v1.2.3-abc-nightly".toList := by decide
example : ¬ isNightlyTag "app-nightly-v1.0.0".toList := by decide

/-! ### Filters -/

/-- The ignore configuration, its patterns rendered and its globs compiled. -/
structure Ignore where
  globs : List (Text → Bool)
  prefixes : List Text

namespace Ignore

def byGlob (ign : Ignore) (tag : Text) : Bool := ign.globs.any (· tag)

/-- A configured prefix applies. An empty one counts unless it is skipped. -/
def byPrefix (ign : Ignore) (skipEmpty : Bool) (tag : Text) : Bool :=
  ign.prefixes.any fun p => (!skipEmpty || p ≠ []) && p.isPrefixOf tag

end Ignore

/-- The form of a tag that the ignore filters see. -/
inductive IgnoreMatchTarget
  | stripped
  | full
  deriving DecidableEq, Repr

/-- The tags of a scope that survive the filters, with their versions. -/
def semverPairsFiltered (u : CharTables) (tags : List Text) (scope : Option TagFamilyScope)
    (ign : Ignore) (target : IgnoreMatchTarget) (skipEmpty : Bool) : List (SemVer × Text) :=
  let strip tag := (scope.map fun s => s.strip tag).getD tag
  let view tag := if target = .stripped then strip tag else tag
  (tags.filter fun t => !isNightlyTag t && (scope.map fun s => s.contains t).getD true &&
    !ign.byGlob (view t) && !ign.byPrefix skipEmpty (view t)).filterMap fun t =>
      (parseSemverTag u (strip t)).map fun v => (v, t)

end Anodizer.Git
