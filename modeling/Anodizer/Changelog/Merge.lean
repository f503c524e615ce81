import Anodizer.Changelog.Reread

/-! # Merging a release

The section of a release is merged into the changelog of a crate. Where the file
has a heading for unreleased changes, these become the section. Elsewhere the
section goes behind the title.
-/

namespace Anodizer.Changelog

open Template (Text CharTables)

/-! ### Behind the title -/

def unlines (ls : List Text) : Text := ls.flatMap (· ++ ['\n'])

def spliceAfterH1 (existing newSection header : Text) : Text :=
  match cutAfter isTitle (Lines.lines existing) with
  | none => header ++ newSection ++ '\n' :: existing
  | some (head, tail) =>
    let blank := tail.head?.any isBlank
    unlines head ++ (if blank then ['\n'] else []) ++ newSection ++
      '\n' :: unlines (if blank then tail.tail else tail)

/-! ### The footer -/

/-- The text before the first occurrence of a separator, and the text behind it. -/
def splitAtFirst (sep : Text) : Text → Option (Text × Text)
  | [] => none
  | c :: s =>
    match sep.isPrefixOf? (c :: s) with
    | some rest => some ([], rest)
    | none => (splitAtFirst sep s).map fun ht => (c :: ht.1, ht.2)

/-- The base and the anchor of a link that compares with the head. -/
def parseCompareUrl (url : Text) : Option (Text × Text) := do
  let (base, rest) ← splitAtFirst "/compare/".toList url
  let anchor ← "...HEAD".toList.isSuffixOf? rest
  if anchor = [] then none else some (base, anchor)

section Roll

variable (u : CharTables)

def synthesizeFooter (out : List Text) (fromTag remoteBase : Option Text) (toVersion : Text) :
    List Text :=
  match fromTag, remoteBase with
  | some oldAnchor, some base =>
    out ++ (if out.getLast?.any (· ≠ []) then [[]] else []) ++
      pushCompareFooter base oldAnchor (tagPrefix u oldAnchor ++ toVersion) toVersion
  | _, _ => out

/-- The sections behind the unreleased changes, and the footer with the links of the release. -/
def rollFooter (out tail : List Text) (fromTag remoteBase : Option Text) (toVersion : Text) :
    List Text :=
  match tail.dropWhile notFooter with
  | [] => synthesizeFooter u (out ++ tail) fromTag remoteBase toVersion
  | footer :: rest =>
    match (parseUnreleasedFooter footer).bind parseCompareUrl with
    | none => out ++ tail
    | some (base, oldAnchor) =>
      out ++ tail.takeWhile notFooter ++
        pushCompareFooter base oldAnchor (tagPrefix u oldAnchor ++ toVersion) toVersion ++ rest

/-! ### The unreleased changes -/

structure MergeArgs where
  existing : Option Text
  h1 : Text
  newSection : Text
  generatedBody : Text
  fromTag : Option Text
  toVersion : Text
  remoteBase : Option Text

/-- The unreleased changes without the blank lines around them. -/
def curatedBody (body : List Text) : List Text := (body.dropWhile isBlank).rdropWhile isBlank

/-- The lines that take the place of the unreleased changes. -/
def promotedBlock (generatedBody toVersion date : Text) (body : List Text) : List Text :=
  ["## [Unreleased]".toList, [], heading toVersion date, []] ++
    (if curatedBody body = [] then Lines.lines generatedBody else curatedBody body) ++ [[]]

def rollKeepAChangelog (today : Except Text Text) (existing : Text) (args : MergeArgs) :
    Except Text Text :=
  let lines := Lines.lines existing
  if lines.any (isVersionHeading · args.toVersion) then .ok existing
  else
    match lines.dropWhile fun line => !isUnreleasedHeading line with
    | [] => .ok existing
    | _ :: rest =>
      today.map fun date =>
        let out := (lines.takeWhile fun line => !isUnreleasedHeading line) ++
          promotedBlock args.generatedBody args.toVersion date
            (rest.takeWhile fun line => !endsBlock line)
        joinLines (rollFooter u out (rest.dropWhile fun line => !endsBlock line) args.fromTag
          args.remoteBase args.toVersion) ++ if existing.getLast? = some '\n' then ['\n'] else []

/-- The changelog with the section of a release. -/
def mergeIntoChangelog (today : Except Text Text) (args : MergeArgs) : Except Text Text :=
  let header := args.h1 ++ "\n\n".toList
  match args.existing with
  | none => .ok (header ++ args.newSection)
  | some existing =>
    if (Lines.lines existing).any isUnreleasedHeading then rollKeepAChangelog u today existing args
    else .ok (spliceAfterH1 existing args.newSection header)

/-! ### A release of a crate -/

structure CrateRelease where
  h1 : Text
  version : Text
  body : Text
  date : Text
  fromTag : Option Text
  remoteBase : Option Text

namespace CrateRelease

def newSection (r : CrateRelease) : Text :=
  heading r.version r.date ++ ("\n\n".toList ++ (trimEnd r.body ++ ['\n']))

def args (r : CrateRelease) (existing : Option Text) : MergeArgs where
  existing
  h1 := r.h1
  newSection := r.newSection
  generatedBody := trimEnd r.body
  fromTag := r.fromTag
  toVersion := r.version
  remoteBase := r.remoteBase

def merge (r : CrateRelease) (existing : Text) : Except Text Text :=
  mergeIntoChangelog u (.ok r.date) (r.args (some existing))

end CrateRelease

def crateH1 (crateName : Text) : Text := "# Changelog — ".toList ++ crateName

/-- The changelog of a crate with the section of a release, unless there is nothing to say. -/
def renderCrateSection (today : Except Text Text) (crateName : Text) (existing body : Option Text)
    (fromTag : Option Text) (toVersion : Text) (remoteBase : Option Text) :
    Except Text (Option Text) :=
  match body with
  | none => .ok none
  | some body => do
    let date ← today
    let release : CrateRelease := ⟨crateH1 crateName, toVersion, body, date, fromTag, remoteBase⟩
    return some (← mergeIntoChangelog u today (release.args existing))

end Roll

end Anodizer.Changelog
