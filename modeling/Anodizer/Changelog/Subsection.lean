import Anodizer.Changelog.Promote
import Anodizer.Lib.Cuts

/-! # Subsections of the unreleased changes

A root that several crates share keeps the changes of each crate under a
heading of its own. A refresh writes the subsection of one crate, a promotion
takes it out and builds the released section from it.
-/

namespace Anodizer.Changelog

open Template (Text CharTables)

def joinLines (ls : List Text) : Text := ['\n'].intercalate ls

def h3 : Text := "### ".toList

/-- The name in a heading of the third level. -/
def isSubsectionHeading (line : Text) : Option Text := do
  let rest ← h3.isPrefixOf? (trimEnd line)
  if rest.head? = some '#' then none
  else
    let name := Template.trim rest
    if name = [] then none else some name

/-- The heading of the subsection of a crate. -/
def opensCrate (crateName line : Text) : Bool := isSubsectionHeading line = some crateName

/-- The unreleased changes end here. -/
def endsBlock (line : Text) : Bool := isSectionHeading line || (parseUnreleasedFooter line).isSome

/-- A subsection ends here. -/
def endsSubsection (line : Text) : Bool := (isSubsectionHeading line).isSome || endsBlock line

/-! ### Refreshing -/

def demoteLine (line : Text) : Text :=
  match h3.isPrefixOf? line with
  | some rest => if rest.head? = some '#' then line else "#### ".toList ++ rest
  | none => line

def demoteGroupHeadings (body : Text) : Text := joinLines ((Lines.lines body).map demoteLine)

def wrapSubsection (crateName body : Text) : Text :=
  if body = [] then [] else h3 ++ crateName ++ "\n\n".toList ++ body

def kacSkeleton (h1 body : Text) : Text :=
  h1 ++ "\n\n## [Unreleased]\n".toList ++ if body = [] then [] else '\n' :: body ++ ['\n']

def insertUnreleasedAfterH1 (lines : List Text) (h1 body : Text) (trailingNewline : Bool) : Text :=
  match cutAfter isTitle lines with
  | none =>
    let skeleton := kacSkeleton h1 body
    if lines = [] then skeleton
    else finish [trimEnd skeleton, [], joinLines lines] trailingNewline
  | some (head, tail) =>
    let body := if body = [] then [] else [] :: Lines.lines body
    let tail := if tail.head?.any isBlank then tail.tail else tail
    finish (head ++ [[], "## [Unreleased]".toList] ++ body ++
      if tail = [] then [] else [] :: tail) trailingNewline

/-- The root with another subsection for the crate, its other lines as they are. -/
def replaceCrateSubsectionBody (existing : Option Text) (h1 crateName body : Text) : Text :=
  let nestedBody := demoteGroupHeadings body
  let subsection := wrapSubsection crateName nestedBody
  match existing with
  | none => kacSkeleton h1 subsection
  | some existing =>
    let lines := Lines.lines existing
    let trailingNewline : Bool := existing.getLast? = some '\n'
    match cutAfter isUnreleasedHeading lines with
    | none => insertUnreleasedAfterH1 lines h1 subsection trailingNewline
    | some (head, rest) =>
      let block := rest.takeWhile fun line => !endsBlock line
      let tail := rest.dropWhile fun line => !endsBlock line
      if nestedBody = [] then existing
      else
        match cutAfter (opensCrate crateName) block with
        | some (before, sub) =>
          finish (head ++ before ++ [[]] ++ Lines.lines nestedBody ++ [[]] ++
            (sub.dropWhile fun line => !endsSubsection line) ++ tail) trailingNewline
        | none =>
          finish (head ++ block.rdropWhile isBlank ++ [[]] ++ Lines.lines subsection ++ [[]] ++ tail)
            trailingNewline

/-! ### Groups -/

structure ChangelogGroup where
  title : Text
  regexp : Option Text
  order : Option ℤ

inductive PromoteError
  | invalidGroupRegex (pattern title message : Text)
  | date (message : Text)

/-- A matcher for a group, or nothing when it takes every bullet. -/
abbrev Compiled := Option (Text → Bool) × ChangelogGroup

section Groups

variable (regex : Text → Except Text (Text → Bool))

def compileGroup (g : ChangelogGroup) : Except PromoteError Compiled :=
  match g.regexp.filter (· ≠ []) with
  | none => .ok (none, g)
  | some p =>
    match regex p with
    | .ok re => .ok (some re, g)
    | .error e => .error (.invalidGroupRegex p g.title e)

def compileGroupRegexes (groups : List ChangelogGroup) : Except PromoteError (List Compiled) :=
  groups.mapM (compileGroup regex)

/-- The payload of a bullet. -/
def stripListMarker (line : Text) : Option Text :=
  let t := Template.trimStart line
  ((("- ".toList).isPrefixOf? t).or ("* ".toList.isPrefixOf? t)).map Template.trimStart

/-- The first group that matches, up to the first that takes every bullet. -/
def classify (compiled : List Compiled) (raw : Text) : Option ℕ :=
  let matchers := compiled.takeWhile (·.1.isSome)
  (matchers.findIdx? fun c => c.1.any (· raw)).or (compiled.findIdx? (·.1.isNone))

theorem classify_lt {compiled : List Compiled} {raw : Text} {i : ℕ} (h : classify compiled raw = some i) :
    i < compiled.length := by
  rw [classify, Option.or_eq_some_iff] at h
  rcases h with h | ⟨-, h⟩
  · have hlt := (List.findIdx?_eq_some_iff_getElem.mp h).1
    exact hlt.trans_le (List.takeWhile_sublist _).length_le
  · exact (List.findIdx?_eq_some_iff_getElem.mp h).1

/-- The lines of each group, the lines of none, and the group of the last bullet. -/
structure Buckets where
  buckets : List (List Text)
  unmatched : List Text
  last : Option ℕ

def Buckets.put (s : Buckets) (line : Text) : Option ℕ → Buckets
  | some i => { s with buckets := s.buckets.modify i (· ++ [line]) }
  | none => { s with unmatched := s.unmatched ++ [line] }

/-- A line that is no bullet goes where the bullet before it went. -/
def Buckets.push (compiled : List Compiled) (s : Buckets) (line : Text) : Buckets :=
  match stripListMarker line with
  | none => s.put line s.last
  | some raw => { s.put line (classify compiled raw) with last := classify compiled raw }

def bucketed (compiled : List Compiled) (curated : List Text) : Buckets :=
  curated.foldl (Buckets.push compiled) ⟨compiled.map fun _ => [], [], none⟩

def orderKey (compiled : List Compiled) (i : ℕ) : ℤ :=
  ((compiled[i]?).bind (·.2.order)).getD 2147483647

def groupTitle (compiled : List Compiled) (i : ℕ) : Text := ((compiled[i]?).map (·.2.title)).getD []

/-- The lines of a group, under its heading. -/
def emitGroup (compiled : List Compiled) (s : Buckets) (i : ℕ) : List Text :=
  match (s.buckets[i]?).getD [] with
  | [] => []
  | line :: bucket => (h3 ++ groupTitle compiled i) :: line :: bucket

def bucketLines (compiled : List Compiled) (curated : List Text) : List Text :=
  let s := bucketed compiled curated
  let indexed := (List.range compiled.length).mergeSort
    fun i j => orderKey compiled i ≤ orderKey compiled j
  indexed.flatMap (emitGroup compiled s) ++ s.unmatched

def bucketCuratedBullets (curated : List Text) (groups : List ChangelogGroup) :
    Except PromoteError Text :=
  if groups = [] then .ok (joinLines curated)
  else (compileGroupRegexes regex groups).map fun compiled => joinLines (bucketLines compiled curated)

/-! ### Promoting -/

structure PromoteArgs where
  existing : Text
  crateName : Text
  tag : Text
  fromTag : Option Text
  chronology : Chronology
  groups : List ChangelogGroup
  generatedBody : Text
  base : Option Text

/-- The lines of the subsection of a crate. -/
def curatedLines (crateName : Text) (block : List Text) : List Text :=
  match cutAfter (opensCrate crateName) block with
  | some (_, sub) => (sub.takeWhile fun line => !endsSubsection line).filter fun line => !isBlank line
  | none => []

/-- The section that a promotion builds from the lines of the unreleased changes. -/
def releasedSection (today : Except Text Text) (args : PromoteArgs) (block : List Text) :
    Except PromoteError (Option (List Text)) := do
  let curated := curatedLines args.crateName block
  let body ←
    if curated ≠ [] then (bucketCuratedBullets regex curated args.groups).map some
    else if args.generatedBody ≠ [] then .ok (some args.generatedBody)
    else .ok none
  match body with
  | none => .ok none
  | some body => ((buildPromotedSection today args.tag body).mapError .date).map some

/-- The unreleased changes without the subsection of the crate, up to a blank line. -/
def rebuildUnreleased (head block : List Text) (crateName : Text) : List Text :=
  let kept :=
    match cutAfter (opensCrate crateName) block with
    | some (before, sub) => before.dropLast ++ sub.dropWhile fun line => !endsSubsection line
    | none => block
  (head ++ kept).rdropWhile isBlank ++ [[]]

def promoteSubsection (u : CharTables) (today : Except Text Text) (args : PromoteArgs) :
    Except PromoteError (Option Text) :=
  let lines := Lines.lines args.existing
  if lines.any (isVersionHeading · args.tag) then .ok (some args.existing)
  else
    match cutAfter isUnreleasedHeading lines with
    | none => .ok (some args.existing)
    | some (head, rest) =>
      let block := rest.takeWhile fun line => !endsBlock line
      let tail := rest.dropWhile fun line => !endsBlock line
      (releasedSection regex today args block).map fun section? => section?.map fun promoted =>
        let out := appendSlottedSection u (rebuildUnreleased head block args.crateName) tail promoted
          args.tag args.fromTag args.chronology args.base
        joinLines out ++ if args.existing.getLast? = some '\n' then ['\n'] else []

end Groups

end Anodizer.Changelog
