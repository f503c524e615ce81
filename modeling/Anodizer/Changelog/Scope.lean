import Anodizer.Changelog.Headings

/-! # The paths of a changelog

A changelog is about some directories. The configured paths narrow them, unless they cover all of
them: then the commits need no filter. Whether they do is found by comparing texts, while the
filter matches the paths as patterns.
-/

namespace Anodizer.Changelog.Scope

open Template (Text)

def workspaceManifests : List Text := ["Cargo.toml".toList, "Cargo.lock".toList]

structure ChangelogScope where
  dirs : List Text
  narrow : Option (List Text)
  deriving DecidableEq, Repr

def trimDotSlash : Text → Text
  | '.' :: '/' :: path => trimDotSlash path
  | path => path

/-- A path as both tests read it. -/
def subject (path : Text) : Text := trimDotSlash (Template.trim path)

def normalizeDir (path : Text) : Option Text :=
  if subject path = [] ∨ subject path = ['.'] then none else some (subject path)

/-- The path is the directory, or lies in it. -/
def isIn (path dir : Text) : Bool := path = dir || (dir ++ ['/']).isPrefixOf path

/-! ### The filter -/

section Filter

variable (pattern : Text → Option (Text → Bool))

def pathMatchesGlob (glob file : Text) : Bool :=
  let glob := subject glob
  let file := subject file
  glob = [] || glob = ['.'] || (pattern glob).any (· file) || isIn file glob

def commitSurvivesNarrow (scope : ChangelogScope) (touchedFiles : List Text) : Bool :=
  match scope.narrow with
  | none => true
  | some globs => touchedFiles.any fun f => globs.any fun g => pathMatchesGlob pattern g f

end Filter

/-! ### The directories that the paths cover -/

def stripSuffix (suffix path : Text) : Option Text :=
  if suffix.isSuffixOf path then some (path.take (path.length - suffix.length)) else none

def trimEndSlashes (path : Text) : Text := path.rdropWhile (· = '/')

def recursionSuffixes : List Text := ["/**".toList, "/**/*".toList, "/*".toList, "**".toList]

def globCoversDir (p dir : Text) : Bool :=
  recursionSuffixes.any fun suffix => (stripSuffix suffix p).any fun base =>
    trimEndSlashes base = [] || isIn dir (trimEndSlashes base)

def dirCoveredBy (dir : Text) (paths : List Text) : Bool :=
  paths.any fun p =>
    match normalizeDir p with
    | none => true
    | some p => globCoversDir p dir || isIn dir p

def nonBlank (changelogPaths : List Text) : List Text :=
  changelogPaths.filter fun p => Template.trim p ≠ []

def resolveNarrow (derived changelogPaths : List Text) : Option (List Text) :=
  let paths := nonBlank changelogPaths
  if paths = [] then none
  else if derived = [] then some paths
  else if derived.all (dirCoveredBy · paths) then none
  else some paths

def isSoleCrate (cratePath : Text) (allCrateDirs : List Text) : Bool :=
  (normalizeDir cratePath).any fun dir => allCrateDirs.filterMap normalizeDir = [dir]

/-- The directories of all crates, each once. -/
def crateDirs (allCrateDirs : List Text) : List Text :=
  (allCrateDirs.filterMap normalizeDir).foldl (fun dirs d => if d ∈ dirs then dirs else dirs ++ [d]) []

def aggregateDirs (allCrateDirs : List Text) (monorepoDir : Option Text) : List Text :=
  let dirs := crateDirs allCrateDirs
  if dirs = [] then (monorepoDir.bind normalizeDir).toList else dirs ++ workspaceManifests

def derivedDirs (cratePath : Text) (allCrateDirs : List Text) (monorepoDir : Option Text) :
    List Text :=
  match normalizeDir cratePath with
  | some dir =>
    if isSoleCrate cratePath allCrateDirs then aggregateDirs allCrateDirs monorepoDir else [dir]
  | none => aggregateDirs allCrateDirs monorepoDir

def resolveChangelogScope (cratePath : Text) (allCrateDirs : List Text) (monorepoDir : Option Text)
    (changelogPaths : List Text) : ChangelogScope :=
  let derived := derivedDirs cratePath allCrateDirs monorepoDir
  ⟨derived, resolveNarrow derived changelogPaths⟩

end Anodizer.Changelog.Scope
