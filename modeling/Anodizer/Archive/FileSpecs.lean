import Anodizer.Lib.Utf8
import Anodizer.PublishOnly.Registry
import Mathlib.Control.Monad.Basic
import Mathlib.Data.List.DropRight

/-! # Files for an archive

An entry of the configuration matches files on the disk. With a destination, every match is placed
below it by its path relative to a directory of all matches.
-/

namespace Anodizer.FileSpecs

open PublishOnly (components isAbsolute joinPath normalizePathSeparators)
open Template (Text)

/-! ### The common prefix -/

/-- Why no files are resolved. -/
inductive Stop
  | panicked
  | failed (message : Text)
  deriving DecidableEq, Repr

/-- One more text. A slice that ends inside of a character panics. -/
def shorten (lcp s : Text) : Except Stop Text :=
  match Utf8.cutAt lcp (Utf8.commonLength (Utf8.encode lcp) (Utf8.encode s)) with
  | some t => .ok t
  | none => .error .panicked

def longestCommonPrefix : List Text → Except Stop Text
  | [] => .ok []
  | s :: strs => strs.foldlM shorten s

/-! ### Paths -/

/-- A part between two separators that is a component behind the first one. -/
def isPart (part : Text) : Bool := part ≠ [] && part ≠ ".".toList

/-- The parts behind the first components. -/
def behind : ℕ → List Text → List Text
  | 0, parts => parts
  | _ + 1, [] => []
  | n + 1, part :: parts => if isPart part then behind n parts else behind (n + 1) parts

/-- The parts up to the last component. -/
def trimmed (parts : List Text) : List Text := parts.rdropWhile (!isPart ·)

/-- What is left of a path behind its first components, as it is spelled. -/
def remainder (p : Text) : ℕ → Text
  | 0 =>
    let parts := p.splitOn '/'
    let rest := trimmed parts.tail
    if rest = [] ∧ isAbsolute p then "/".toList
    else ['/'].intercalate (parts.headD [] :: rest)
  | n + 1 =>
    ['/'].intercalate (trimmed ((behind n (p.splitOn '/').tail).dropWhile (!isPart ·)))

/-- What is left of a path below a directory, which is given by its components. -/
def stripPrefix (base : List Text) (p : Text) : Option Text :=
  if base <+: components p then some (remainder p base.length) else none

/-- The components of the directory that holds a path. -/
def parent (p : Text) : List Text := (components p).dropLast

def normalizeArchivePath (p : Text) : Text := normalizePathSeparators p

/-- The last component of a path, when it is a name. -/
def fileName (p : Text) : Option Text :=
  (components p).getLast?.filter fun c => c ≠ [] && c ≠ ".".toList && c ≠ "..".toList

/-! ### Entries -/

/-- The files, and what a pattern matches: nothing when it is no pattern, and of each match
nothing when it cannot be read. -/
structure Disk where
  isDir : Text → Bool
  pathExists : Text → Bool
  glob : Text → Option (List (Option Text))

/-- An entry of the configuration. -/
inductive ArchiveFileSpec (ι : Type)
  | glob (pattern : Text)
  | detailed (src : Text) (dst : Option Text) (info : Option ι) (stripParent : Option Bool)

structure ResolvedExtraFile (ι : Type) where
  src : Text
  dst : Option Text
  info : Option ι
  stripParent : Bool
  isDefault : Bool
  deriving DecidableEq, Repr

section Resolve

variable {ι : Type} (disk : Disk)

def isGlob (pattern : Text) : Bool := pattern.any fun c => c = '*' || c = '?' || c = '['

def resolveGlobPatterns (pattern : Text) : Except Stop (List Text) :=
  if isGlob pattern then
    match disk.glob pattern with
    | none => .error (.failed ("invalid glob pattern: ".toList ++ pattern))
    | some entries => entries.mapM fun entry =>
      match entry with
      | none => .error (.failed ("glob error for pattern: ".toList ++ pattern))
      | some path => .ok path
  else .ok (if disk.pathExists pattern then [pattern] else [])

/-- A path that is no pattern and matches nothing. -/
def guardLiteralUnmatched (pattern : Text) (paths : List Text) (strict : Bool) : Except Stop Unit :=
  if ¬ isGlob pattern ∧ paths = [] ∧ strict then
    .error (.failed ("files: entry '".toList ++ pattern ++
      "' does not exist — omitted from the archive (strict mode)".toList))
  else .ok ()

/-- The directory that matches are placed relative to. -/
def prefixDir (lcp : Text) : List Text := if disk.isDir lcp then components lcp else parent lcp

/-- The destination of a match below the destination of its entry. -/
def destination (dstPrefix : Text) (base : List Text) (p : Text) : Text :=
  normalizeArchivePath (joinPath dstPrefix ((stripPrefix base p).getD p))

def resolveSpec (strict : Bool) :
    ArchiveFileSpec ι → Except Stop (List (ResolvedExtraFile ι))
  | .glob pattern => do
    let paths ← resolveGlobPatterns disk pattern
    guardLiteralUnmatched pattern paths strict
    .ok (paths.map fun p => ⟨p, none, none, false, false⟩)
  | .detailed src dst info stripParent => do
    let paths ← resolveGlobPatterns disk src
    guardLiteralUnmatched src paths strict
    match dst, stripParent.getD false with
    | some dstPrefix, false => do
      let lcp ← longestCommonPrefix paths
      let base := prefixDir disk lcp
      .ok (paths.map fun p => ⟨p, some (destination dstPrefix base p), info, false, false⟩)
    | some dstPrefix, true =>
      .ok (paths.map fun p =>
        ⟨p, some (normalizeArchivePath (joinPath dstPrefix ((fileName p).getD []))), info, false,
          false⟩)
    | none, doStrip => .ok (paths.map fun p => ⟨p, none, info, doStrip, false⟩)

def resolveFileSpecs (strict : Bool) (specs : List (ArchiveFileSpec ι)) :
    Except Stop (List (ResolvedExtraFile ι)) :=
  (specs.mapM (resolveSpec disk strict)).map List.flatten

end Resolve

end Anodizer.FileSpecs
