import Anodizer.Git.TagQueries
import Anodizer.VersionFiles.Plan

/-! # Rewriting the enrolled files

All files are read and rewritten in memory, and then written. In a file the
anchored entries claim their regions before the sweep of the bare ones.
-/

namespace Anodizer.VersionFiles

open Regex
open Template (Text CharTables)

/-- The compiler of the anchors: a pattern to the regions that it selects in a text. -/
structure RegexCrate where
  escape : Text → Text
  compile : Text → Option (Text → List (ℕ × ℕ))

inductive RewriteError
  | placeholder (path anchor : Text)
  | badRegex (path : Text)
  | unmatched (owner path anchor old : Text)
  | read (path : Text)
  | write (path : Text)
  deriving DecidableEq, Repr

structure RewriteOutcome where
  path : Text
  anchor : Option Text
  replacements : ℕ
  matchedRegions : Option ℕ
  deriving DecidableEq, Repr

/-! ### One entry -/

section Entry

variable (rx : RegexCrate) (u : CharTables)

def versionToken : Text := "\x7bversion\x7d".toList

/-- The matcher of an anchor for a version. -/
def anchorRegex (path anchor version : Text) : Except RewriteError (Text → List (ℕ × ℕ)) :=
  if ¬ versionToken <:+: anchor then .error (.placeholder path anchor)
  else
    match rx.compile (Git.replaceText versionToken (rx.escape version) anchor) with
    | some find => .ok find
    | none => .error (.badRegex path)

/-- The regions of an anchored entry, of which there must be one. -/
def entryRegions (original : Text) (r : FileRewrite) :
    Except RewriteError (Option (List (ℕ × ℕ))) :=
  match r.anchor with
  | none => .ok none
  | some anchor => do
    let find ← anchorRegex rx r.path anchor r.old
    if find original = [] then .error (.unmatched r.owner r.path anchor r.old)
    else .ok (some (find original))

/-- What an entry claims, with the number of its replacements and of its regions. -/
def applyEntry (original : Text) (c : Claimed) (r : FileRewrite) :
    Except RewriteError (Claimed × ℕ × Option ℕ) := do
  let regions ← entryRegions rx original r
  if r.old = r.new then .ok (c, 0, regions.map List.length)
  else
    match regions with
    | none =>
      let (c', n) :=
        claimOccurrences original (0, original.length) (occurrenceRe u r.old) r.new c
      .ok (c', n, none)
    | some regions =>
      let (c', n) := regions.foldl (fun s region =>
        let (c', n) := claimOccurrences original region (occurrenceRe u r.old) r.new s.1
        (c', s.2 + n)) (c, 0)
      .ok (c', n, some regions.length)

end Entry

/-! ### One file -/

section File

variable (rx : RegexCrate) (u : CharTables)

/-- Anchored entries come first, and in each half the longest old version. -/
def appliedBefore (a b : FileRewrite × ℕ) : Prop :=
  (b.1.anchor.isNone ∧ a.1.anchor.isSome) ∨
    (a.1.anchor.isNone = b.1.anchor.isNone ∧ byteLen b.1.old ≤ byteLen a.1.old)

instance (a b : FileRewrite × ℕ) : Decidable (appliedBefore a b) :=
  inferInstanceAs (Decidable (_ ∨ _))

/-- The outcome of an entry, by its place in the plan. -/
abbrev Counts := List (ℕ × ℕ × Option ℕ)

def stepEntry (original : Text) (s : Claimed × Counts) (r : FileRewrite × ℕ) :
    Except RewriteError (Claimed × Counts) := do
  let (c, count) ← applyEntry rx u original s.1 r.1
  .ok (c, (r.2, count) :: s.2)

def applyEntries (original : Text) (entries : List (FileRewrite × ℕ)) :
    Except RewriteError (Claimed × Counts) :=
  (entries.insertionSort appliedBefore).foldlM (stepEntry rx u original) (⟨[], []⟩, [])

end File

/-! ### All files -/

section Files

variable {φ : Type} [DecidableEq φ] (rx : RegexCrate) (u : CharTables)

/-- The files of a repository: which file a path names, and the text of each. -/
structure Disk (φ : Type) where
  file : Text → φ
  content : φ → Option Text

def Disk.read (disk : Disk φ) (path : Text) : Option Text := disk.content (disk.file path)

def Disk.write (disk : Disk φ) (path body : Text) : Disk φ :=
  { disk with content := Function.update disk.content (disk.file path) (some body) }

/-- The entries of each path, in the order in which the paths are seen. -/
def pathGroups (rewrites : List FileRewrite) : List (Text × List (FileRewrite × ℕ)) :=
  (firstSeen (rewrites.map (·.path))).map fun path =>
    (path, rewrites.zipIdx.filter (·.1.path = path))

def stepFile (disk : Disk φ) (s : Counts × List (Text × Text))
    (g : Text × List (FileRewrite × ℕ)) : Except RewriteError (Counts × List (Text × Text)) :=
  match disk.read g.1 with
  | none => .error (.read g.1)
  | some original => do
    let (c, counts) ← applyEntries rx u original g.2
    .ok (counts ++ s.1,
      if c.edits = [] then s.2 else s.2 ++ [(g.1, applyEdits original c.edits)])

/-- Read and rewrite all files in memory. -/
def rewriteInMemory (disk : Disk φ) (rewrites : List FileRewrite) :
    Except RewriteError (Counts × List (Text × Text)) :=
  (pathGroups rewrites).foldlM (stepFile rx u disk) ([], [])

/-- Write the files one after the other, up to the first write that fails. -/
def writeAll (canWrite : Text → Bool) : Disk φ → List (Text × Text) →
    Disk φ × Except RewriteError Unit
  | disk, [] => (disk, .ok ())
  | disk, (path, body) :: pending =>
    if canWrite path then writeAll canWrite (disk.write path body) pending
    else (disk, .error (.write path))

def outcomes (rewrites : List FileRewrite) (counts : Counts) : List RewriteOutcome :=
  rewrites.zipIdx.map fun r =>
    let (n, regions) := (counts.lookup r.2).getD (0, none)
    ⟨r.1.path, r.1.anchor, n, regions⟩

def rewriteVersionInFiles (canWrite : Text → Bool) (disk : Disk φ) (rewrites : List FileRewrite)
    (dryRun : Bool) : Disk φ × Except RewriteError (List RewriteOutcome) :=
  match rewriteInMemory rx u disk rewrites with
  | .error e => (disk, .error e)
  | .ok (counts, pending) =>
    if dryRun then (disk, .ok (outcomes rewrites counts))
    else
      let (disk', written) := writeAll canWrite disk pending
      (disk', written.map fun _ => outcomes rewrites counts)

end Files

end Anodizer.VersionFiles
