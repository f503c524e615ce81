import Anodizer.PublishOnly.Registry
import Anodizer.Split.Matrix

/-! # Publishing a preserved dist

The harness records a hash for every file it preserves. A publish-only run
compares the files with the records, folds the manifests into a registry, and
starts its pipeline on the registry.
-/

namespace Anodizer.PublishOnly

open Template (Text)
open Split (ordered)

/-! ### Context manifests -/

structure PreservedArtifact where
  path : Text
  sha256 : Text
  deriving DecidableEq, Repr

structure PreservedDistContext where
  artifacts : List PreservedArtifact
  targets : List Text
  version : Text
  commit : Text
  deriving DecidableEq, Repr

/-- Why a run does not start its pipeline. -/
inductive Reject
  | collision (base : Text)
  | unreadable (manifest : Text)
  | noContext
  | noCommit
  | commitMismatch (manifest commit merged : Text)
  | versionMismatch (manifest version merged : Text)
  | hashing (path : Text)
  | diverged (path : Text) (expected : List Text) (actual : Text)
  | noCurrentCommit (preserved : Text)
  | otherCommit (preserved current : Text)
  | duplicates (paths : List (List Text))
  | missing (paths : List Text)
  deriving DecidableEq, Repr

/-- The manifests of one family, by file name. A manifest may not parse. -/
abbrev Listing (α : Type) := List (Text × Option α)

def collides (base : Text) (names : List Text) : Bool :=
  base ++ ".json".toList ∈ names &&
    names.any fun name => (base ++ "-".toList).isPrefixOf name && ".json".toList.isSuffixOf name

def checkNoUnsuffixedSuffixedCollision {α : Type} (base : Text) (listing : Listing α) :
    Except Reject Unit :=
  if collides base (listing.map (·.1)) then .error (.collision base) else .ok ()

/-- The manifests in the order of their names. -/
def discover {α : Type} (listing : Listing α) : Except Reject (List (Text × α)) :=
  (listing.mergeSort fun a b => a.1 ≤ b.1).mapM fun entry =>
    match entry.2 with
    | some manifest => .ok (entry.1, manifest)
    | none => .error (.unreadable entry.1)

def discoverPreservedContexts (listing : Listing PreservedDistContext) :
    Except Reject (List (Text × PreservedDistContext)) := do
  let found ← discover listing
  if found = [] then .error .noContext else .ok found

/-- The first value that is recorded. -/
def firstRecorded (values : List Text) : Text := (values.find? (· ≠ [])).getD []

/-- The first manifest that records another value. -/
def firstMismatch (field : PreservedDistContext → Text) (merged : Text)
    (contexts : List (Text × PreservedDistContext)) : Option (Text × Text) :=
  (contexts.find? fun c => field c.2 ≠ [] && field c.2 ≠ merged).map fun c => (c.1, field c.2)

def mergePreservedContexts (contexts : List (Text × PreservedDistContext)) :
    Except Reject PreservedDistContext :=
  let merged : PreservedDistContext :=
    { artifacts := contexts.flatMap (·.2.artifacts)
      targets := ordered (contexts.flatMap (·.2.targets))
      version := firstRecorded (contexts.map (·.2.version))
      commit := firstRecorded (contexts.map (·.2.commit)) }
  if merged.commit = [] then .error .noCommit
  else
    match firstMismatch (·.commit) merged.commit contexts with
    | some (manifest, commit) => .error (.commitMismatch manifest commit merged.commit)
    | none =>
      match firstMismatch (·.version) merged.version contexts with
      | some (manifest, version) => .error (.versionMismatch manifest version merged.version)
      | none => .ok merged

/-! ### Hashes -/

abbrev Bytes := List UInt8

/-- The regular files, by their place. -/
abbrev Files := List Text → Option Bytes

def ephemeralSignatureSuffixes : List Text := [".sig".toList, ".asc".toList, ".pem".toList]

def isEphemeralSignaturePath (path : Text) : Bool :=
  ephemeralSignatureSuffixes.any (·.isSuffixOf path)

def hashPrefix : Text := "sha256:".toList

/-- A recorded hash, with its prefix. -/
def normalizeHash (h : Text) : Text := if hashPrefix.isPrefixOf h then h else hashPrefix ++ h

/-- What a run reads. -/
structure Input where
  cwd : Text
  dist : Text
  contexts : Listing PreservedDistContext
  manifests : Listing (List Artifact)
  files : Files
  sha256 : Bytes → Text
  fullCommit : Option Text
  dryRun : Bool
  metadataJson : Bytes

namespace Input

variable (input : Input)

def locate (path : Text) : List Text := location input.cwd path

def actualHash (bytes : Bytes) : Text := hashPrefix ++ input.sha256 bytes

/-- The hashes recorded for a path. -/
def recorded (artifacts : List PreservedArtifact) (path : Text) : List Text :=
  (artifacts.filter (·.path = path)).map fun a => normalizeHash a.sha256

def verifyPath (artifacts : List PreservedArtifact) (path : Text) : Except Reject Unit :=
  let full := joinPath input.dist path
  match input.files (input.locate full) with
  | none => .error (.hashing full)
  | some bytes =>
    if input.actualHash bytes ∈ recorded artifacts path then .ok ()
    else .error (.diverged full (ordered (recorded artifacts path)) (input.actualHash bytes))

/-- Every recorded file has one of the hashes recorded for it. -/
def hashVerifyPreservedDist (preserved : PreservedDistContext) : Except Reject Unit :=
  let checked := (preserved.artifacts.map (·.path)).filter fun p => !isEphemeralSignaturePath p
  (ordered checked).forM (input.verifyPath preserved.artifacts)

/-! ### The run -/

def rehydrate (manifests : List (Text × List Artifact)) : List Artifact :=
  dedupeTargetlessDuplicates []
    (manifests.foldl (fun registry m =>
      loadArtifactsFromManifest input.cwd input.dist registry m.2) [])

/-- The registry without signatures, and the files without theirs. -/
def stripEphemeralSignatures (registry : List Artifact) : List Artifact × Files :=
  let stale := (registry.filter (·.kind.isSignature)).map (·.path)
  (removeByPaths registry stale,
    fun place => if place ∈ stale.map input.locate then none else input.files place)

/-- The place that a path of the registry is read from: itself, or below the dist. -/
def placeOf (files : Files) (path : Text) : List Text :=
  if isAbsolute path || (files (input.locate path)).isSome then input.locate path
  else input.locate (joinPath input.dist path)

/-- The presence check does not look at these. -/
def unchecked (a : Artifact) : Bool :=
  a.kind = .metadata || a.isUnpreservedRawBinary || a.isDirectoryBundle

def detectMissingFiles (files : Files) (registry : List Artifact) : Except Reject Unit :=
  let missing := (registry.filter fun a =>
    !unchecked a && (files (input.placeOf files a.path)).isNone).map (·.path)
  if missing = [] then .ok () else .error (.missing (ordered missing))

def metadataPlace : List Text := input.locate (joinPath input.dist "metadata.json".toList)

def writeMetadataJson (files : Files) : Files := fun place =>
  if place = input.metadataPlace ∧ input.dryRun = false then some input.metadataJson
  else files place

/-- The merged view of the contexts, with its hashes verified. -/
def verifiedContext (contexts : List (Text × PreservedDistContext)) :
    Except Reject PreservedDistContext := do
  let preserved ← mergePreservedContexts contexts
  input.hashVerifyPreservedDist preserved
  return preserved

def checkCommit (preserved : PreservedDistContext) : Except Reject Unit :=
  let current := input.fullCommit.getD []
  if current = [] then .error (.noCurrentCommit preserved.commit)
  else if current ≠ preserved.commit then .error (.otherCommit preserved.commit current)
  else .ok ()

/-- The registry and the files that the pipeline starts with. -/
def runOneCrateDist : Except Reject (List Artifact × Files) := do
  checkNoUnsuffixedSuffixedCollision "context".toList input.contexts
  checkNoUnsuffixedSuffixedCollision "artifacts".toList input.manifests
  let contexts ← discoverPreservedContexts input.contexts
  let preserved ← input.verifiedContext contexts
  input.checkCommit preserved
  let manifests ← discover input.manifests
  let registry := input.rehydrate manifests
  if duplicatePaths registry ≠ [] then .error (.duplicates (duplicatePaths registry))
  else
    let (registry, files) := input.stripEphemeralSignatures registry
    input.detectMissingFiles files registry
    return (registry, input.writeMetadataJson files)

end Input

end Anodizer.PublishOnly
