import Anodizer.Template.StringLit

/-! # The artifacts of a preserved dist

The manifests of the shards are folded into one registry. A path that several
shards produced alike is kept once.
-/

namespace Anodizer.PublishOnly

open Template (Text)

/-! ### Paths -/

def isAbsolute (p : Text) : Bool := p.head? = some '/'

/-- The components of a path, by which paths are compared. A root is an empty component, and only
a leading dot counts. -/
def components (p : Text) : List Text :=
  let parts := (p.splitOn '/').filter (· ≠ [])
  if isAbsolute p then [] :: parts.filter (· ≠ ".".toList)
  else
    match parts with
    | [] => []
    | first :: rest => first :: rest.filter (· ≠ ".".toList)

def samePath (p q : Text) : Bool := components p = components q

/-- The place of a path on the disk, seen from the working directory. -/
def location (cwd p : Text) : List Text :=
  if isAbsolute p then (components p).tail
  else (components cwd).tail ++ (components p).filter (· ≠ ".".toList)

def joinPath (base rel : Text) : Text :=
  if isAbsolute rel || base = [] then rel
  else if base.getLast? = some '/' then base ++ rel
  else base ++ '/' :: rel

def stripPathPrefix (base p : Text) : Option Text :=
  if (components base).isPrefixOf (components p) then
    some (List.intercalate "/".toList ((components p).drop (components base).length))
  else none

def normalizePathSeparators (p : Text) : Text := p.map fun c => if c = '\\' then '/' else c

/-! ### Artifacts -/

inductive ArtifactKind
  | binary | uploadableBinary | universalBinary | library | header | cArchive | cShared | wasm
  | archive | sourceArchive | makeself | appImage | installScript
  | linuxPackage | snap | publishableSnapcraft | flatpak | sourceRpm
  | diskImage | installer | macOsPackage
  | dockerImage | dockerImageV2 | publishableDockerImage | dockerManifest | dockerDigest
  | brewFormula | brewCask | nixpkg | scoopManifest | publishableChocolatey | wingetInstaller
  | wingetDefaultLocale | wingetVersion | pkgBuild | srcInfo | sourcePkgBuild | sourceSrcInfo
  | krewPluginManifest
  | checksum | signature | certificate | sbom | metadata | uploadableFile
  deriving DecidableEq, Repr

namespace ArtifactKind

def isDerivedSidecar (kind : ArtifactKind) : Bool :=
  kind ∈ [checksum, signature, certificate, metadata]

/-- The path of an image is a reference, not a file. -/
def isImageReference (kind : ArtifactKind) : Bool :=
  kind ∈ [dockerImage, dockerImageV2, publishableDockerImage, dockerManifest, dockerDigest]

def isSignature (kind : ArtifactKind) : Bool := kind ∈ [signature, certificate]

end ArtifactKind

structure Artifact where
  kind : ArtifactKind
  path : Text
  target : Option Text
  metadata : List (Text × Text)
  size : Option ℕ
  deriving DecidableEq, Repr

namespace Artifact

def metadataGet (a : Artifact) (key : Text) : Option Text :=
  (a.metadata.find? (·.1 = key)).map (·.2)

def isDirectoryBundle (a : Artifact) : Bool :=
  a.kind = .installer && a.metadataGet "format".toList = some "appbundle".toList

def isUnpreservedRawBinary (a : Artifact) : Bool :=
  (a.kind = .binary || a.kind = .universalBinary) && "_preserved-bin".toList ∉ components a.path

/-- An entry with the metadata of a later one of the same kind and path. -/
def absorb (a later : Artifact) : Artifact :=
  { a with
    metadata := later.metadata.foldl
      (fun metadata entry => entry :: metadata.filter (·.1 ≠ entry.1)) a.metadata
    size := a.size.or later.size }

end Artifact

/-! ### The registry -/

def resolveStoredPath (cwd path : Text) (kind : ArtifactKind) : Text :=
  let relative :=
    if !kind.isImageReference && isAbsolute path && (components cwd).tail ≠ [] then
      (stripPathPrefix cwd path).getD path
    else path
  normalizePathSeparators relative

/-- Merge a sidecar into the entry it repeats, if there is one. -/
def absorbFirst (a : Artifact) : List Artifact → Option (List Artifact)
  | [] => none
  | b :: l =>
    if b.kind = a.kind && samePath b.path a.path then some (b.absorb a :: l)
    else (absorbFirst a l).map (b :: ·)

def addArtifact (cwd : Text) (registry : List Artifact) (a : Artifact) : List Artifact :=
  let a := { a with path := resolveStoredPath cwd a.path a.kind }
  let absorbed := if a.kind.isDerivedSidecar then absorbFirst a registry else none
  absorbed.getD (registry ++ [a])

/-- Anchor a path of the harness's `dist` at the directory that is published. -/
def anchorPath (dist path : Text) : Text :=
  let rel :=
    if "./dist/".toList.isPrefixOf path then some (path.drop 7)
    else if "dist/".toList.isPrefixOf path then some (path.drop 5)
    else none
  match rel with
  | some rel => joinPath dist rel
  | none => path

def loadArtifact (cwd dist : Text) (registry : List Artifact) (a : Artifact) : List Artifact :=
  let rewritten := anchorPath dist a.path
  if a.target.isNone &&
      registry.any fun existing => existing.target.isNone && samePath existing.path rewritten then
    registry
  else addArtifact cwd registry { a with path := rewritten }

def loadArtifactsFromManifest (cwd dist : Text) (registry manifest : List Artifact) :
    List Artifact :=
  manifest.foldl (loadArtifact cwd dist) registry

/-- Keep the first entry of a path among those without a target. -/
def dedupeTargetlessDuplicates : List (List Text) → List Artifact → List Artifact
  | _, [] => []
  | seen, a :: l =>
    if a.target.isSome then a :: dedupeTargetlessDuplicates seen l
    else if components a.path ∈ seen then dedupeTargetlessDuplicates seen l
    else a :: dedupeTargetlessDuplicates (components a.path :: seen) l

/-- The paths that occur more than once. -/
def duplicatePaths (registry : List Artifact) : List (List Text) :=
  let paths := registry.map fun a => components a.path
  (paths.filter fun p => 1 < paths.count p).dedup

def removeByPaths (registry : List Artifact) (paths : List Text) : List Artifact :=
  registry.filter fun a => !paths.any (samePath · a.path)

/-! ### Facts -/

variable {registry : List Artifact}

theorem duplicatePaths_eq_nil :
    duplicatePaths registry = [] ↔ registry.Pairwise fun a b => ¬samePath a.path b.path := by
  have hnodup : duplicatePaths registry = [] ↔
      (registry.map fun a => components a.path).Nodup := by
    rw [duplicatePaths]
    generalize (registry.map fun a => components a.path) = paths
    rw [List.nodup_iff_count_le_one]
    constructor
    · intro h p
      by_contra hcount
      have hmem : p ∈ paths := List.count_pos_iff.mp (by omega)
      have hdup : p ∈ (paths.filter fun p => 1 < paths.count p).dedup := by
        rw [List.mem_dedup, List.mem_filter, decide_eq_true_eq]
        exact ⟨hmem, by omega⟩
      rw [h] at hdup
      exact absurd hdup List.not_mem_nil
    · intro h
      have hnil : (paths.filter fun p => 1 < paths.count p) = [] := by
        rw [List.filter_eq_nil_iff]
        intro p _
        have hle := h p
        rw [decide_eq_true_eq]
        omega
      rw [hnil, List.dedup_nil]
  rw [hnodup, List.Nodup, List.pairwise_map]
  simp [samePath]

end Anodizer.PublishOnly
