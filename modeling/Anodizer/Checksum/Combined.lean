import Anodizer.Lib.StableSort
import Anodizer.Checksum.Selection

/-! # The combined checksums file

The stage writes the file from the sources it selected. The refresh writes it again from the
registry, after signing. It only adds to the file exactly when both list the same digests under
each name, in the same order, or the refresh stops before it gets to the file.
-/

namespace Anodizer

namespace Checksum

open PublishOnly (ArtifactKind)
open Template (Text)

variable {Path : Type} [DecidableEq Path]

/-! ### The registry -/

namespace Artifact

/-- What a derived artifact is registered under. -/
def place (a : Artifact Path) : ArtifactKind × Path := (a.kind, a.path)

def named (files : Files Path) (a : Artifact Path) : Artifact Path :=
  if a.name = [] then
    { a with name := Template.trim ((files.fileName a.path).getD "artifact".toList) }
  else a

/-- A registered artifact with what it is registered with again. -/
def absorb (a later : Artifact Path) : Artifact Path :=
  { a with
    metadata := later.metadata.foldl (fun metadata e => metadata.insert e.1 e.2) a.metadata
    size := a.size.or later.size }

end Artifact

def absorbFirst (a : Artifact Path) : List (Artifact Path) → List (Artifact Path)
  | [] => []
  | b :: l => if b.place = a.place then b.absorb a :: l else b :: absorbFirst a l

def addArtifact (files : Files Path) (artifacts : List (Artifact Path)) (a : Artifact Path) :
    List (Artifact Path) :=
  if a.kind.isDerivedSidecar && a.place ∈ artifacts.map Artifact.place then
    absorbFirst (a.named files) artifacts
  else artifacts ++ [a.named files]

/-- The registered artifacts. A derived one is registered once. -/
structure Registry (Path : Type) [DecidableEq Path] where
  artifacts : List (Artifact Path)
  once : (artifacts.map Artifact.place).Pairwise fun x y => x.1.isDerivedSidecar → x ≠ y

theorem map_place_absorbFirst (a : Artifact Path) (artifacts : List (Artifact Path)) :
    (absorbFirst a artifacts).map Artifact.place = artifacts.map Artifact.place := by
  induction artifacts with
  | nil => rfl
  | cons b l ih =>
    rw [absorbFirst]
    split
    · rfl
    · rw [List.map_cons, List.map_cons, ih]

omit [DecidableEq Path] in
theorem place_named (files : Files Path) (a : Artifact Path) :
    (a.named files).place = a.place := by
  unfold Artifact.named
  split <;> rfl

theorem once_addArtifact (files : Files Path) (a : Artifact Path) {artifacts : List (Artifact Path)}
    (h : (artifacts.map Artifact.place).Pairwise fun x y => x.1.isDerivedSidecar → x ≠ y) :
    ((addArtifact files artifacts a).map Artifact.place).Pairwise
      fun x y => x.1.isDerivedSidecar → x ≠ y := by
  unfold addArtifact
  split
  · rwa [map_place_absorbFirst]
  · rename_i hnew
    rw [List.map_append, List.pairwise_append]
    refine ⟨h, by simp, ?_⟩
    intro x hx y hy hderived hxy
    obtain rfl : y = a.place := by simpa [place_named] using hy
    subst hxy
    exact hnew (by simp only [Artifact.place] at hderived; simpa [hderived] using hx)

namespace Registry

def add (files : Files Path) (r : Registry Path) (a : Artifact Path) : Registry Path where
  artifacts := addArtifact files r.artifacts a
  once := once_addArtifact files a r.once

def addAll (files : Files Path) (r : Registry Path) (more : List (Artifact Path)) :
    Registry Path := more.foldl (add files) r

end Registry

/-- The registry and the lines of the combined files on the disk. -/
structure Dist (Path : Type) [DecidableEq Path] where
  registry : Registry Path
  sums : Path → Option (List Text)

def writeLines (sums : Path → Option (List Text)) (p : Path) (lines : List Text) :
    Path → Option (List Text) := fun q => if q = p then some lines else sums q

/-! ### The stage -/

def supportedAlgorithms : List Text :=
  ["sha1", "sha224", "sha256", "sha384", "sha512", "sha3-224", "sha3-256", "sha3-384", "sha3-512",
    "blake2b", "blake2s", "blake3", "crc32", "md5"].map String.toList

def validateAlgorithm (algorithm : Text) : Except Text Unit :=
  if algorithm ∈ supportedAlgorithms then .ok ()
  else
    .error ("unsupported checksum algorithm: '".toList ++ algorithm ++ "'. Supported: ".toList ++
      List.intercalate ", ".toList supportedAlgorithms)

/-- The digests the publishers read, on every artifact of a path that was hashed. -/
def propagateChecksum (algorithm : Text) (checksums : List (Path × Text)) (a : Artifact Path) :
    Artifact Path :=
  match checksums.reverse.lookup a.path with
  | some hash =>
    { a with
      metadata := (a.metadata.orInsert "Checksum".toList (algorithm ++ ":".toList ++ hash)).orInsert
        algorithm hash }
  | none => a

theorem place_propagateChecksum (algorithm : Text) (checksums : List (Path × Text))
    (a : Artifact Path) : (propagateChecksum algorithm checksums a).place = a.place := by
  unfold propagateChecksum
  split <;> rfl

def Registry.propagateChecksumMetadata (r : Registry Path) (algorithm : Text)
    (checksums : List (Path × Text)) : Registry Path where
  artifacts := r.artifacts.map (propagateChecksum algorithm checksums)
  once := by
    have hplace : Artifact.place ∘ propagateChecksum algorithm checksums = Artifact.place :=
      funext (place_propagateChecksum algorithm checksums)
    rw [List.map_map, hplace]
    exact r.once

def defaultNameTemplate : Text := "{{ ProjectName }}_{{ Version }}_checksums.txt".toList

section Stage

variable (env : Env Path) (cfg : ResolvedChecksumConfig Path)

def combinedArtifact (crateName : Text) (path : Path) : Artifact Path where
  kind := .checksum
  name := filename env.toFiles path
  path := path
  target := none
  crateName := crateName
  metadata := [("algorithm".toList, cfg.algorithm), ("combined".toList, "true".toList)]
  size := none

/-- The digest of a source and its line. -/
def hashSource (a : Artifact Path) : Except Text (Text × Text) := do
  let hash ← computeArtifactHash env cfg a
  let name ← resolveChecksumDisplayName env cfg a
  return (hash, formatChecksumLine hash name)

/-- The digests of the sources by their paths, and the lines by the names they show. -/
def hashSources (sources : List (Artifact Path)) : Except Text (List (Path × Text) × List Text) := do
  let entries ← sources.mapM (hashSource env cfg)
  return ((sources.map (·.path)).zip (entries.map (·.1)),
    StableSort.sortBy sortKey (entries.map (·.2)))

/-- The stage on one crate in combined mode, outside a dry run: the combined file it wrote. -/
def checksumStage (dist : Path) (crateName : Text) (s : Dist Path) :
    Except Text (Option (Path × Dist Path)) := do
  validateAlgorithm cfg.algorithm
  let sources ← collectSourceArtifacts env cfg dist crateName s.registry.artifacts
  if sources = [] then return none
  let (checksums, lines) ← hashSources env cfg sources
  let name ← withContext ("checksum: render name_template for ".toList ++ crateName)
    (env.render [] (cfg.nameTemplate.getD defaultNameTemplate))
  let path := env.join dist name
  return some (path,
    { registry := (s.registry.propagateChecksumMetadata cfg.algorithm checksums).add env.toFiles
        (combinedArtifact env cfg crateName path)
      sums := writeLines s.sums path lines })

end Stage

/-! ### The refresh -/

/-- A registered combined file, with its algorithm and its crate. -/
structure CombinedFile (Path : Type) where
  path : Path
  algorithm : Text
  crateName : Text

def combinedFile (a : Artifact Path) : Option (CombinedFile Path) :=
  if a.isCombinedChecksum then
    (a.metadata.get "algorithm".toList).map (⟨a.path, ·, a.crateName⟩)
  else none

section Refresh

variable (files : Files Path)

/-- The files the refresh lists: whatever is not derived, not a directory bundle and on the disk. -/
def refreshSubjects (artifacts : List (Artifact Path)) (crateName : Text) : List Path :=
  (artifacts.filter fun a => a.crateName = crateName && !a.kind.isDerivedSidecar &&
    !a.isDirectoryBundle && files.present a.path).map (·.path)

def refreshName (p : Path) : Text := (files.fileName p).getD []

def refreshLine (algorithm : Text) (p : Path) : Except Text Text :=
  checksumLine (files.hashFile algorithm p) (.ok (refreshName files p))

def refreshedLines (artifacts : List (Artifact Path)) (c : CombinedFile Path) :
    Except Text (List Text) := do
  let lines ← (refreshSubjects files artifacts c.crateName).mapM (refreshLine files c.algorithm)
  return StableSort.sortBy sortKey lines

/-- Write the combined files one after another, up to the first that cannot be computed. -/
def rewriteAll (artifacts : List (Artifact Path)) :
    List (CombinedFile Path) → (Path → Option (List Text)) →
      Except Text Unit × (Path → Option (List Text))
  | [], sums => (.ok (), sums)
  | c :: rest, sums =>
    match refreshedLines files artifacts c with
    | .error e => (.error e, sums)
    | .ok lines => rewriteAll artifacts rest (writeLines sums c.path lines)

/-- The refresh outside a dry run, and what it leaves on the disk. -/
def refreshCombinedChecksums (s : Dist Path) : Except Text Unit × Dist Path :=
  let (outcome, sums) := rewriteAll files s.registry.artifacts
    (s.registry.artifacts.filterMap combinedFile) s.sums
  (outcome, { s with sums := sums })

end Refresh

end Checksum

end Anodizer
