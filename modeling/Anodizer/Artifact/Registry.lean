import Anodizer.Lib.Collapse
import Anodizer.Lib.Json
import Anodizer.PublishOnly.Registry

/-! # The registry of artifacts

Every artifact is added under a name and a path that do not depend on where the
run takes place. A sidecar that is there already only adds its metadata.
-/

namespace Anodizer.ArtifactRegistry

open Template (Text)
open PublishOnly (ArtifactKind components isAbsolute normalizePathSeparators)
open Collapse

/-! ### Metadata -/

/-- A map from texts to texts, with its entries in order. -/
@[ext]
structure Metadata where
  entries : List (String × String)
  sorted : (Json.keys entries).Pairwise (· < ·)
  deriving DecidableEq

namespace Metadata

theorem keys_filter {entries : List (String × String)} (p : String → Bool) :
    Json.keys (entries.filter fun e => p e.1) = (Json.keys entries).filter p := by
  rw [Json.keys, Json.keys, List.filter_map]
  rfl

/-- The entries whose keys are kept. -/
def filter (m : Metadata) (p : String → Bool) : Metadata where
  entries := m.entries.filter fun e => p e.1
  sorted := keys_filter p ▸ m.sorted.filter p

def insert (m : Metadata) (key value : String) : Metadata where
  entries := Json.insert key value (m.filter (· ≠ key)).entries
  sorted := by
    refine Json.sorted_insert (m.filter _).sorted ?_
    rw [filter, keys_filter fun k => k ≠ key]
    simp

/-- All entries of a map, over those of another one. -/
def extend (m later : Metadata) : Metadata :=
  later.entries.foldl (fun m e => m.insert e.1 e.2) m

end Metadata

/-! ### Artifacts -/

structure Artifact where
  kind : ArtifactKind
  path : Text
  name : Text
  target : Option Text
  crateName : Text
  metadata : Metadata
  size : Option UInt64
  deriving DecidableEq

def currentDir : Text := ".".toList

def parentDir : Text := "..".toList

/-- The last component of a path, if it is a name. -/
def fileName (path : Text) : Option Text :=
  (components path).getLast?.filter fun c => c ≠ [] && c ≠ currentDir && c ≠ parentDir

def derivedName (path : Text) : Text :=
  Template.trim ((fileName path).getD "artifact".toList)

/-! ### Paths -/

/-- A part between two separators that is a component of the path. -/
def isComponent (part : Text) : Bool := part ≠ [] && part ≠ currentDir

/-- The parts behind the first components. -/
def dropComponents : ℕ → List Text → List Text
  | 0, parts => parts
  | _ + 1, [] => []
  | n + 1, part :: parts =>
    if isComponent part then dropComponents n parts else dropComponents (n + 1) parts

/-- What is left of an absolute path below a directory, as it is spelled. -/
def stripPrefix (base path : Text) : Option Text :=
  if (components base).isPrefixOf (components path) then
    let rest := dropComponents ((components base).length - 1) (path.splitOn '/')
    some (['/'].intercalate ((rest.dropWhile (!isComponent ·)).rdropWhile (!isComponent ·)))
  else none

/-- The path that an artifact is stored under: the reference of an image as it is, a file relative
to the working directory if it is below it. -/
def resolveStoredPath (cwd : Option Text) (path : Text) (kind : ArtifactKind) : Text :=
  let relative :=
    match cwd with
    | none => path
    | some cwd =>
      if !kind.isImageReference && isAbsolute path && 1 < (components cwd).length then
        (stripPrefix cwd path).getD path
      else path
  normalizePathSeparators relative

/-! ### Adding artifacts -/

/-- The artifact with the name and the path that it is stored with. -/
def canonical (cwd : Option Text) (a : Artifact) : Artifact :=
  { a with
    name := if a.name = [] then derivedName a.path else a.name
    path := resolveStoredPath cwd a.path a.kind }

/-- Sidecars of one kind and path are one artifact. -/
def sidecarKey (a : Artifact) : Option (ArtifactKind × List Text) :=
  if a.kind.isDerivedSidecar then some (a.kind, components a.path) else none

/-- An artifact that is there already, with what a later one adds to it. -/
def absorb (existing later : Artifact) : Artifact :=
  { existing with
    metadata := existing.metadata.extend later.metadata
    size := existing.size.or later.size }

def addArtifact (cwd : Option Text) (registry : List Artifact) (a : Artifact) : List Artifact :=
  add sidecarKey absorb registry (canonical cwd a)

/-- The registry after the artifacts were added to an empty one. -/
def addAll (cwd : Option Text) (artifacts : List Artifact) : List Artifact :=
  artifacts.foldl (addArtifact cwd) []

def containsPathKind (cwd : Option Text) (registry : List Artifact) (path : Text)
    (kind : ArtifactKind) : Bool :=
  registry.any fun a =>
    a.kind = kind && components a.path = components (resolveStoredPath cwd path kind)

/-! ### What is in the registry -/

variable {cwd : Option Text} {artifacts : List Artifact} {a b : Artifact}

theorem addAll_eq : addAll cwd artifacts =
    collapse sidecarKey absorb (artifacts.map (canonical cwd)) := by
  rw [addAll, collapse, List.foldl_map]
  rfl

theorem sidecarKey_absorb (a b : Artifact) : sidecarKey (absorb b a) = sidecarKey b := rfl

theorem sidecarKey_eq_some {kind : ArtifactKind} {path : List Text} :
    sidecarKey a = some (kind, path) ↔
      kind.isDerivedSidecar ∧ a.kind = kind ∧ components a.path = path := by
  rw [sidecarKey]
  split
  · next h =>
    rw [Option.some.injEq, Prod.mk.injEq]
    exact ⟨fun ⟨hkind, hpath⟩ => ⟨hkind ▸ h, hkind, hpath⟩, fun h => h.2⟩
  · next h => exact iff_of_false nofun fun ⟨hside, hkind, _⟩ => h (hkind ▸ hside)

theorem sidecarKey_eq_none : sidecarKey a = none ↔ a.kind.isDerivedSidecar = false := by
  rw [sidecarKey]
  split
  · next h => simp [h]
  · next h => simpa using h

/-- No artifact of another kind is lost. -/
theorem filter_addAll_primary : (addAll cwd artifacts).filter (sidecarKey · = none) =
    (artifacts.map (canonical cwd)).filter (sidecarKey · = none) := by
  rw [addAll_eq]
  exact filter_collapse_none sidecarKey_absorb _

/-- The sidecars of one kind and path are merged into one. -/
theorem filter_addAll_sidecar (k : ArtifactKind × List Text) :
    (addAll cwd artifacts).filter (sidecarKey · = some k) =
      (mergeAll absorb ((artifacts.map (canonical cwd)).filter (sidecarKey · = some k))).toList := by
  rw [addAll_eq]
  exact filter_collapse_some sidecarKey_absorb _ k

/-- What a registry says of its artifacts holds for every sequence of additions. -/
structure Registers (cwd : Option Text) (artifacts registry : List Artifact) : Prop where
  oneSidecar : ∀ kind : ArtifactKind, kind.isDerivedSidecar → ∀ path : List Text,
    (registry.filter fun a => a.kind = kind && components a.path = path).length ≤ 1
  keepsPrimary : (registry.filter fun a => !a.kind.isDerivedSidecar) =
    (artifacts.map (canonical cwd)).filter fun a => !a.kind.isDerivedSidecar
  contains_iff : ∀ path kind, containsPathKind cwd registry path kind ↔
    ∃ a ∈ artifacts, a.kind = kind ∧ components (resolveStoredPath cwd a.path kind) =
      components (resolveStoredPath cwd path kind)

theorem filter_addAll_place {kind : ArtifactKind} (hkind : kind.isDerivedSidecar)
    (path : List Text) :
    ((addAll cwd artifacts).filter fun a => a.kind = kind && components a.path = path) =
      (mergeAll absorb ((artifacts.map (canonical cwd)).filter
        (sidecarKey · = some (kind, path)))).toList := by
  rw [← filter_addAll_sidecar]
  refine List.filter_congr fun a _ => ?_
  rw [← Bool.decide_and, decide_eq_decide, sidecarKey_eq_some]
  exact (and_iff_right hkind).symm

/-- An artifact of a kind and path is there exactly if one was added. -/
theorem mem_addAll_place {kind : ArtifactKind} {path : List Text} :
    (∃ a ∈ addAll cwd artifacts, a.kind = kind ∧ components a.path = path) ↔
      ∃ a ∈ artifacts.map (canonical cwd), a.kind = kind ∧ components a.path = path := by
  cases hkind : kind.isDerivedSidecar with
  | true =>
    have hkey : ∀ l : List Artifact, (∃ a ∈ l, a.kind = kind ∧ components a.path = path) ↔
        l.filter (sidecarKey · = some (kind, path)) ≠ [] := by
      intro l
      rw [Ne, List.filter_eq_nil_iff]
      simp [sidecarKey_eq_some, hkind]
    rw [hkey, hkey, filter_addAll_sidecar]
    cases (artifacts.map (canonical cwd)).filter (sidecarKey · = some (kind, path)) <;>
      simp [mergeAll]
  | false =>
    have hmem : ∀ l : List Artifact, (∃ a ∈ l, a.kind = kind ∧ components a.path = path) ↔
        ∃ a ∈ l.filter (sidecarKey · = none), a.kind = kind ∧ components a.path = path := by
      intro l
      refine exists_congr fun a => ?_
      rw [List.mem_filter, decide_eq_true_eq, sidecarKey_eq_none]
      constructor
      · rintro ⟨ha, rfl, hpath⟩
        exact ⟨⟨ha, hkind⟩, rfl, hpath⟩
      · rintro ⟨⟨ha, -⟩, h⟩
        exact ⟨ha, h⟩
    rw [hmem (addAll _ _), filter_addAll_primary, ← hmem]

theorem addAll_registers : Registers cwd artifacts (addAll cwd artifacts) where
  oneSidecar kind hkind path := by
    rw [filter_addAll_place hkind, Option.length_toList]
    split <;> decide
  keepsPrimary := by
    have hfilter : ∀ l : List Artifact, (l.filter fun a => !a.kind.isDerivedSidecar) =
        l.filter (sidecarKey · = none) := fun l => List.filter_congr fun a _ => by
      rw [Bool.eq_iff_iff, Bool.not_eq_true', decide_eq_true_eq, sidecarKey_eq_none]
    rw [hfilter, hfilter, filter_addAll_primary]
  contains_iff path kind := by
    rw [containsPathKind, List.any_eq_true]
    simp only [Bool.and_eq_true, decide_eq_true_eq]
    rw [mem_addAll_place]
    constructor
    · rintro ⟨_, hmem, rfl, hpath⟩
      obtain ⟨a, ha, rfl⟩ := List.mem_map.mp hmem
      exact ⟨a, ha, rfl, hpath⟩
    · rintro ⟨a, ha, rfl, hpath⟩
      exact ⟨canonical cwd a, List.mem_map_of_mem ha, rfl, hpath⟩

end Anodizer.ArtifactRegistry
