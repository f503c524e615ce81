import Anodizer.Artifact.Registry
import Anodizer.Checksum.Selection
import Anodizer.Lib.Reader
import Anodizer.Lib.StableSort
import Mathlib.Data.List.Lex
import Mathlib.Data.Prod.Lex

/-! # The manifest of the artifacts

The manifest lists the artifacts in the order of their kind, target, crate, name
and path, without the hashes of their content. It is read back field by field.
-/

namespace Anodizer.PublishOnly.ArtifactKind

/-- The kind of a name. -/
def parse : String → Option ArtifactKind
  | "binary" => some binary
  | "uploadable_binary" => some uploadableBinary
  | "universal_binary" => some universalBinary
  | "library" => some library
  | "header" => some header
  | "c_archive" => some cArchive
  | "c_shared" => some cShared
  | "wasm" => some wasm
  | "archive" => some archive
  | "source_archive" => some sourceArchive
  | "makeself" => some makeself
  | "appimage" => some appImage
  | "install_script" => some installScript
  | "linux_package" => some linuxPackage
  | "snap" => some snap
  | "publishable_snapcraft" => some publishableSnapcraft
  | "flatpak" => some flatpak
  | "source_rpm" => some sourceRpm
  | "disk_image" => some diskImage
  | "installer" => some installer
  | "macos_package" => some macOsPackage
  | "docker_image" => some dockerImage
  | "docker_image_v2" => some dockerImageV2
  | "publishable_docker_image" => some publishableDockerImage
  | "docker_manifest" => some dockerManifest
  | "docker_digest" => some dockerDigest
  | "brew_formula" => some brewFormula
  | "brew_cask" => some brewCask
  | "nixpkg" => some nixpkg
  | "scoop_manifest" => some scoopManifest
  | "publishable_chocolatey" => some publishableChocolatey
  | "winget_installer" => some wingetInstaller
  | "winget_default_locale" => some wingetDefaultLocale
  | "winget_version" => some wingetVersion
  | "pkg_build" => some pkgBuild
  | "src_info" => some srcInfo
  | "source_pkg_build" => some sourcePkgBuild
  | "source_src_info" => some sourceSrcInfo
  | "krew_plugin_manifest" => some krewPluginManifest
  | "checksum" => some checksum
  | "signature" => some signature
  | "certificate" => some certificate
  | "sbom" => some sbom
  | "metadata" => some metadata
  | "uploadable_file" => some uploadableFile
  | _ => none

theorem parse_asStr (kind : ArtifactKind) : parse (String.ofList kind.asStr) = some kind := by
  cases kind <;> decide +kernel

end Anodizer.PublishOnly.ArtifactKind

namespace Anodizer.ArtifactRegistry

open Template (Text)
open PublishOnly (ArtifactKind components normalizePathSeparators)
open StableSort

/-! ### Order -/

/-- Components as they are compared: the root, then the two directory names, then the others. -/
def componentKey (c : Text) : ℕ ×ₗ Text :=
  toLex (if c = [] then 0 else if c = currentDir then 1 else if c = parentDir then 2 else 3, c)

abbrev SortKey := Text ×ₗ Text ×ₗ Text ×ₗ Text ×ₗ List (ℕ ×ₗ Text)

def sortKey (a : Artifact) : SortKey :=
  toLex (a.kind.asStr, toLex (a.target.getD [], toLex (a.crateName, toLex (a.name,
    (components a.path).map componentKey))))

/-! ### Writing -/

def metadataHashKeys : List String :=
  ["Checksum", "sha256", "sha512", "sha384", "sha224", "sha1", "md5", "blake2b", "blake3", "crc32"]

def text (t : Text) : Json := .str (String.ofList t)

def Metadata.toJson (m : Metadata) : Json :=
  .obj ((m.filter (· ∉ metadataHashKeys)).entries.map fun e => (e.1, .str e.2))

/-- An artifact as it is written. A size that is not known is left out. -/
def Artifact.toJson (a : Artifact) : Json :=
  .obj ([("kind", text a.kind.asStr), ("path", text (normalizePathSeparators a.path)),
    ("name", text a.name), ("target", (a.target.map text).getD .null),
    ("crate_name", text a.crateName), ("metadata", a.metadata.toJson)] ++
      (a.size.map fun n => ("size", Json.num (.posInt n.toNat))).toList)

def toArtifactsJson (registry : List Artifact) : Json :=
  .arr ((sortBy sortKey registry).map Artifact.toJson)

/-! ### Reading -/

section Readers

open Reader Members

def textReader : Reader Text := refine str fun s => some s.toList

def metadataReader : Reader Metadata :=
  refine (map str) fun entries => some ⟨Json.collect entries, Json.sorted_collect entries⟩

def artifactReader : Reader Artifact :=
  openStruct (Artifact.mk <$> required "kind" (refine str ArtifactKind.parse) <*>
    required "path" textReader <*> withDefault "name" textReader [] <*>
    withDefault "target" (option textReader) none <*> required "crate_name" textReader <*>
    withDefault "metadata" metadataReader ⟨[], .nil⟩ <*>
    withDefault "size" (option (refine (uint 64) fun n => some (UInt64.ofNat n))) none)

end Readers

def fromArtifactsJson (document : Json) : Option (List Artifact) :=
  (Reader.list artifactReader).decode document

/-! ### Reading what was written -/

/-- What the manifest keeps of an artifact. -/
def published (a : Artifact) : Artifact :=
  { a with
    path := normalizePathSeparators a.path
    metadata := a.metadata.filter (· ∉ metadataHashKeys) }

theorem decode_text (t : Text) : textReader.decode (text t) = some t := by
  simp [textReader, Reader.refine, Reader.str, text]

theorem decode_metadata (m : Metadata) :
    metadataReader.decode m.toJson = some (m.filter (· ∉ metadataHashKeys)) := by
  have hmembers : ∀ l : List (String × String),
      (l.map fun e => (e.1, Json.str e.2)).mapM Reader.str.decodeMember = some l := by
    intro l
    induction l with
    | nil => rfl
    | cons e l ih => rw [List.map_cons, List.mapM_cons, ih]; rfl
  have hsorted := (m.filter (· ∉ metadataHashKeys)).sorted
  simp only [metadataReader, Reader.refine, Reader.map, Metadata.toJson, hmembers,
    Option.map_some, Option.bind_some, Option.some.injEq]
  ext1
  simp only [Json.collect_of_sorted hsorted]

theorem decode_size (n : UInt64) : (Reader.refine (Reader.uint 64) fun n =>
    some (UInt64.ofNat n)).decode (.num (.posInt n.toNat)) = some n := by
  have hlt : n.toNat < 2 ^ 64 := n.toNat_lt
  simp only [Reader.refine, Reader.uint, if_pos hlt, Option.bind_some, UInt64.ofNat_toNat]

theorem itemsOf_size (size : Option UInt64) {k : String} (h : k ≠ "size") :
    Json.itemsOf [k] (size.map fun n => ("size", Json.num (.posInt n.toNat))).toList = [] := by
  cases size with
  | none => rfl
  | some n => simp [Json.itemsOf, h.symm]

theorem read_size (size : Option UInt64) {fields : Json.Fields}
    (h : Json.itemsOf ["size"] fields = []) :
    (Members.withDefault "size" (Reader.option (Reader.refine (Reader.uint 64) fun n =>
      some (UInt64.ofNat n))) none).read (fields ++
        (size.map fun n => ("size", Json.num (.posInt n.toNat))).toList) = some size := by
  cases size with
  | none =>
    apply Members.read_absent
    rw [Json.itemsOf_append, h]
    rfl
  | some n =>
    have hitem : Json.itemsOf ["size"] (fields ++ [("size", .num (.posInt n.toNat))]) =
        [.num (.posInt n.toNat)] := by
      rw [Json.itemsOf_append, h]
      simp [Json.itemsOf]
    simp only [Option.map_some, Option.toList_some, Members.read_withDefault _ _ hitem]
    simp [Reader.option, decode_size]

theorem decode_artifact (a : Artifact) : artifactReader.decode a.toJson = some (published a) := by
  obtain ⟨kind, path, name, target, crateName, metadata, size⟩ := a
  have hkind : (Reader.refine Reader.str ArtifactKind.parse).decode (text kind.asStr) =
      some kind :=
    ArtifactKind.parse_asStr kind
  have htarget : textReader.option.decode ((target.map text).getD .null) = some target := by
    cases target with
    | none => rfl
    | some t => simp [Reader.option, text, textReader, Reader.refine, Reader.str]
  simp only [artifactReader, Reader.openStruct, Artifact.toJson]
  generalize hf : [("kind", text kind.asStr), _, _, _, _, _] = fields
  -- every field but the size stands among the first six members
  have hitem : ∀ {k : String} {items : List Json}, k ≠ "size" → Json.itemsOf [k] fields = items →
      Json.itemsOf [k] (fields ++
        (size.map fun n => ("size", Json.num (.posInt n.toNat))).toList) = items := by
    intro k items hk hitems
    rw [Json.itemsOf_append, itemsOf_size size hk, hitems, List.append_nil]
  rw [Members.read_seq, Members.read_seq, Members.read_seq, Members.read_seq, Members.read_seq,
    Members.read_seq, Members.read_map, read_size size (by simp [← hf, Json.itemsOf]),
    Members.read_required _ (hitem (by decide) (by simp [← hf, Json.itemsOf]; rfl)),
    Members.read_required _ (hitem (by decide) (by simp [← hf, Json.itemsOf]; rfl)),
    Members.read_withDefault _ _ (hitem (by decide) (by simp [← hf, Json.itemsOf]; rfl)),
    Members.read_withDefault _ _ (hitem (by decide) (by simp [← hf, Json.itemsOf]; rfl)),
    Members.read_required _ (hitem (by decide) (by simp [← hf, Json.itemsOf]; rfl)),
    Members.read_withDefault _ _ (hitem (by decide) (by simp [← hf, Json.itemsOf]; rfl)),
    hkind, htarget, decode_metadata, decode_text, decode_text, decode_text]
  rfl

theorem fromArtifactsJson_toArtifactsJson (registry : List Artifact) :
    fromArtifactsJson (toArtifactsJson registry) =
      some ((sortBy sortKey registry).map published) := by
  have hmap : ∀ l : List Artifact, (l.map Artifact.toJson).mapM artifactReader.decode =
      some (l.map published) := by
    intro l
    induction l with
    | nil => rfl
    | cons a l ih => rw [List.map_cons, List.mapM_cons, decode_artifact, ih]; rfl
  exact hmap _

/-- Two artifacts that are written alike are published alike. -/
theorem toJson_inj {a b : Artifact} (h : a.toJson = b.toJson) : published a = published b := by
  have hdecode := congrArg artifactReader.decode h
  rw [decode_artifact, decode_artifact] at hdecode
  exact Option.some.inj hdecode

end Anodizer.ArtifactRegistry
