import Anodizer.PublishOnly.Registry

/-! # What the checksums file of a crate lists

The stage takes the artifacts of the kinds it knows, filtered by their ids, and the extra files of
the configuration. Each is listed by its digest and the name it is shown under.
-/

namespace Anodizer

open Template (Text)

namespace PublishOnly.ArtifactKind

def asStr : ArtifactKind → Text
  | binary => "binary".toList
  | uploadableBinary => "uploadable_binary".toList
  | universalBinary => "universal_binary".toList
  | library => "library".toList
  | header => "header".toList
  | cArchive => "c_archive".toList
  | cShared => "c_shared".toList
  | wasm => "wasm".toList
  | archive => "archive".toList
  | sourceArchive => "source_archive".toList
  | makeself => "makeself".toList
  | appImage => "appimage".toList
  | installScript => "install_script".toList
  | linuxPackage => "linux_package".toList
  | snap => "snap".toList
  | publishableSnapcraft => "publishable_snapcraft".toList
  | flatpak => "flatpak".toList
  | sourceRpm => "source_rpm".toList
  | diskImage => "disk_image".toList
  | installer => "installer".toList
  | macOsPackage => "macos_package".toList
  | dockerImage => "docker_image".toList
  | dockerImageV2 => "docker_image_v2".toList
  | publishableDockerImage => "publishable_docker_image".toList
  | dockerManifest => "docker_manifest".toList
  | dockerDigest => "docker_digest".toList
  | brewFormula => "brew_formula".toList
  | brewCask => "brew_cask".toList
  | nixpkg => "nixpkg".toList
  | scoopManifest => "scoop_manifest".toList
  | publishableChocolatey => "publishable_chocolatey".toList
  | wingetInstaller => "winget_installer".toList
  | wingetDefaultLocale => "winget_default_locale".toList
  | wingetVersion => "winget_version".toList
  | pkgBuild => "pkg_build".toList
  | srcInfo => "src_info".toList
  | sourcePkgBuild => "source_pkg_build".toList
  | sourceSrcInfo => "source_src_info".toList
  | krewPluginManifest => "krew_plugin_manifest".toList
  | checksum => "checksum".toList
  | signature => "signature".toList
  | certificate => "certificate".toList
  | sbom => "sbom".toList
  | metadata => "metadata".toList
  | uploadableFile => "uploadable_file".toList

end PublishOnly.ArtifactKind

namespace Checksum

open PublishOnly (ArtifactKind)

/-! ### Artifacts -/

abbrev Metadata := List (Text × Text)

namespace Metadata

def get (m : Metadata) (key : Text) : Option Text := m.lookup key

def insert (m : Metadata) (key value : Text) : Metadata := (key, value) :: m.filter (·.1 ≠ key)

def orInsert (m : Metadata) (key value : Text) : Metadata :=
  if (m.get key).isSome then m else (key, value) :: m

theorem lookup_cons_ne {key other : Text} (h : other ≠ key) (value : Text) (m : Metadata) :
    List.lookup other ((key, value) :: m) = List.lookup other m := by
  rw [List.lookup_cons, beq_false_of_ne h]

theorem get_insert_self (m : Metadata) (key value : Text) :
    (m.insert key value).get key = some value := by
  simp [get, insert]

theorem get_insert_ne (m : Metadata) {key other : Text} (value : Text) (h : other ≠ key) :
    (m.insert key value).get other = m.get other := by
  rw [get, insert, lookup_cons_ne h, get]
  induction m with
  | nil => rfl
  | cons e m ih =>
    obtain ⟨k, v⟩ := e
    by_cases hk : k = key
    · subst hk
      rw [List.filter_cons_of_neg (by simp), ih, lookup_cons_ne h]
    · rw [List.filter_cons_of_pos (by simpa using hk), List.lookup_cons, List.lookup_cons, ih]

theorem get_orInsert_ne (m : Metadata) {key other : Text} (value : Text) (h : other ≠ key) :
    (m.orInsert key value).get other = m.get other := by
  unfold orInsert
  split
  · rfl
  · rw [get, lookup_cons_ne h, get]

end Metadata

structure Artifact (Path : Type) where
  kind : ArtifactKind
  name : Text
  path : Path
  target : Option Text
  crateName : Text
  metadata : Metadata
  size : Option ℕ
  deriving DecidableEq

namespace Artifact

variable {Path : Type}

/-- The bundle of an application is a directory. -/
def isDirectoryBundle (a : Artifact Path) : Bool :=
  a.kind = .installer && a.metadata.get "format".toList = some "appbundle".toList

def isCombinedChecksum (a : Artifact Path) : Bool :=
  a.kind = .checksum && a.metadata.get "combined".toList = some "true".toList

/-- The extension of a file name: a compound one of an archive, else what starts at the last dot,
unless the name does. -/
def extractArtifactExt (filename : Text) : Text :=
  let lower := filename.map Char.toLower
  let compound :=
    [".tar.gz", ".tar.xz", ".tar.zst", ".tar.bz2", ".tar.lz4", ".tar.sz"].map String.toList
  match compound.find? (·.isSuffixOf lower) with
  | some suffix => filename.drop (filename.length - suffix.length)
  | none =>
    match filename.reverse.idxOf? '.' with
    | some i => if i + 1 < filename.length then filename.drop (filename.length - (i + 1)) else []
    | none => []

def ext (a : Artifact Path) : Text :=
  match a.metadata.get "ext".toList with
  | some e => if e = [] then extractArtifactExt a.name else e
  | none => extractArtifactExt a.name

def idFilterAlwaysPass : List ArtifactKind :=
  [.checksum, .sourceArchive, .uploadableFile, .installScript, .metadata, .sourceRpm]

def derivedKinds : List ArtifactKind := [.signature, .certificate, .sbom]

/-- An artifact derived from another is judged by the kind and the id recorded of its subject. -/
def matchesIdFilter (a : Artifact Path) (ids : Option (List Text)) : Bool :=
  match ids with
  | none => true
  | some [] => true
  | some idList =>
    let byId := ((a.metadata.get "id".toList).getD []) ∈ idList
    if a.kind ∈ derivedKinds then
      match a.metadata.get "subject_kind".toList with
      | none => true
      | some subject =>
        (idFilterAlwaysPass ++ derivedKinds).any (fun k => k.asStr = subject) || byId
    else a.kind ∈ idFilterAlwaysPass || byId

end Artifact

/-! ### Files -/

/-- The files of a run, which do not change while the checksums are computed. A path stands for
the file it names. -/
structure Files (Path : Type) where
  fileName : Path → Option Text
  display : Path → Text
  present : Path → Bool
  hashFile : Text → Path → Except Text Text
  present_of_hashFile : ∀ {algorithm p h}, hashFile algorithm p = .ok h → present p = true
  /-- A digest is written in hexadecimal digits. -/
  hex_of_hashFile : ∀ {algorithm p h}, hashFile algorithm p = .ok h → ' ' ∉ h

/-- What a run reads besides the files it hashes. -/
structure Env (Path : Type) extends Files Path where
  /-- A template, with further variables over those of the run. -/
  render : List (Text × Text) → Text → Except Text Text
  join : Path → Text → Path
  pathLe : Path → Path → Bool
  glob : Text → Except Text (List (Except Text Path))
  isFile : Path → Bool
  readToString : Path → Except Text Text
  /-- Write a rendered file under its mode. -/
  install : Path → Text → Option Text → Except Text Unit

def withContext {α : Type} (context : Text) : Except Text α → Except Text α
  | .ok a => .ok a
  | .error e => .error (context ++ ": ".toList ++ e)

theorem withContext_ok {α : Type} {context : Text} {x : Except Text α} {a : α} :
    withContext context x = .ok a ↔ x = .ok a := by
  cases x <;> simp [withContext]

/-! ### Extra files -/

structure ExtraFileSpec where
  glob : Text
  nameTemplate : Option Text

structure TemplatedExtraFile (Path : Type) where
  src : Path
  dst : Option Text
  mode : Option Text

structure ResolvedExtraFile (Path : Type) where
  path : Path
  nameTemplate : Option Text

structure ResolvedChecksumConfig (Path : Type) where
  algorithm : Text
  nameTemplate : Option Text
  extraFiles : Option (List ExtraFileSpec)
  templatedExtraFiles : Option (List (TemplatedExtraFile Path))
  idsFilter : Option (List Text)

section Selection

variable {Path : Type} [DecidableEq Path] (env : Env Path) (cfg : ResolvedChecksumConfig Path)

def resolveSpec (found : List (ResolvedExtraFile Path)) (spec : ExtraFileSpec) :
    Except Text (List (ResolvedExtraFile Path)) := do
  if spec.glob = [] then return found
  let paths ← withContext ("extra_files: invalid glob '".toList ++ spec.glob ++ "'".toList)
    (env.glob spec.glob)
  let expanded ← withContext
    ("extra_files: error expanding glob '".toList ++ spec.glob ++ "'".toList) (paths.mapM id)
  if spec.nameTemplate.isSome && 1 < expanded.length then
    throw ("extra_files: glob '".toList ++ spec.glob ++ "' with name_template matched ".toList ++
      (toString expanded.length).toList ++ " files (must match exactly one)".toList)
  return (expanded.filter env.isFile).foldl
    (fun found path =>
      if found.any (·.path = path) then found else found ++ [⟨path, spec.nameTemplate⟩]) found

def resolveExtraFiles (specs : List ExtraFileSpec) :
    Except Text (List (ResolvedExtraFile Path)) := do
  let found ← withContext "checksum: resolve extra_files".toList (specs.foldlM (resolveSpec env) [])
  return found.insertionSort fun a b => env.pathLe a.path b.path

def stripTpl (name : Text) : Text :=
  if ".tpl".toList.isSuffixOf name then name.take (name.length - 4) else name

/-- Render a file of the configuration into `dist`. -/
def processTemplatedExtraFile (dist : Path) (spec : TemplatedExtraFile Path) :
    Except Text (Path × Text) := do
  let src := env.display spec.src
  let srcContent ← withContext ("checksum: read templated file '".toList ++ src ++ "'".toList)
    (env.readToString spec.src)
  let rendered ← withContext ("checksum: render templated file '".toList ++ src ++ "'".toList)
    (env.render [] srcContent)
  let dstName ← match spec.dst with
    | some dst =>
      withContext ("checksum: render dst for '".toList ++ src ++ "'".toList) (env.render [] dst)
    | none => pure (stripTpl ((env.fileName spec.src).getD []))
  if Template.contains dstName "..".toList || PublishOnly.isAbsolute dstName then
    throw ("checksum: templated_extra_files dst '".toList ++ dstName ++
      "' must be a relative path within output directory (no '..' or absolute paths)".toList)
  let outputPath := env.join dist dstName
  env.install outputPath rendered spec.mode
  return (outputPath, dstName)

/-! ### Sources -/

def checksummableSubjectKinds : List ArtifactKind :=
  [.archive, .uploadableBinary, .sourceArchive, .uploadableFile, .makeself, .installScript,
    .appImage, .linuxPackage, .flatpak, .sourceRpm, .installer, .diskImage, .macOsPackage, .sbom]

def selectedOfKind (crateName : Text) (registry : List (Artifact Path)) (kind : ArtifactKind) :
    List (Artifact Path) :=
  registry.filter fun a => a.kind = kind && a.crateName = crateName && !a.isDirectoryBundle &&
    a.matchesIdFilter cfg.idsFilter

def extraSource (crateName : Text) (e : ResolvedExtraFile Path) : Artifact Path where
  kind := .uploadableFile
  name := (env.fileName e.path).getD []
  path := e.path
  target := none
  crateName := crateName
  metadata :=
    match e.nameTemplate with
    | some tmpl => [("extra_file".toList, "true".toList), ("extra_name_template".toList, tmpl)]
    | none => [("extra_file".toList, "true".toList)]
  size := none

def templatedSource (crateName : Text) (rendered : Path × Text) : Artifact Path where
  kind := .uploadableFile
  name := rendered.2
  path := rendered.1
  target := none
  crateName := crateName
  metadata := [("extra_file".toList, "true".toList)]
  size := none

/-- The first source of each path. -/
def unseen : List Path → List (Artifact Path) → List (Artifact Path)
  | _, [] => []
  | seen, a :: l => if a.path ∈ seen then unseen seen l else a :: unseen (a.path :: seen) l

/-- The sources of a crate, kind by kind, then the extra files. -/
def collectSourceArtifacts (dist : Path) (crateName : Text) (registry : List (Artifact Path)) :
    Except Text (List (Artifact Path)) := do
  let extras ← match cfg.extraFiles with
    | some specs => resolveExtraFiles env specs
    | none => pure []
  let rendered ← match cfg.templatedExtraFiles with
    | some specs => specs.mapM (processTemplatedExtraFile env dist)
    | none => pure []
  return checksummableSubjectKinds.flatMap (selectedOfKind cfg crateName registry) ++
    unseen [] (extras.map (extraSource env crateName) ++ rendered.map (templatedSource crateName))

/-! ### Lines -/

def filename (files : Files Path) (p : Path) : Text := (files.fileName p).getD (files.display p)

def resolveChecksumDisplayName (a : Artifact Path) : Except Text Text :=
  let name := filename env.toFiles a.path
  match a.metadata.get "extra_name_template".toList with
  | some tmpl =>
    withContext ("checksum: render extra_name_template '".toList ++ tmpl ++ "' for ".toList ++ name)
      (env.render [("ArtifactName".toList, name), ("ArtifactExt".toList, a.ext),
        ("Algorithm".toList, cfg.algorithm)] tmpl)
  | none => .ok name

def computeArtifactHash (a : Artifact Path) : Except Text Text :=
  withContext ("checksum: hashing ".toList ++ env.display a.path ++ " for crate ".toList ++
    a.crateName) (env.hashFile cfg.algorithm a.path)

end Selection

def formatChecksumLine (hash filename : Text) : Text := hash ++ "  ".toList ++ filename

/-- What follows the first two spaces in a row. -/
def afterDoubleSpace : Text → Option Text
  | [] => none
  | c :: rest => if c = ' ' && rest.head? = some ' ' then some rest.tail else afterDoubleSpace rest

def sortKey (line : Text) : Text := (afterDoubleSpace line).getD line

theorem sortKey_formatChecksumLine {hash : Text} (h : ' ' ∉ hash) (filename : Text) :
    sortKey (formatChecksumLine hash filename) = filename := by
  have hafter : afterDoubleSpace (hash ++ "  ".toList ++ filename) = some filename := by
    induction hash with
    | nil => rfl
    | cons c hash ih =>
      simp only [List.mem_cons, not_or] at h
      rw [List.cons_append, List.cons_append, afterDoubleSpace, if_neg, ih h.2]
      simp [Ne.symm h.1]
  rw [sortKey, formatChecksumLine, hafter, Option.getD_some]

/-- The line of a source, from its digest and the name it is shown under. -/
def checksumLine (hash name : Except Text Text) : Except Text Text := do
  let h ← hash
  let n ← name
  return formatChecksumLine h n

end Checksum

end Anodizer
