import Anodizer.Archive.Entries
import Anodizer.Lib.Loop

/-! # The run of the archive stage

The plan is checked, and then written output by output. Every output has a path of its own, and
what it holds under the name of a selected binary are the bytes of the first selected binary of
that name.
-/

namespace Anodizer.Archive

open Loop (Flow)
open PublishOnly (components isAbsolute joinPath normalizePathSeparators)
open Checksum (Metadata)
open Template (Text contains)

/-! ### The environment -/

/-- A file that is packed beside the binaries. -/
structure ResolvedExtraFile where
  src : Source
  dst : Option Text
  info : Option ArchiveFileInfo

/-- What a run asks of its configuration and of the machine, besides the names. Each place of the
plan, and each format of it, is asked for once in a run. A hook leaves the files of the run as they
are. -/
structure Env extends Naming where
  collisionMessage : Claim → Claim → Text
  createDist : Except Text Unit
  generateAuxFiles : CratePlan → ConfigPlan → Except Text (List ResolvedExtraFile)
  renderWrapDirectory : Place → Text → Except Text Text
  resolveExtraFiles : Place → Except Text (List ResolvedExtraFile)
  renderFileInfo : Place → ArchiveFileInfo → Except Text ArchiveFileInfo
  resolveReproducibleMtime : Place → Except Text (Option ℕ)
  beforeHook : Place → Text → Except Text Unit
  /-- The destination and the contents of each rendered file. -/
  renderTemplatedFiles : Place → Text → Except Text (List (Text × File))
  afterHook : Place → Text → Except Text Unit

structure Options where
  dist : Text
  defaultFormat : Text
  formatOverrides : List FormatOverride
  dryRun : Bool
  strict : Bool

/-! ### A target -/

section Target

variable (env : Env) (opts : Options) (place : Place)

def wrapDirectory : Except Text (Option Text) := do
  let rendered ← match place.cfg.archive.wrapInDirectory with
    | none => pure none
    | some (.flag true) => pure (some place.target.archiveStem)
    | some (.flag false) => pure none
    | some (.name []) => pure none
    | some (.name tmpl) =>
      some <$> Checksum.withContext ("render wrap_in_directory for ".toList ++
        place.krate.crateName ++ '/' :: place.target.target) (env.renderWrapDirectory place tmpl)
  match rendered with
  | none => return none
  | some dir =>
    if contains dir "..".toList || isAbsolute dir then
      throw ("archive: wrap_in_directory '".toList ++ dir ++
        "' must be a relative path with no '..' segments".toList)
    return some dir

def stripBinDir : Bool := place.cfg.archive.stripBinaryDirectory.getD false

def baseName (path : Text) : Text := (fileName path).getD "unknown".toList

def wrapped (wrapDir : Option Text) (name : Text) : Text :=
  normalizePathSeparators ((wrapDir.map (joinPath · name)).getD name)

/-- The name of a binary in the archives of a target. -/
def inArchiveName (wrapDir : Option Text) (b : Artifact) : Text :=
  wrapped (if stripBinDir place then none else wrapDir) (baseName b.path)

def checkBinary (disk : Disk) (b : Artifact) : Except Text Unit :=
  if (disk.read b.path).isNone && !opts.dryRun then
    .error ("binary artifact missing: ".toList ++ (binaryName b).getD [] ++
      " (expected at ".toList ++ b.path ++ ")".toList)
  else .ok ()

def binaryEntry (wrapDir : Option Text) (info : ArchiveFileInfo) (b : Artifact) : ArchiveEntry :=
  ⟨.file b.path, inArchiveName place wrapDir b, some info⟩

def extraEntry (wrapDir : Option Text) (ef : ResolvedExtraFile) : Except Text ArchiveEntry := do
  let name := wrapped wrapDir (ef.dst.getD (baseName ef.src.path))
  return ⟨ef.src, name, ← ef.info.mapM (env.renderFileInfo place)⟩

/-- A target of raw binaries packs nothing beside them. -/
def unlessBinaryOnly {α : Type} (files : Except Text (List α)) : Except Text (List α) :=
  if place.target.binaryOnly then .ok [] else files

/-- What the formats of a target share. -/
structure Prepared where
  wrapDir : Option Text
  baseEntries : List ArchiveEntry
  archiveExtraFiles : List Text
  mtime : Option ℕ

def prepareTarget (auxFiles : List ResolvedExtraFile) (disk : Disk) : Except Text Prepared := do
  let wrapDir ← wrapDirectory env place
  let binaries := if place.cfg.isMeta then [] else place.target.selectedBins
  binaries.forM (checkBinary opts disk)
  let extraFiles ← unlessBinaryOnly place (env.resolveExtraFiles place)
  let info := place.cfg.archive.buildsInfo.getD ⟨none, none, none, none⟩
  let binaryInfo ← env.renderFileInfo place { info with mode := info.mode.or (some 0o755) }
  let extraEntries ← (extraFiles ++ auxFiles).mapM (extraEntry env place wrapDir)
  let mtime ← env.resolveReproducibleMtime place
  return {
    wrapDir
    baseEntries := binaries.map (binaryEntry place wrapDir binaryInfo) ++ extraEntries
    archiveExtraFiles := extraEntries.map fun e => normalizePathSeparators e.archiveName
    mtime }

/-! ### A format -/

variable (prepared : Prepared) (fp : FormatPlan place.target.selectedBins)

/-- A templated file is rendered for each format anew. -/
def templatedEntry (format : Text) (rendered : Text × File) : ArchiveEntry :=
  let staging := [".archive-templated".toList, place.cfg.archiveId, place.target.target, format,
    rendered.1].foldl joinPath opts.dist
  ⟨.staged staging rendered.2, rendered.1, none⟩

/-- A hook is run for an archive, not for raw binaries. -/
def unlessRaw (hook : Text → Except Text Unit) : Except Text Unit :=
  if fp.format = formatBinary then .ok () else hook fp.format

def packedEntries : Except Text (List ArchiveEntry) := do
  unlessRaw place fp (env.beforeHook place)
  let templated ← unlessBinaryOnly place (env.renderTemplatedFiles place fp.format)
  let entries := sortEntries (deduplicateEntries
    (prepared.baseEntries ++ templated.map (templatedEntry opts place fp.format)))
  if place.cfg.isMeta && entries.isEmpty then
    throw ("archive: meta archive for crate '".toList ++ place.krate.crateName ++
      "' target '".toList ++ place.target.target ++
      ("' has zero files. Check your `files:` patterns — meta archives must " ++
        "bundle at least one file.").toList)
  return entries

def writeOutputs (entries : List ArchiveEntry) (disk : Disk) : Flow Disk (Text × Disk) :=
  if opts.dryRun then .next disk
  else if fp.format = formatBinary then
    Loop.run (fun out disk => copyBinary disk out.bin.path out.dest) fp.binaryOutputs disk
  else
    writeArchiveInFormat fp.format fp.archivePath entries prepared.mtime opts.strict disk

def insertSome (key : Text) (value : Option Text) (m : Metadata) : Metadata :=
  match value with
  | some v => m.insert key v
  | none => m

def archiveMetadata : Metadata :=
  let bins := place.target.selectedBins
  let names := (bins.map fun b => (binaryName b).getD []).insertionSort (· ≤ ·)
  let joined (l : List Text) : Option Text :=
    if l = [] then none else some (List.intercalate ",".toList l)
  let flag (b : Bool) : Option Text := if b then some "true".toList else none
  let replaces := bins.findSome? fun b => (b.metadata.get "replaces".toList).filter (· ≠ [])
  let dynlinked := bins.any fun b =>
    b.metadata.get "DynamicallyLinked".toList = some "true".toList
  let variant := bins.head?.bind fun b => b.metadata.get "amd64_variant".toList
  let extra := if fp.format = formatBinary then none else joined prepared.archiveExtraFiles
  let base : Metadata := [("format".toList, fp.format), ("name".toList, place.target.archiveStem),
    ("id".toList, place.cfg.archiveId)]
  [("meta".toList, flag place.cfg.isMeta),
    ("strip_binary_directory".toList, flag (stripBinDir place)),
    ("wrap_in_directory".toList, prepared.wrapDir), ("extra_binaries".toList, joined names),
    ("archive_files".toList, extra), ("replaces".toList, replaces),
    ("ndynlink".toList, flag dynlinked), ("amd64_variant".toList, variant)].foldl
      (fun m e => insertSome e.1 e.2 m) base

def rawArtifact (out : BinaryOutput) : Artifact where
  kind := .uploadableBinary
  name := out.stem
  path := out.dest
  target := some place.target.target
  crateName := place.krate.crateName
  metadata := (archiveMetadata place prepared fp).insert "binary".toList
    ((binaryName out.bin).getD [])
  size := none

def archiveArtifact : Artifact where
  kind := .archive
  name := []
  path := fp.archivePath
  target := some place.target.target
  crateName := place.krate.crateName
  metadata := archiveMetadata place prepared fp
  size := none

def formatArtifacts : List Artifact :=
  if fp.format = formatBinary then fp.binaryOutputs.map (rawArtifact place prepared fp)
  else [archiveArtifact place prepared fp]

/-- The files, and the artifacts registered when the run succeeds. -/
structure World where
  disk : Disk
  newArtifacts : List Artifact

def writeFormat (w : World) : Flow World (Text × World) :=
  if fp.skip.isSome then .next w
  else
    match packedEntries env opts place prepared fp with
    | .error e => .stop (e, w)
    | .ok entries =>
      match writeOutputs opts place prepared fp entries w.disk with
      | .stop (e, disk) => .stop (e, { w with disk })
      | .next disk =>
        let w' := ⟨disk, w.newArtifacts ++ formatArtifacts place prepared fp⟩
        match unlessRaw place fp (env.afterHook place) with
        | .error e => .stop (e, w')
        | .ok () => .next w'

def writeTarget (auxFiles : List ResolvedExtraFile) (w : World) : Flow World (Text × World) :=
  match prepareTarget env opts place auxFiles w.disk with
  | .error e => .stop (e, w)
  | .ok prepared => Loop.run (writeFormat env opts place prepared) place.target.formats w

end Target

/-! ### The run -/

section Run

variable (env : Env) (opts : Options)

def writeConfig (krate : CratePlan) (cfg : ConfigPlan) (w : World) : Flow World (Text × World) :=
  if cfg.skip.isSome then .next w
  else
    match env.generateAuxFiles krate cfg with
    | .error e => .stop (e, w)
    | .ok auxFiles =>
      Loop.run (fun target => writeTarget env opts ⟨krate, cfg, target⟩ auxFiles) cfg.targets w

def writeCrateArchives (krate : CratePlan) (w : World) : Flow World (Text × World) :=
  Loop.run (writeConfig env opts krate) krate.configs w

variable (work : List CrateWork) (registry : List Artifact)

/-- The plan of a run, before the guard. -/
def plan : Except Text (List CratePlan) := do
  validateArchiveConfigs work
  env.createDist
  planCrates env.toNaming
    ⟨opts.dist, 1 < work.length, opts.defaultFormat, opts.formatOverrides, opts.strict⟩
    registry work

/-- The stage: the files and the registry it leaves, or its error and the files. -/
def run (disk : Disk) : Flow (Disk × List Artifact) (Text × Disk) :=
  match plan env opts work registry with
  | .error e => .stop (e, disk)
  | .ok plans =>
    match checkClaims env.collisionMessage [] ((outputs plans).map Output.claim) with
    | .error e => .stop (e, disk)
    | .ok _ =>
      match Loop.run (writeCrateArchives env opts) plans ⟨disk, []⟩ with
      | .stop (e, w) => .stop (e, w.disk)
      | .next w => .next (w.disk, registry ++ w.newArtifacts)

end Run

end Anodizer.Archive
