import Anodizer.Checksum.Selection
import Anodizer.Lib.StableSort
import Anodizer.Lib.Traverse
import Anodizer.Split.Target
import Mathlib.Data.Prod.Lex
import Mathlib.Order.WithBot

/-! # The plan of the archive stage

Every output is named before one is written: each crate, entry, build target and format in turn.
A plan in which two outputs have one path is refused.
-/

namespace Anodizer.Archive

open PublishOnly (ArtifactKind components joinPath)
open Template (Text contains)

abbrev Artifact := Checksum.Artifact Text

/-! ### Names -/

/-- The last component of a path, when it is a name. -/
def fileName (path : Text) : Option Text :=
  match (components path).getLast? with
  | some name =>
    if name = [] || name = ".".toList || name = "..".toList then none else some name
  | none => none

def stripExe (name : Text) : Text :=
  if ".exe".toList.isSuffixOf name then name.take (name.length - 4) else name

def binaryName (a : Artifact) : Option Text :=
  match a.metadata.get "binary".toList with
  | some name => some name
  | none =>
    if a.kind ∈ [.binary, .uploadableBinary, .universalBinary] then (fileName a.path).map stripExe
    else none

/-- A raw binary carries `.exe` on Windows. -/
def binaryOutputName (stem target : Text) : Text :=
  if contains target "windows".toList && !".exe".toList.isSuffixOf stem then stem ++ ".exe".toList
  else stem

def formatBinary : Text := "binary".toList

def validArchiveFormats : List Text :=
  ["tar.gz".toList, "tgz".toList, "tar.xz".toList, "txz".toList, "tar.zst".toList, "tzst".toList,
    "tar".toList, "zip".toList, "gz".toList, "xz".toList, formatBinary, "none".toList]

/-! ### Configuration -/

structure FormatOverride where
  os : Text
  formats : Option (List Text)

inductive WrapInDirectory
  | flag (wrap : Bool)
  | name (template : Text)

structure ArchiveFileInfo where
  owner : Option Text
  group : Option Text
  mode : Option ℕ
  mtime : Option Text
  deriving DecidableEq

/-- An `archives:` entry, without what is only resolved to files or run as a hook. -/
structure ArchiveConfig where
  id : Option Text := none
  nameTemplate : Option Text := none
  formats : Option (List Text) := none
  formatOverrides : Option (List FormatOverride) := none
  binaries : Option (List Text) := none
  wrapInDirectory : Option WrapInDirectory := none
  ids : Option (List Text) := none
  isMeta : Option Bool := none
  buildsInfo : Option ArchiveFileInfo := none
  stripBinaryDirectory : Option Bool := none
  allowDifferentBinaryCount : Option Bool := none
  ifCondition : Option Text := none

structure CrateWork where
  name : Text
  dir : Text
  archives : List ArchiveConfig

structure RunInputs where
  dist : Text
  multiCrate : Bool
  defaultFormat : Text
  formatOverrides : List FormatOverride
  strict : Bool

/-- What a name template is rendered for. -/
structure Scope where
  crateName : Text
  entry : ℕ
  target : Text
  variant : Option Text
  binary : Text

/-- The answers of the template engine while the outputs are named. A crate's entry asks for each
scope once in a run. -/
structure Naming where
  evaluateIfCondition : Text → ℕ → Option Text → Except Text Bool
  render : Scope → Text → Except Text Text

def unsupportedFormat (fmt : Text) : Text :=
  "unsupported archive format: ".toList ++ fmt ++ " (valid: ".toList ++
    List.intercalate ", ".toList validArchiveFormats ++ ")".toList

/-- The formats of an entry are known ones, and so are those of its overrides. -/
def validateArchiveConfigs (work : List CrateWork) : Except Text Unit :=
  (work.flatMap CrateWork.archives).forM fun cfg => do
    (cfg.formats.getD []).forM check
    (cfg.formatOverrides.getD []).forM fun ov => (ov.formats.getD []).forM check
where
  check (fmt : Text) : Except Text Unit :=
    if fmt ∈ validArchiveFormats then .ok () else .error (unsupportedFormat fmt)

/-- The formats of a target: those of the first override for its system, else the entry's. -/
def archiveFormatsForTarget (archive : ArchiveConfig) (target : Text)
    (globalOverrides : List FormatOverride) (globalDefault : Text) : List Text :=
  let os := (Split.mapTarget target).1
  let overrides := archive.formatOverrides.getD globalOverrides
  let override := overrides.find? fun ov => ov.os ≠ [] && ov.os.isPrefixOf os
  let own := archive.formats.filter (· ≠ [])
  ((override.bind fun ov => ov.formats.filter (· ≠ [])).or own).getD [globalDefault]

/-! ### The plan -/

/-- A raw binary. -/
structure BinaryOutput where
  stem : Text
  dest : Text
  binary : Option Text
  bin : Artifact

/-- One format of a target, which packs the binaries it is indexed by. A raw binary is written for
each of them. -/
structure FormatPlan (selectedBins : List Artifact) where
  format : Text
  skip : Option Text
  archiveFilename : Text
  archivePath : Text
  binaryOutputs : List BinaryOutput
  one_each : skip = none → format = formatBinary →
    binaryOutputs.map BinaryOutput.bin = selectedBins

structure TargetPlan where
  target : Text
  binary : Option Text
  selectedBins : List Artifact
  groupVariant : Option Text
  archiveStem : Text
  formats : List (FormatPlan selectedBins)

/-- No format of the target packs a file beside the binaries. -/
def TargetPlan.binaryOnly (tp : TargetPlan) : Bool := tp.formats.all (·.format = formatBinary)

/-- An entry with the index it has among its crate's. One that is skipped plans no targets. -/
structure ConfigPlan where
  index : ℕ
  archive : ArchiveConfig
  archiveId : Text
  skip : Option Text
  nameTmpl : Text
  binaryNameTmpl : Text
  targets : List TargetPlan
  idle : skip ≠ none → targets = []

def ConfigPlan.isMeta (cfg : ConfigPlan) : Bool := cfg.archive.isMeta.getD false

structure CratePlan where
  crateName : Text
  crateDir : Text
  configs : List ConfigPlan

section Plan

variable (naming : Naming) (run : RunInputs) (crateName : Text) (index : ℕ)
  (archiveCfg : ArchiveConfig)

def emptyStemHint : Text :=
  ("Verify the template references variables that are populated on this run (e.g. " ++
    "`\x7b\x7b Tag \x7d\x7d` is unset during `--snapshot` — use `\x7b\x7b Version \x7d\x7d` or " ++
    "the default `archive.name_template` instead).").toList

/-- Name a raw binary after each of the binaries. -/
def renderBinaryOutputs (nameTmpl target : Text) (variant : Option Text) :
    (bins : List Artifact) → Except Text { outs : List BinaryOutput // outs.map (·.bin) = bins }
  | [] => .ok ⟨[], rfl⟩
  | bin :: bins => do
    let scope := ⟨crateName, index, target, variant, (binaryName bin).getD []⟩
    let rendered ← Checksum.withContext ("archive: render binary name template for ".toList ++
      crateName ++ '/' :: target) (naming.render scope nameTmpl)
    if rendered = [] then
      throw ("archive: rendered archive name template '".toList ++ nameTmpl ++
        "' produced an empty stem for binary '".toList ++ (binaryName bin).getD [] ++
        "' of crate '".toList ++ crateName ++ "' target '".toList ++ target ++
        ("'. An empty stem yields the dist directory itself as the output path, which the " ++
          "duplicate-name detector and downstream stages cannot resolve. ").toList ++
        emptyStemHint)
    let stem := binaryOutputName rendered target
    let rest ← renderBinaryOutputs nameTmpl target variant bins
    return ⟨⟨stem, joinPath run.dist stem, binaryName bin, bin⟩ :: rest.1, by
      rw [List.map_cons, rest.2]⟩

def skipNote (target format : Text) (selectedBins : List Artifact) : Option Text :=
  if format = "none".toList then
    some ("skipped archive for ".toList ++ crateName ++ '/' :: target ++ " — format: none".toList)
  else if format = formatBinary && selectedBins = [] then
    some ("skipped archive for ".toList ++ crateName ++ '/' :: target ++
      " — meta archive under format: binary carries no binaries".toList)
  else none

def planFormat (binaryNameTmpl archiveStem target : Text) (variant : Option Text)
    (selectedBins : List Artifact) (format : Text) : Except Text (FormatPlan selectedBins) :=
  let skip := skipNote crateName target format selectedBins
  if hraw : skip = none ∧ format = formatBinary then do
    let outs ← renderBinaryOutputs naming run crateName index binaryNameTmpl target variant
      selectedBins
    let archiveFilename := (outs.1.head?.map BinaryOutput.stem).getD []
    return ⟨format, skip, archiveFilename, joinPath run.dist archiveFilename, outs.1,
      fun _ _ => outs.2⟩
  else
    let archiveFilename := if format = formatBinary then [] else archiveStem ++ '.' :: format
    .ok ⟨format, skip, archiveFilename, joinPath run.dist archiveFilename, [],
      fun hskip hformat => absurd ⟨hskip, hformat⟩ hraw⟩

abbrev TargetVariantKey := Text × Option Text

def targetVariantKey (b : Artifact) : TargetVariantKey :=
  (b.target.getD "unknown".toList, b.metadata.get "amd64_variant".toList)

def keyOrder (key : TargetVariantKey) : Text ×ₗ WithBot Text := toLex (key.1, key.2)

/-- The binaries by target and variant, in the order of the keys. -/
def groupByTargetVariant (binaries : List Artifact) : List (TargetVariantKey × List Artifact) :=
  (StableSort.sortBy keyOrder (binaries.map targetVariantKey).dedup).map fun key =>
    (key, binaries.filter (targetVariantKey · = key))

/-- A list of names as a message shows it. -/
def debugList (names : List Text) : Text :=
  "[".toList ++ List.intercalate ", ".toList (names.map fun n => "\"".toList ++ n ++ "\"".toList) ++
    "]".toList

def countDetail (group : TargetVariantKey × List Artifact) : Text :=
  group.1.1 ++ (group.1.2.map fun variant => '+' :: variant).getD [] ++
    '=' :: (toString group.2.length).toList

/-- The targets that pack their binaries pack equally many. -/
def checkBinaryCounts (byTarget : List (TargetVariantKey × List Artifact)) : Except Text Unit :=
  let grouped := byTarget.filter fun group =>
    formatBinary ∉
      archiveFormatsForTarget archiveCfg group.1.1 run.formatOverrides run.defaultFormat
  let firstCount := (grouped.head?.map fun group => group.2.length).getD 0
  if 1 < grouped.length && grouped.any fun group => group.2.length ≠ firstCount then
    .error ("binary counts differ across targets (".toList ++
      debugList (grouped.map countDetail) ++
      "); set allow_different_binary_count: true to allow this".toList)
  else .ok ()

def groupBinariesByTarget (allBinaries : List Artifact) :
    Except Text (Option (List (TargetVariantKey × List Artifact))) := do
  let isMeta := archiveCfg.isMeta.getD false
  let binaries := if isMeta then [] else allBinaries.filter (·.matchesIdFilter archiveCfg.ids)
  if binaries = [] && !isMeta then
    if run.strict then
      throw ("skipped archives[".toList ++ archiveCfg.id.getD "default".toList ++
        "] — crate ".toList ++ crateName ++ " has no binaries".toList ++
        (archiveCfg.ids.map fun ids => " matching ids ".toList ++ debugList ids).getD [] ++
        " (set `meta: true` if this is intentional) (strict mode)".toList)
    return none
  let byTarget :=
    if isMeta then [(("unknown".toList, none), [])] else groupByTargetVariant binaries
  if !archiveCfg.allowDifferentBinaryCount.getD false then
    checkBinaryCounts run archiveCfg byTarget
  return some byTarget

def selects (b : Artifact) : Bool :=
  match archiveCfg.binaries with
  | none => true
  | some names => (binaryName b).getD [] ∈ names

def planTarget (nameTmpl binaryNameTmpl : Text) (group : TargetVariantKey × List Artifact) :
    Except Text (Option TargetPlan) := do
  let ((target, variant), targetBins) := group
  let selectedBins := targetBins.filter (selects archiveCfg)
  if selectedBins = [] && !archiveCfg.isMeta.getD false then
    return none
  let binary := selectedBins.head?.bind binaryName
  let archiveStem ← Checksum.withContext
    ("render archive name for ".toList ++ crateName ++ '/' :: target)
    (naming.render ⟨crateName, index, target, variant, binary.getD []⟩ nameTmpl)
  if archiveStem = [] then
    throw ("archive: rendered archive name template '".toList ++ nameTmpl ++
      "' produced an empty stem for crate '".toList ++ crateName ++ "' target '".toList ++ target ++
      ("'. An empty stem yields a hidden output path (`dist/.<format>`) that the duplicate-name " ++
        "detector and downstream stages cannot resolve. ").toList ++ emptyStemHint)
  let formats ← (archiveFormatsForTarget archiveCfg target run.formatOverrides
    run.defaultFormat).mapM
      (planFormat naming run crateName index binaryNameTmpl archiveStem target variant selectedBins)
  return some ⟨target, binary, selectedBins, variant, archiveStem, formats⟩

def defaultNameTemplate : Text :=
  ("\x7b\x7b .ProjectName \x7d\x7d_\x7b\x7b .Version \x7d\x7d_\x7b\x7b .Os \x7d\x7d_" ++
    "\x7b\x7b .Arch \x7d\x7d" ++
    "\x7b% if Arm %\x7dv\x7b\x7b Arm \x7d\x7d\x7b% endif %\x7d" ++
    "\x7b% if Mips %\x7d_\x7b\x7b Mips \x7d\x7d\x7b% endif %\x7d" ++
    "\x7b% if Amd64 and Amd64 != \"v1\" %\x7d\x7b\x7b Amd64 \x7d\x7d\x7b% endif %\x7d").toList

def defaultBinaryNameTemplate : Text :=
  ("\x7b\x7b .Binary \x7d\x7d_\x7b\x7b .Version \x7d\x7d_\x7b\x7b .Os \x7d\x7d_" ++
    "\x7b\x7b .Arch \x7d\x7d" ++
    "\x7b% if Arm %\x7dv\x7b\x7b Arm \x7d\x7d\x7b% endif %\x7d" ++
    "\x7b% if Mips %\x7d_\x7b\x7b Mips \x7d\x7d\x7b% endif %\x7d" ++
    "\x7b% if Amd64 and Amd64 != \"v1\" %\x7d\x7b\x7b Amd64 \x7d\x7d\x7b% endif %\x7d").toList

/-- Several crates are told apart by the project name, which is then the crate's. -/
def defaultNameTemplateMultiCrate : Text := defaultNameTemplate

/-- The plan of an entry, or nothing when it has no binaries. -/
def planConfig (allBinaries : List Artifact) (index : ℕ) (archiveCfg : ArchiveConfig) :
    Except Text (Option ConfigPlan) := do
  let archiveId := archiveCfg.id.getD "default".toList
  let proceed ← naming.evaluateIfCondition crateName index archiveCfg.ifCondition
  let nameTmpl := archiveCfg.nameTemplate.getD
    (if run.multiCrate then defaultNameTemplateMultiCrate else defaultNameTemplate)
  let binaryNameTmpl := archiveCfg.nameTemplate.getD defaultBinaryNameTemplate
  if !proceed then
    return some ⟨index, archiveCfg, archiveId,
      some ("skipped archives[".toList ++ archiveId ++ "] — `if` condition evaluated falsy".toList),
      nameTmpl, binaryNameTmpl, [], fun _ => rfl⟩
  match ← groupBinariesByTarget run crateName archiveCfg allBinaries with
  | none => return none
  | some byTarget =>
    let targets ← byTarget.mapM
      (planTarget naming run crateName index archiveCfg nameTmpl binaryNameTmpl)
    return some ⟨index, archiveCfg, archiveId, none, nameTmpl, binaryNameTmpl,
      targets.reduceOption, fun h => absurd rfl h⟩

def planCrate (crateDir : Text) (archiveCfgs : List ArchiveConfig) (allBinaries : List Artifact) :
    Except Text CratePlan := do
  let configs ← archiveCfgs.zipIdx.mapM fun (cfg, index) =>
    planConfig naming run crateName allBinaries index cfg
  return ⟨crateName, crateDir, configs.reduceOption⟩

end Plan

def archivableKinds : List ArtifactKind := [.binary, .universalBinary, .header, .cArchive, .cShared]

def collectCrateArchivableArtifacts (registry : List Artifact) (crateName : Text) :
    List Artifact :=
  registry.filter fun a => a.kind ∈ archivableKinds && a.crateName = crateName

/-- Plan the crates that have something to archive. -/
def planCrates (naming : Naming) (run : RunInputs) (registry : List Artifact)
    (work : List CrateWork) : Except Text (List CratePlan) := do
  let plans ← work.mapM fun krate => do
    let allBinaries := collectCrateArchivableArtifacts registry krate.name
    if allBinaries = [] && !krate.archives.any (·.isMeta.getD false) then
      return none
    return some (← planCrate naming run krate.name krate.dir krate.archives allBinaries)
  return plans.reduceOption

/-! ### Selection -/

section Selection

open Traverse (bind_eq_ok mapM_eq_ok exists_of_mem_mapM)

variable {naming : Naming} {run : RunInputs} {crateName : Text} {index : ℕ}
  {archiveCfg : ArchiveConfig} {allBinaries : List Artifact} {cfg : ConfigPlan}

/-- The binaries of an entry: those of its ids, then those it lists. A meta entry has none. -/
def selection (archiveCfg : ArchiveConfig) (allBinaries : List Artifact) : List Artifact :=
  (if archiveCfg.isMeta.getD false then []
    else allBinaries.filter (·.matchesIdFilter archiveCfg.ids)).filter (selects archiveCfg)

/-- Filtering by each of the keys once splits a list. -/
theorem perm_flatMap_filter {keys : List TargetVariantKey} (hnodup : keys.Nodup) :
    ∀ bins : List Artifact, (∀ b ∈ bins, targetVariantKey b ∈ keys) →
      (keys.flatMap fun key => bins.filter (targetVariantKey · = key)).Perm bins := by
  induction keys with
  | nil =>
    intro bins hbins
    have hnil : bins = [] := List.eq_nil_iff_forall_not_mem.mpr fun b hb =>
      absurd (hbins b hb) List.not_mem_nil
    rw [hnil]
    exact .nil
  | cons key keys ih =>
    intro bins hbins
    obtain ⟨hkey, hnodup⟩ := List.nodup_cons.mp hnodup
    have hrest : (keys.flatMap fun key' => bins.filter (targetVariantKey · = key')) =
        keys.flatMap fun key' =>
          (bins.filter fun b => !decide (targetVariantKey b = key)).filter
            (targetVariantKey · = key') := by
      refine List.flatMap_congr fun key' hkey' => ?_
      rw [List.filter_filter]
      refine List.filter_congr fun b _ => ?_
      by_cases hb : targetVariantKey b = key'
      · have hne : key' ≠ key := fun heq => hkey (heq ▸ hkey')
        simp [hb, hne]
      · simp [hb]
    rw [List.flatMap_cons, hrest]
    refine (List.Perm.append_left _ (ih hnodup _ fun b hb => ?_)).trans
      (List.filter_append_perm _ bins)
    obtain ⟨hb, hne⟩ := List.mem_filter.mp hb
    rcases List.mem_cons.mp (hbins b hb) with heq | hmem
    · simp [heq] at hne
    · exact hmem

theorem perm_groupByTargetVariant (bins : List Artifact) :
    ((groupByTargetVariant bins).flatMap (·.2)).Perm bins := by
  have hperm := StableSort.perm_sortBy keyOrder (bins.map targetVariantKey).dedup
  rw [groupByTargetVariant, List.flatMap_map]
  refine perm_flatMap_filter (hperm.nodup_iff.mpr (List.nodup_dedup _)) bins fun b hb => ?_
  exact hperm.mem_iff.mpr (List.mem_dedup.mpr (List.mem_map_of_mem hb))

theorem groupBinariesByTarget_ok {byTarget : List (TargetVariantKey × List Artifact)}
    (h : groupBinariesByTarget run crateName archiveCfg allBinaries = .ok (some byTarget)) :
    (byTarget.flatMap (·.2)).Perm (if archiveCfg.isMeta.getD false then []
      else allBinaries.filter (·.matchesIdFilter archiveCfg.ids)) := by
  unfold groupBinariesByTarget at h
  cases hmeta : archiveCfg.isMeta.getD false with
  | true =>
    simp only [hmeta, pure, Except.pure, throw, throwThe, MonadExceptOf.throw, bind, Except.bind,
      if_true] at h
    repeat' split at h
    all_goals cases h
    all_goals exact .nil
  | false =>
    simp only [hmeta, pure, Except.pure, throw, throwThe, MonadExceptOf.throw, bind, Except.bind,
      Bool.false_eq_true, if_false] at h
    repeat' split at h
    all_goals cases h
    all_goals exact perm_groupByTargetVariant _

/-- A target packs the selected binaries of its group, and is left out when there are none. -/
theorem planTarget_ok {nameTmpl binaryNameTmpl : Text} {group : TargetVariantKey × List Artifact}
    {result : Option TargetPlan}
    (h : planTarget naming run crateName index archiveCfg nameTmpl binaryNameTmpl group =
      .ok result) :
    (result.map TargetPlan.selectedBins).getD [] = group.2.filter (selects archiveCfg) := by
  unfold planTarget at h
  simp only [pure, Except.pure, throw, throwThe, MonadExceptOf.throw, bind, Except.bind] at h
  repeat' split at h
  all_goals cases h
  · next hnone =>
    simp only [Bool.and_eq_true, decide_eq_true_eq] at hnone
    exact hnone.1.symm
  all_goals rfl

theorem selectedBins_planTargets {nameTmpl binaryNameTmpl : Text}
    {byTarget : List (TargetVariantKey × List Artifact)} {targets : List (Option TargetPlan)}
    (h : byTarget.mapM (planTarget naming run crateName index archiveCfg nameTmpl binaryNameTmpl) =
      .ok targets) : targets.reduceOption.flatMap TargetPlan.selectedBins =
      (byTarget.flatMap (·.2)).filter (selects archiveCfg) := by
  rw [mapM_eq_ok] at h
  induction byTarget generalizing targets with
  | nil =>
    obtain rfl : targets = [] := by simpa using h.symm
    rfl
  | cons group byTarget ih =>
    cases targets with
    | nil => cases h
    | cons result targets =>
      obtain ⟨hhead, htail⟩ := List.cons.inj h
      rw [List.flatMap_cons, List.filter_append, ← ih htail, ← planTarget_ok hhead]
      cases result with
      | none => simp
      | some tp => simp

/-- Each selected binary of an entry is packed for one target. -/
theorem perm_selection (h : planConfig naming run crateName allBinaries index archiveCfg =
    .ok (some cfg)) (hskip : cfg.skip = none) :
    cfg.archive = archiveCfg ∧
      (cfg.targets.flatMap TargetPlan.selectedBins).Perm (selection archiveCfg allBinaries) := by
  unfold planConfig at h
  obtain ⟨proceed, -, h⟩ := bind_eq_ok.mp h
  cases proceed with
  | false =>
    cases h
    cases hskip
  | true =>
  obtain ⟨result, hgroups, h⟩ := bind_eq_ok.mp h
  cases result with
  | none => cases h
  | some byTarget =>
    obtain ⟨targets, htargets, h⟩ := bind_eq_ok.mp h
    cases h
    refine ⟨rfl, ?_⟩
    rw [selectedBins_planTargets htargets]
    exact (groupBinariesByTarget_ok hgroups).filter _

variable {registry : List Artifact} {work : List CrateWork} {plans : List CratePlan}
  {krate : CratePlan}

/-- Each planned entry is one of the crate's, planned for the crate's binaries. -/
theorem exists_planConfig (h : planCrates naming run registry work = .ok plans)
    (hkrate : krate ∈ plans) (hcfg : cfg ∈ krate.configs) :
    ∃ w ∈ work, ∃ archiveCfg ∈ w.archives, ∃ index, planConfig naming run w.name
      (collectCrateArchivableArtifacts registry w.name) index archiveCfg = .ok (some cfg) := by
  obtain ⟨results, hresults, h⟩ := bind_eq_ok.mp h
  cases h
  obtain ⟨w, hw, hcrate⟩ :=
    exists_of_mem_mapM hresults (List.reduceOption_mem_iff.mp hkrate)
  dsimp only at hcrate
  split at hcrate
  · cases hcrate
  obtain ⟨planned, hplanned, heq⟩ := bind_eq_ok.mp hcrate
  cases heq
  obtain ⟨configs, hconfigs, heq⟩ := bind_eq_ok.mp hplanned
  cases heq
  obtain ⟨⟨archiveCfg, index⟩, hmem, hcfg⟩ :=
    exists_of_mem_mapM hconfigs (List.reduceOption_mem_iff.mp hcfg)
  exact ⟨w, hw, archiveCfg, List.fst_mem_of_mem_zipIdx hmem, index, hcfg⟩

/-- A meta entry packs no binaries. -/
theorem selectedBins_of_isMeta (h : planCrates naming run registry work = .ok plans)
    (hkrate : krate ∈ plans) (hcfg : cfg ∈ krate.configs) (hmeta : cfg.isMeta = true)
    {target : TargetPlan} (htarget : target ∈ cfg.targets) : target.selectedBins = [] := by
  obtain ⟨w, -, archiveCfg, -, index, hplan⟩ := exists_planConfig h hkrate hcfg
  have hskip : cfg.skip = none := by
    by_contra hskip
    rw [cfg.idle hskip] at htarget
    cases htarget
  obtain ⟨rfl, hperm⟩ := perm_selection hplan hskip
  have hnone : selection cfg.archive (collectCrateArchivableArtifacts registry w.name) = [] := by
    rw [ConfigPlan.isMeta] at hmeta
    rw [selection, if_pos hmeta, List.filter_nil]
  rw [hnone] at hperm
  exact List.flatMap_eq_nil_iff.mp hperm.eq_nil target htarget

end Selection

/-! ### Outputs -/

/-- A target of an entry of a crate. -/
structure Place where
  krate : CratePlan
  cfg : ConfigPlan
  target : TargetPlan

/-- An output of a format: the archive, or one of the raw binaries. -/
structure Output where
  place : Place
  format : FormatPlan place.target.selectedBins
  raw : Option BinaryOutput

def Output.path (o : Output) : Text :=
  match o.raw with
  | none => o.format.archivePath
  | some out => out.dest

/-- The outputs of a format. One that is skipped has none. -/
def formatOutputs (place : Place) (fp : FormatPlan place.target.selectedBins) : List Output :=
  if fp.skip.isSome then []
  else if fp.format = formatBinary then fp.binaryOutputs.map fun out => ⟨place, fp, some out⟩
  else [⟨place, fp, none⟩]

def targetOutputs (place : Place) : List Output :=
  place.target.formats.flatMap (formatOutputs place)

def configOutputs (krate : CratePlan) (cfg : ConfigPlan) : List Output :=
  cfg.targets.flatMap fun target => targetOutputs ⟨krate, cfg, target⟩

/-- The outputs of a crate, in the order in which they are written. -/
def CratePlan.outputs (krate : CratePlan) : List Output :=
  krate.configs.flatMap (configOutputs krate)

def outputs (plans : List CratePlan) : List Output := plans.flatMap CratePlan.outputs

/-- The place is one of the plan. -/
def Planned (plans : List CratePlan) (place : Place) : Prop :=
  place.krate ∈ plans ∧ place.cfg ∈ place.krate.configs ∧ place.target ∈ place.cfg.targets

/-! ### The guard -/

/-- An output path with what tells its claimant. -/
structure Claim where
  path : Text
  artifact : Text
  nameTemplate : Text
  rendered : Text
  crateName : Text
  target : Text
  amd64Variant : Option Text
  entry : ℕ
  binary : Option Text

def Output.claim (o : Output) : Claim where
  path := o.path
  artifact := if o.raw.isSome then formatBinary else "archive".toList
  nameTemplate := if o.raw.isSome then o.place.cfg.binaryNameTmpl else o.place.cfg.nameTmpl
  rendered := (o.raw.map BinaryOutput.stem).getD o.format.archiveFilename
  crateName := o.place.krate.crateName
  target := o.place.target.target
  amd64Variant := o.place.target.groupVariant
  entry := o.place.cfg.index
  binary :=
    match o.raw with
    | none => o.place.target.binary
    | some out => out.binary

/-- A path that is claimed already is refused. Paths are compared by their components. -/
def check (collisionMessage : Claim → Claim → Text) (seen : List Claim) (claim : Claim) :
    Except Text (List Claim) :=
  match seen.find? fun prior => components prior.path = components claim.path with
  | none => .ok (claim :: seen)
  | some prior => .error (collisionMessage claim prior)

def checkClaims (collisionMessage : Claim → Claim → Text) (seen : List Claim)
    (claims : List Claim) : Except Text (List Claim) :=
  claims.foldlM (check collisionMessage) seen

/-- The component list of an output, by which its file is told from others. -/
def Output.key (o : Output) : List Text := components o.path

/-- The guard lets a plan pass when its outputs have paths of their own. -/
theorem checkClaims_ok {collisionMessage : Claim → Claim → Text} {seen : List Claim}
    {claims : List Claim} :
    (∃ seen', checkClaims collisionMessage seen claims = .ok seen') ↔
      (claims.map fun c => components c.path).Nodup ∧
        ∀ c ∈ claims, ∀ prior ∈ seen, components prior.path ≠ components c.path := by
  induction claims generalizing seen with
  | nil => simp [checkClaims, pure, Except.pure]
  | cons c claims ih =>
    have hstep : checkClaims collisionMessage seen (c :: claims) =
        (check collisionMessage seen c).bind fun seen => checkClaims collisionMessage seen claims :=
      rfl
    rw [hstep, check]
    split
    · next hnone =>
      have hfresh : ∀ prior ∈ seen, components prior.path ≠ components c.path := by
        simpa using hnone
      rw [Except.bind, ih, List.map_cons, List.nodup_cons, List.forall_mem_cons]
      simp only [List.forall_mem_cons, List.mem_map, not_exists, not_and]
      constructor
      · rintro ⟨hnodup, hall⟩
        exact ⟨⟨fun b hb heq => (hall b hb).1 heq.symm, hnodup⟩, hfresh, fun b hb => (hall b hb).2⟩
      · rintro ⟨⟨hhead, hnodup⟩, -, hall⟩
        exact ⟨hnodup, fun b hb => ⟨fun heq => hhead b hb heq.symm, hall b hb⟩⟩
    · next prior hprior =>
      have hmem := List.mem_of_find?_eq_some hprior
      have heq : components prior.path = components c.path := by
        simpa using List.find?_some hprior
      constructor
      · rintro ⟨seen', h⟩
        cases h
      · rintro ⟨-, hall⟩
        exact absurd heq (hall c List.mem_cons_self prior hmem)

end Anodizer.Archive
