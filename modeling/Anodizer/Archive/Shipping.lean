import Anodizer.Archive.Run

/-! # What the archive stage ships

Either the stage fails, before it writes anything when two outputs have one path, or it registers
its outputs under paths of their own. An archive holds, under the name of a selected binary, the
bytes of the first selected binary of that name.
-/

namespace Anodizer.Archive

open Loop (Flow)
open Outputs (Wrote)
open PublishOnly (components)
open Template (Text)

/-! ### Properties of a run -/

/-- What a run leaves of a format that is not skipped: the plan, the files before and after. -/
abbrev Contents := List CratePlan → Disk → Disk → (place : Place) →
  FormatPlan place.target.selectedBins → Prop

/-- The stage fails, before it writes when two outputs have one path, or registers its outputs
under paths of their own, and leaves each format with its contents. -/
def StageShips (contents : Contents) (env : Env) (opts : Options) (work : List CrateWork)
    (registry : List Artifact) (disk : Disk) : Prop :=
  (∀ plans, plan env opts work registry = .ok plans → ¬ ((outputs plans).map Output.key).Nodup →
    ∃ e, run env opts work registry disk = .stop (e, disk)) ∧
  ∀ disk' registry', run env opts work registry disk = .next (disk', registry') →
    ∃ plans new, plan env opts work registry = .ok plans ∧ registry' = registry ++ new ∧
      new.map (·.path) = (outputs plans).map Output.path ∧
      (new.map fun a => components a.path).Nodup ∧
      (opts.dryRun = false → ∀ place, Planned plans place → ∀ fp ∈ place.target.formats,
        fp.skip = none → contents plans disk disk' place fp)

/-- The bytes of each selected binary: under its name in an archive, or at a path of its own. -/
def shipsEvery (env : Env) : Contents := fun _ disk disk' place fp =>
  if fp.format = formatBinary then
    ∀ b ∈ place.target.selectedBins, ∃ out ∈ fp.binaryOutputs, out.bin = b ∧
      disk'.read out.dest = disk.read b.path
  else
    ∃ wrapDir file, wrapDirectory env place = .ok wrapDir ∧
      disk'.read fp.archivePath = some file ∧
      ∀ b ∈ place.target.selectedBins,
        file.under (inArchiveName place wrapDir b) = disk.read b.path

/-- No output of the run is written over the binary's own file. -/
def Apart (plans : List CratePlan) (b : Artifact) : Prop :=
  ∀ o ∈ outputs plans, o.key ≠ components b.path

/-- The first selected binary that has the binary's name in an archive. -/
def firstNamed (place : Place) (wrapDir : Option Text) (b : Artifact) : Option Artifact :=
  place.target.selectedBins.find? fun b' =>
    components (inArchiveName place wrapDir b') = components (inArchiveName place wrapDir b)

/-- There is nothing else to pack. -/
def OnlyEntry (env : Env) (opts : Options) (place : Place)
    (fp : FormatPlan place.target.selectedBins) : Prop :=
  ∀ auxFiles disk prepared entries, env.generateAuxFiles place.krate place.cfg = .ok auxFiles →
    prepareTarget env opts place auxFiles disk = .ok prepared →
    packedEntries env opts place prepared fp = .ok entries → entries.length = 1

/-- The bytes of the first selected binary of each name in an archive, or of each selected binary
at a path of its own, unless an output is written over that binary's file. -/
def shipsFirst (env : Env) (opts : Options) : Contents := fun plans disk disk' place fp =>
  if fp.format = formatBinary then
    ∀ b ∈ place.target.selectedBins, ∃ out ∈ fp.binaryOutputs, out.bin = b ∧
      (Apart plans b → disk'.read out.dest = disk.read b.path)
  else
    ∃ wrapDir file, wrapDirectory env place = .ok wrapDir ∧
      disk'.read fp.archivePath = some file ∧
      ((fp.format = "gz".toList → OnlyEntry env opts place fp) →
        ∀ b ∈ place.target.selectedBins, ∃ first, firstNamed place wrapDir b = some first ∧
          (Apart plans first → file.under (inArchiveName place wrapDir b) = disk.read first.path))

/-! ### Files outside of the outputs -/

section Write

variable {env : Env} {opts : Options} {plans : List CratePlan} {disk d d' : Disk} {place : Place}
  {fp : FormatPlan place.target.selectedBins} {prepared : Prepared} {path : Text} {f : File}
  {b : Artifact} {auxFiles : List ResolvedExtraFile} {entries : List ArchiveEntry}

/-- The files that are no outputs are as they were. -/
def Agrees (plans : List CratePlan) (disk d : Disk) : Prop :=
  ∀ k ∉ (outputs plans).map Output.key, d k = disk k

theorem Agrees.write (h : Agrees plans disk d) {o : Output} (ho : o ∈ outputs plans) :
    Agrees plans disk (d.write o.path f) := by
  intro k hk
  rw [Disk.write_of_ne, h k hk]
  rintro rfl
  exact hk (List.mem_map_of_mem ho)

theorem Agrees.read (h : Agrees plans disk d) (hb : Apart plans b) :
    d.read b.path = disk.read b.path := by
  refine h _ fun hmem => ?_
  obtain ⟨o, ho, heq⟩ := List.mem_map.mp hmem
  exact hb o ho heq

theorem formatOutputs_subset (hplace : Planned plans place) (hfp : fp ∈ place.target.formats) :
    formatOutputs place fp ⊆ outputs plans := by
  obtain ⟨hkrate, hcfg, htarget⟩ := hplace
  intro o ho
  exact List.mem_flatMap.mpr ⟨place.krate, hkrate, List.mem_flatMap.mpr ⟨place.cfg, hcfg,
    List.mem_flatMap.mpr ⟨place.target, htarget, List.mem_flatMap.mpr ⟨fp, hfp, ho⟩⟩⟩⟩

/-! ### One format -/

/-- What an output holds once it is written. -/
def Holds (env : Env) (opts : Options) (plans : List CratePlan) (disk : Disk) (o : Output)
    (stored : Option File) : Prop :=
  opts.dryRun = false →
    match o.raw with
    | some out => Apart plans out.bin → stored = disk.read out.bin.path
    | none => ∃ wrapDir file, wrapDirectory env o.place = .ok wrapDir ∧ stored = some file ∧
        ((o.format.format = "gz".toList → OnlyEntry env opts o.place o.format) →
          ∀ b ∈ o.place.target.selectedBins, ∃ first, firstNamed o.place wrapDir b = some first ∧
            (Apart plans first →
              file.under (inArchiveName o.place wrapDir b) = disk.read first.path))

theorem prepareTarget_ok (h : prepareTarget env opts place auxFiles d = .ok prepared) :
    ∃ wrapDir info extra, wrapDirectory env place = .ok wrapDir ∧
      prepared.baseEntries =
        (if place.cfg.isMeta then [] else place.target.selectedBins).map
          (binaryEntry place wrapDir info) ++ extra ∧
      ∀ b ∈ if place.cfg.isMeta then [] else place.target.selectedBins,
        opts.dryRun = false → (d.read b.path).isSome := by
  obtain ⟨wrapDir, hwrap, h⟩ := Traverse.bind_eq_ok.mp h
  obtain ⟨⟨⟩, hcheck, h⟩ := Traverse.bind_eq_ok.mp h
  obtain ⟨found, -, h⟩ := Traverse.bind_eq_ok.mp h
  obtain ⟨info, -, h⟩ := Traverse.bind_eq_ok.mp h
  obtain ⟨extra, -, h⟩ := Traverse.bind_eq_ok.mp h
  obtain ⟨mtime, -, h⟩ := Traverse.bind_eq_ok.mp h
  cases h
  refine ⟨wrapDir, info, extra, hwrap, rfl, fun b hb hdry => ?_⟩
  have hb' := Loop.forM_ok_iff.mp hcheck b hb
  unfold checkBinary at hb'
  split at hb'
  · cases hb'
  · next hsome =>
    rw [hdry] at hsome
    exact Option.isSome_iff_ne_none.mpr (by simpa using hsome)

theorem packedEntries_ok (h : packedEntries env opts place prepared fp = .ok entries) :
    ∃ templated,
      entries = sortEntries (deduplicateEntries (prepared.baseEntries ++ templated)) := by
  obtain ⟨-, -, h⟩ := Traverse.bind_eq_ok.mp h
  obtain ⟨templated, -, h⟩ := Traverse.bind_eq_ok.mp h
  dsimp only at h
  split at h
  · cases h
  · cases h
    exact ⟨_, rfl⟩

/-- The first selected binary of a name is packed, and is there to be read. -/
theorem exists_firstNamed (wrapDir : Option Text) (info : ArchiveFileInfo)
    (extra templated : List ArchiveEntry) (hb : b ∈ place.target.selectedBins) :
    ∃ first ∈ place.target.selectedBins, firstNamed place wrapDir b = some first ∧
      components (inArchiveName place wrapDir b) = components (inArchiveName place wrapDir first) ∧
      binaryEntry place wrapDir info first ∈ sortEntries (deduplicateEntries
        (place.target.selectedBins.map (binaryEntry place wrapDir info) ++ extra ++ templated)) := by
  obtain ⟨first, hfirst⟩ := Option.isSome_iff_exists.mp
    (List.find?_isSome.mpr ⟨b, hb, decide_eq_true rfl⟩ : (firstNamed place wrapDir b).isSome)
  have hname : components (inArchiveName place wrapDir first) =
      components (inArchiveName place wrapDir b) := by simpa using List.find?_some hfirst
  refine ⟨first, List.mem_of_find?_eq_some hfirst, hfirst, hname.symm, mem_packed ?_⟩
  have hfind : (place.target.selectedBins.map (binaryEntry place wrapDir info)).find?
      (·.key = (binaryEntry place wrapDir info first).key) =
      some (binaryEntry place wrapDir info first) := by
    rw [List.find?_map]
    have hkey : (fun e : ArchiveEntry => decide (e.key = (binaryEntry place wrapDir info first).key))
        ∘ binaryEntry place wrapDir info = fun b' => decide
          (components (inArchiveName place wrapDir b') =
            components (inArchiveName place wrapDir b)) := by
      funext b'
      refine decide_eq_decide.mpr ?_
      rw [← hname]
      rfl
    rw [hkey]
    exact congrArg (Option.map _) hfirst
  rw [List.append_assoc, List.find?_append, hfind, Option.some_or]

/-- A raw binary is copied to a path of its own. -/
theorem writeRaw_wrote (hsub : formatOutputs place fp ⊆ outputs plans)
    (hraw : formatOutputs place fp = fp.binaryOutputs.map fun out => ⟨place, fp, some out⟩)
    (hnodup : ((formatOutputs place fp).map Output.key).Nodup) (hd : Agrees plans disk d)
    (h : Loop.run (fun out disk => copyBinary disk out.bin.path out.dest) fp.binaryOutputs d =
      .next d') :
    Agrees plans disk d' ∧ Wrote (fun (d : Disk) k => d k) Output.key (Holds env opts plans disk)
      (formatOutputs place fp) d d' := by
  have hmap : fp.binaryOutputs.flatMap (fun out => [(⟨place, fp, some out⟩ : Output)]) =
      formatOutputs place fp := by rw [hraw, List.map_eq_flatMap]
  rw [← hmap] at hnodup hsub ⊢
  refine Outputs.wrote_run hd hnodup (fun out hout _ d d' hd hcopy => ?_) h
  obtain ⟨f, hf, rfl⟩ := copyBinary_next hcopy
  have hmem : (⟨place, fp, some out⟩ : Output) ∈ outputs plans :=
    hsub (List.mem_flatMap.mpr ⟨out, hout, List.mem_singleton_self _⟩)
  refine ⟨hd.write hmem, fun o ho hdry => ?_, fun k hk => ?_⟩
  · obtain rfl := List.mem_singleton.mp ho
    intro hapart
    have hne : components out.bin.path ≠ components out.dest := (hapart _ hmem).symm
    rw [Disk.read_write_ne hne] at hf
    exact Disk.read_write_self.trans (hf.symm.trans (hd.read hapart))
  · exact Disk.write_of_ne fun heq => hk (List.mem_singleton.mpr heq)

/-- An archive holds the first binary of each name. -/
theorem writeArchive_wrote
    (hmeta : place.cfg.isMeta = true → place.target.selectedBins = [])
    (hsub : formatOutputs place fp ⊆ outputs plans)
    (harchive : formatOutputs place fp = [⟨place, fp, none⟩]) {d₀ : Disk}
    (hd₀ : Agrees plans disk d₀)
    (haux : env.generateAuxFiles place.krate place.cfg = .ok auxFiles)
    (hprep : prepareTarget env opts place auxFiles d₀ = .ok prepared)
    (hentries : packedEntries env opts place prepared fp = .ok entries) (hd : Agrees plans disk d)
    (h : writeArchiveInFormat fp.format fp.archivePath entries prepared.mtime opts.strict d =
      .next d') :
    Agrees plans disk d' ∧ Wrote (fun (d : Disk) k => d k) Output.key (Holds env opts plans disk)
      (formatOutputs place fp) d d' := by
  obtain ⟨wrapDir, info, extra, hwrap, hbase, hpresent⟩ := prepareTarget_ok hprep
  obtain ⟨templated, rfl⟩ := packedEntries_ok hentries
  have hbins : (if place.cfg.isMeta then [] else place.target.selectedBins) =
      place.target.selectedBins := by
    split
    · next h => exact (hmeta h).symm
    · rfl
  rw [hbins] at hbase hpresent
  obtain ⟨file, rfl, hfile⟩ := writeArchiveInFormat_next h nodup_packed
  have hmem : (⟨place, fp, none⟩ : Output) ∈ outputs plans :=
    hsub (harchive ▸ List.mem_singleton_self _)
  rw [harchive]
  refine ⟨hd.write hmem, fun o ho hdry => ?_,
    fun k hk => Disk.write_of_ne fun heq => hk (List.mem_singleton.mpr heq)⟩
  obtain rfl := List.mem_singleton.mp ho
  refine ⟨wrapDir, file, hwrap, Disk.read_write_self, fun hone b hb => ?_⟩
  obtain ⟨first, hfirst, hfind, hname, hpacked⟩ :=
    exists_firstNamed wrapDir info extra templated hb
  refine ⟨first, hfind, fun hapart => ?_⟩
  rw [← hbase] at hpacked
  obtain ⟨f, hf⟩ := Option.isSome_iff_exists.mp (hpresent first hfirst hdry)
  have hne : components first.path ≠ components fp.archivePath := (hapart _ hmem).symm
  have hread : (d.write fp.archivePath (.raw [])).read first.path = some f := by
    rw [Disk.read_write_ne hne, hd.read hapart, ← hd₀.read hapart, hf]
  rw [under_congr hname, ← hd₀.read hapart, hf]
  exact hfile (fun hgz => hone hgz _ _ _ _ haux hprep hentries) _ hpacked f hread

/-! ### The run -/

/-- What a run has written of some outputs. -/
abbrev WroteOutputs (env : Env) (opts : Options) (plans : List CratePlan) (disk : Disk)
    (os : List Output) (w w' : World) : Prop :=
  Wrote (fun w k => World.disk w k) Output.key (Holds env opts plans disk) os w w'

variable {w w' : World}

theorem writeFormat_wrote (hplace : Planned plans place)
    (hmeta : place.cfg.isMeta = true → place.target.selectedBins = [])
    (hfp : fp ∈ place.target.formats) {d₀ : Disk} (hd₀ : Agrees plans disk d₀)
    (haux : env.generateAuxFiles place.krate place.cfg = .ok auxFiles)
    (hprep : prepareTarget env opts place auxFiles d₀ = .ok prepared)
    (hnodup : ((formatOutputs place fp).map Output.key).Nodup) (hw : Agrees plans disk w.disk)
    (h : writeFormat env opts place prepared fp w = .next w') :
    Agrees plans disk w'.disk ∧
      WroteOutputs env opts plans disk (formatOutputs place fp) w w' := by
  have hsub := formatOutputs_subset hplace hfp
  unfold writeFormat at h
  split at h
  · next hskip =>
    cases h
    rw [formatOutputs, if_pos hskip]
    exact ⟨hw, .nil _⟩
  next hskip =>
  split at h
  · cases h
  next entries hentries =>
  split at h
  · cases h
  next d' hwrite =>
  split at h
  · cases h
  cases h
  suffices hdisk : Agrees plans disk d' ∧ Wrote (fun (d : Disk) k => d k) Output.key
      (Holds env opts plans disk) (formatOutputs place fp) w.disk d' from
    ⟨hdisk.1, hdisk.2.stored, hdisk.2.frame⟩
  unfold writeOutputs at hwrite
  split at hwrite
  · next hdry =>
    cases hwrite
    refine ⟨hw, fun o _ hnot => ?_, fun _ _ => rfl⟩
    rw [hdry] at hnot
    cases hnot
  · split at hwrite
    · next hraw =>
      exact writeRaw_wrote hsub (by rw [formatOutputs, if_neg hskip, if_pos hraw]) hnodup hw hwrite
    · next hraw =>
      exact writeArchive_wrote hmeta hsub (by rw [formatOutputs, if_neg hskip, if_neg hraw]) hd₀
        haux hprep hentries hw hwrite

theorem writeTarget_wrote (hplace : Planned plans place)
    (hmeta : place.cfg.isMeta = true → place.target.selectedBins = [])
    (haux : env.generateAuxFiles place.krate place.cfg = .ok auxFiles)
    (hnodup : ((targetOutputs place).map Output.key).Nodup) (hw : Agrees plans disk w.disk)
    (h : writeTarget env opts place auxFiles w = .next w') :
    Agrees plans disk w'.disk ∧ WroteOutputs env opts plans disk (targetOutputs place) w w' := by
  unfold writeTarget at h
  split at h
  · cases h
  · next prepared hprep =>
    exact Outputs.wrote_run (I := fun w => Agrees plans disk w.disk) hw hnodup
      (fun fp hfp hown w w' hw' => writeFormat_wrote hplace hmeta hfp hw haux hprep hown hw') h

variable {krate : CratePlan} {cfg : ConfigPlan}

theorem writeConfig_wrote (hkrate : krate ∈ plans) (hcfg : cfg ∈ krate.configs)
    (hmeta : cfg.isMeta = true → ∀ target ∈ cfg.targets, target.selectedBins = [])
    (hnodup : ((configOutputs krate cfg).map Output.key).Nodup) (hw : Agrees plans disk w.disk)
    (h : writeConfig env opts krate cfg w = .next w') :
    Agrees plans disk w'.disk ∧
      WroteOutputs env opts plans disk (configOutputs krate cfg) w w' := by
  unfold writeConfig at h
  split at h
  · next hskip =>
    cases h
    rw [configOutputs, cfg.idle (by simpa [Option.isSome_iff_ne_none] using hskip)]
    exact ⟨hw, .nil _⟩
  · split at h
    · cases h
    · next auxFiles haux =>
      exact Outputs.wrote_run (I := fun w => Agrees plans disk w.disk) hw hnodup
        (fun target htarget hown w w' hw' => writeTarget_wrote
          ⟨hkrate, hcfg, htarget⟩ (fun h => hmeta h target htarget) haux hown hw') h

/-- A run that succeeds has written every output. -/
theorem writeCrates_wrote
    (hmeta : ∀ krate ∈ plans, ∀ cfg ∈ krate.configs, cfg.isMeta = true →
      ∀ target ∈ cfg.targets, target.selectedBins = [])
    (hnodup : ((outputs plans).map Output.key).Nodup)
    (h : Loop.run (writeCrateArchives env opts) plans ⟨disk, []⟩ = .next w') :
    WroteOutputs env opts plans disk (outputs plans) ⟨disk, []⟩ w' := by
  refine (Outputs.wrote_run (I := fun w => Agrees plans disk w.disk) (fun _ _ => rfl) hnodup
    (fun krate hkrate hown w w' hw hcrate => ?_) h).2
  exact Outputs.wrote_run (I := fun w => Agrees plans disk w.disk) hw hown
    (fun cfg hcfg hown w w' hw' => writeConfig_wrote hkrate hcfg (hmeta krate hkrate cfg hcfg) hown
      hw') hcrate

/-! ### Registered artifacts -/

theorem formatArtifacts_path (hskip : ¬ fp.skip.isSome) :
    (formatArtifacts place prepared fp).map (·.path) =
      (formatOutputs place fp).map Output.path := by
  rw [formatArtifacts, formatOutputs, if_neg hskip]
  split
  · rw [List.map_map, List.map_map]
    rfl
  · rfl

/-- A format registers its outputs. -/
theorem writeFormat_appended (h : writeFormat env opts place prepared fp w = .next w') :
    w'.newArtifacts.map (·.path) =
      w.newArtifacts.map (·.path) ++ (formatOutputs place fp).map Output.path := by
  unfold writeFormat at h
  split at h
  · next hskip =>
    cases h
    rw [formatOutputs, if_pos hskip, List.map_nil, List.append_nil]
  next hskip =>
  split at h
  · cases h
  split at h
  · cases h
  split at h
  · cases h
  cases h
  rw [List.map_append, formatArtifacts_path hskip]

theorem writeConfig_appended (h : writeConfig env opts krate cfg w = .next w') :
    w'.newArtifacts.map (·.path) =
      w.newArtifacts.map (·.path) ++ (configOutputs krate cfg).map Output.path := by
  unfold writeConfig at h
  split at h
  · next hskip =>
    cases h
    rw [configOutputs, cfg.idle (by simpa [Option.isSome_iff_ne_none] using hskip),
      List.flatMap_nil, List.map_nil, List.append_nil]
  split at h
  · cases h
  rw [configOutputs, List.map_flatMap]
  refine Outputs.appended_run (fun w : World => w.newArtifacts.map (·.path))
    (fun target _ w w' htarget => ?_) h
  unfold writeTarget at htarget
  split at htarget
  · cases htarget
  rw [targetOutputs, List.map_flatMap]
  exact Outputs.appended_run (fun w : World => w.newArtifacts.map (·.path))
    (fun fp _ w w' => writeFormat_appended) htarget

theorem writeCrates_appended (h : Loop.run (writeCrateArchives env opts) plans w = .next w') :
    w'.newArtifacts.map (·.path) =
      w.newArtifacts.map (·.path) ++ (outputs plans).map Output.path := by
  rw [outputs, List.map_flatMap]
  refine Outputs.appended_run (fun w : World => w.newArtifacts.map (·.path))
    (fun krate _ w w' hcrate => ?_) h
  rw [CratePlan.outputs, List.map_flatMap]
  exact Outputs.appended_run (fun w : World => w.newArtifacts.map (·.path))
    (fun cfg _ w w' => writeConfig_appended) hcrate

end Write

section Run

variable {env : Env} {opts : Options} {work : List CrateWork} {registry : List Artifact}
  {plans : List CratePlan} {disk : Disk}

theorem claims_key : ((outputs plans).map Output.claim).map (fun c => components c.path) =
    (outputs plans).map Output.key := by
  rw [List.map_map]
  rfl

theorem planCrates_of_plan (h : plan env opts work registry = .ok plans) :
    planCrates env.toNaming ⟨opts.dist, 1 < work.length, opts.defaultFormat, opts.formatOverrides,
      opts.strict⟩ registry work = .ok plans := by
  obtain ⟨_, -, h⟩ := Traverse.bind_eq_ok.mp h
  obtain ⟨_, -, h⟩ := Traverse.bind_eq_ok.mp h
  exact h

/-- What was written of a format, when no two outputs have one path. -/
theorem shipsFirst_of_wrote {w : World}
    (hwrote : WroteOutputs env opts plans disk (outputs plans) ⟨disk, []⟩ w)
    (hdry : opts.dryRun = false) {place : Place} (hplace : Planned plans place)
    {fp : FormatPlan place.target.selectedBins} (hfp : fp ∈ place.target.formats)
    (hskip : fp.skip = none) : shipsFirst env opts plans disk w.disk place fp := by
  have hstored : ∀ o ∈ formatOutputs place fp, Holds env opts plans disk o (w.disk o.key) :=
    fun o ho => hwrote.stored o (formatOutputs_subset hplace hfp ho)
  rw [formatOutputs, hskip, Option.isSome_none, if_neg Bool.false_ne_true] at hstored
  unfold shipsFirst
  split
  · next hraw =>
    rw [if_pos hraw] at hstored
    intro b hb
    rw [← fp.one_each hskip hraw] at hb
    obtain ⟨out, hout, rfl⟩ := List.mem_map.mp hb
    exact ⟨out, hout, rfl, hstored _ (List.mem_map_of_mem hout) hdry⟩
  · next hraw =>
    rw [if_neg hraw] at hstored
    exact hstored _ (List.mem_singleton_self _) hdry

/-- The stage ships its outputs under paths of their own, and the first binary of each name. -/
theorem stageShips_first : StageShips (shipsFirst env opts) env opts work registry disk := by
  constructor
  · intro plans hplan hclash
    have hrefused : ¬ ∃ seen, checkClaims env.collisionMessage []
        ((outputs plans).map Output.claim) = .ok seen := by
      rw [checkClaims_ok, claims_key]
      exact fun h => hclash h.1
    unfold run
    rw [hplan]
    cases hcheck : checkClaims env.collisionMessage [] ((outputs plans).map Output.claim) with
    | error e => exact ⟨e, by simp only [hcheck]⟩
    | ok seen => exact absurd ⟨seen, hcheck⟩ hrefused
  · intro disk' registry' hrun
    unfold run at hrun
    split at hrun
    · cases hrun
    next plans hplan =>
    split at hrun
    · cases hrun
    next seen hcheck =>
    split at hrun
    · cases hrun
    next w hw =>
    cases hrun
    have hnodup : ((outputs plans).map Output.key).Nodup :=
      claims_key ▸ (checkClaims_ok.mp ⟨seen, hcheck⟩).1
    have hmeta : ∀ krate ∈ plans, ∀ cfg ∈ krate.configs, cfg.isMeta = true →
        ∀ target ∈ cfg.targets, target.selectedBins = [] :=
      fun _ hkrate _ hcfg hmeta _ htarget =>
        selectedBins_of_isMeta (planCrates_of_plan hplan) hkrate hcfg hmeta htarget
    have hwrote := writeCrates_wrote hmeta hnodup hw
    have hpaths : w.newArtifacts.map (·.path) = (outputs plans).map Output.path :=
      writeCrates_appended hw
    refine ⟨plans, w.newArtifacts, hplan, rfl, hpaths, ?_, fun hdry place hplace fp hfp hskip =>
      shipsFirst_of_wrote hwrote hdry hplace hfp hskip⟩
    have hkeys : (w.newArtifacts.map fun a => components a.path) =
        (outputs plans).map Output.key := by
      calc (w.newArtifacts.map fun a => components a.path)
          = (w.newArtifacts.map (·.path)).map components := by rw [List.map_map]; rfl
        _ = ((outputs plans).map Output.path).map components := by rw [hpaths]
        _ = (outputs plans).map Output.key := by rw [List.map_map]; rfl
    rw [hkeys]
    exact hnodup

end Run

/-! ### Two binaries of one file name -/

/-- An environment that adds nothing and names an output after its binary. -/
def plainEnv : Env where
  evaluateIfCondition _ _ _ := .ok true
  render scope _ := .ok scope.binary
  collisionMessage _ _ := []
  createDist := .ok ()
  generateAuxFiles _ _ := .ok []
  renderWrapDirectory _ template := .ok template
  resolveExtraFiles _ := .ok []
  renderFileInfo _ info := .ok info
  resolveReproducibleMtime _ := .ok none
  beforeHook _ _ := .ok ()
  renderTemplatedFiles _ _ := .ok []
  afterHook _ _ := .ok ()

def plainOptions : Options := ⟨"dist".toList, "tar.gz".toList, [], false, false⟩

/-- A binary built into a directory of its own. -/
def appIn (dir : Text) : Artifact where
  kind := .binary
  name := "app".toList
  path := dir ++ "/app".toList
  target := some "x86_64-unknown-linux-gnu".toList
  crateName := "app".toList
  metadata := []
  size := none

def twins : List Artifact := [appIn "a".toList, appIn "b".toList]

def twinWork : List CrateWork := [⟨"app".toList, ".".toList, [{}]⟩]

def twinDisk : Disk :=
  (Disk.write (fun _ => none) "a/app".toList (.raw [1])).write "b/app".toList (.raw [2])

def twinFormat : FormatPlan twins where
  format := "tar.gz".toList
  skip := none
  archiveFilename := "app.tar.gz".toList
  archivePath := "dist/app.tar.gz".toList
  binaryOutputs := []
  one_each _ h := absurd h (by decide)

def twinTarget : TargetPlan :=
  ⟨"x86_64-unknown-linux-gnu".toList, some "app".toList, twins, none, "app".toList, [twinFormat]⟩

def twinConfig : ConfigPlan :=
  ⟨0, {}, "default".toList, none, defaultNameTemplate, defaultBinaryNameTemplate, [twinTarget],
    fun h => absurd rfl h⟩

def twinPlan : CratePlan := ⟨"app".toList, ".".toList, [twinConfig]⟩

/-- The plan of an entry that has binaries. -/
theorem planConfig_of_groups {naming : Naming} {run : RunInputs} {crateName : Text}
    {allBinaries : List Artifact} {index : ℕ} {cfg : ArchiveConfig} {nameTmpl binaryNameTmpl : Text}
    {byTarget : List (TargetVariantKey × List Artifact)} {targets : List (Option TargetPlan)}
    (hif : naming.evaluateIfCondition crateName index cfg.ifCondition = .ok true)
    (hname : cfg.nameTemplate.getD
      (if run.multiCrate then defaultNameTemplateMultiCrate else defaultNameTemplate) = nameTmpl)
    (hbinary : cfg.nameTemplate.getD defaultBinaryNameTemplate = binaryNameTmpl)
    (hgroups : groupBinariesByTarget run crateName cfg allBinaries = .ok (some byTarget))
    (htargets : byTarget.mapM (planTarget naming run crateName index cfg nameTmpl binaryNameTmpl) =
      .ok targets) :
    planConfig naming run crateName allBinaries index cfg =
      .ok (some ⟨index, cfg, cfg.id.getD "default".toList, none, nameTmpl, binaryNameTmpl,
        targets.reduceOption, fun h => absurd rfl h⟩) := by
  simp only [planConfig, hif, hname, hbinary, hgroups, htargets, bind, Except.bind, Bool.not_true,
    Bool.false_eq_true, if_false]
  rfl



theorem plan_twins : plan plainEnv plainOptions twinWork twins = .ok [twinPlan] := by
  have hgroups : groupBinariesByTarget ⟨"dist".toList, false, "tar.gz".toList, [], false⟩
      "app".toList {} twins = .ok (some [(("x86_64-unknown-linux-gnu".toList, none), twins)]) := rfl
  have htargets (t b : Text) : [(("x86_64-unknown-linux-gnu".toList, none), twins)].mapM
      (planTarget plainEnv.toNaming ⟨"dist".toList, false, "tar.gz".toList, [], false⟩
        "app".toList 0 {} t b) = .ok [some twinTarget] := rfl
  have hconfig : planConfig plainEnv.toNaming ⟨"dist".toList, false, "tar.gz".toList, [], false⟩
      "app".toList twins 0 {} = .ok (some twinConfig) := by
    apply planConfig_of_groups rfl _ Option.getD_none hgroups (htargets _ _)
    rw [Option.getD_none, if_neg Bool.false_ne_true]
  have hcollect : collectCrateArchivableArtifacts twins "app".toList = twins := rfl
  have hcrate : planCrate plainEnv.toNaming ⟨"dist".toList, false, "tar.gz".toList, [], false⟩
      "app".toList ".".toList [{}] twins = .ok twinPlan := by
    rw [planCrate, List.zipIdx_cons, List.zipIdx_nil, List.mapM_cons, List.mapM_nil]
    simp only [hconfig]
    rfl
  have hplans : planCrates plainEnv.toNaming ⟨"dist".toList, false, "tar.gz".toList, [], false⟩
      twins twinWork = .ok [twinPlan] := by
    simp only [planCrates, twinWork, List.mapM_cons, List.mapM_nil, hcollect, hcrate]
    rfl
  exact hplans

theorem run_twins : ∃ result, run plainEnv plainOptions twinWork twins twinDisk = .next result := by
  rw [run, plan_twins]
  exact ⟨_, rfl⟩
/-- Of two binaries with one file name, the archive holds the first. -/
theorem not_stageShips_every :
    ¬ StageShips (shipsEvery plainEnv) plainEnv plainOptions twinWork twins twinDisk := by
  rintro ⟨-, hships⟩
  obtain ⟨⟨disk', registry'⟩, hrun⟩ := run_twins
  obtain ⟨plans, new, hplan, -, -, -, hcontents⟩ := hships disk' registry' hrun
  obtain rfl : [twinPlan] = plans := Except.ok.inj (plan_twins.symm.trans hplan)
  have hplace : Planned [twinPlan] ⟨twinPlan, twinConfig, twinTarget⟩ :=
    ⟨List.mem_singleton_self _, List.mem_singleton_self _, List.mem_singleton_self _⟩
  have hformat := hcontents rfl _ hplace twinFormat (List.mem_singleton_self _) rfl
  unfold shipsEvery at hformat
  rw [if_neg (by decide)] at hformat
  obtain ⟨wrapDir, file, hwrap, -, hbytes⟩ := hformat
  obtain rfl : none = wrapDir := Except.ok.inj hwrap
  have hfirst := hbytes (appIn "a".toList) List.mem_cons_self
  have hsecond := hbytes (appIn "b".toList) (List.mem_cons_of_mem _ List.mem_cons_self)
  have hname : inArchiveName ⟨twinPlan, twinConfig, twinTarget⟩ none (appIn "a".toList) =
      inArchiveName ⟨twinPlan, twinConfig, twinTarget⟩ none (appIn "b".toList) := by decide
  rw [hname, hsecond] at hfirst
  have hread : twinDisk.read (appIn "b".toList).path = some (.raw [2]) := Disk.read_write_self
  have hread' : twinDisk.read (appIn "a".toList).path = some (.raw [1]) :=
    (Disk.read_write_ne (by decide)).trans Disk.read_write_self
  rw [hread, hread'] at hfirst
  simp at hfirst

end Anodizer.Archive
