import Anodizer.Lib.Loop
import Anodizer.PublishOnly.Registry

/-! # The run of a pipeline

The stages run in order until one of them fails. Stages that the operator skips, or that have no
binaries to work on, are passed over and shown in rows of their own. Where binaries are expected,
a guard over the crates in scope stands behind the build, or before the first stage.
-/

namespace Anodizer.PipelineRun

open Loop
open PublishOnly (ArtifactKind)

/-! ### The guard -/

/-- The publishers of a crate that distribute a compiled binary. -/
structure PublishConfig where
  homebrew : Bool
  homebrewCask : Bool
  scoop : Bool
  chocolatey : Bool
  winget : Bool
  deriving DecidableEq, Repr

structure BinstallConfig where
  enabled : Option Bool
  deriving DecidableEq, Repr

/-- The outputs of a crate that need a compiled binary. Of an entry only its presence is read. -/
structure CrateConfig where
  name : String
  dockersV2 : Option (List Unit) := none
  nfpms : Option (List Unit) := none
  snapcrafts : Option (List Unit) := none
  dmgs : Option (List Unit) := none
  msis : Option (List Unit) := none
  pkgs : Option (List Unit) := none
  nsis : Option (List Unit) := none
  flatpaks : Option (List Unit) := none
  appBundles : Option (List Unit) := none
  binstall : Option BinstallConfig := none
  publish : Option PublishConfig := none
  deriving DecidableEq, Repr

structure Artifact where
  kind : ArtifactKind
  crateName : String
  deriving DecidableEq, Repr

/-- An intentional skip that a stage recorded. -/
structure SkipEvent where
  stage : String
  label : String
  reason : String
  deriving DecidableEq, Repr

structure ContextOptions where
  skipStages : List String
  selectedCrates : List String
  showSkipped : Bool
  deriving DecidableEq, Repr

/-- The state of a release. `crates` are those of the whole configuration, and `world` is
everything that the pipeline itself never reads. -/
structure Context (ω : Type) where
  world : ω
  options : ContextOptions
  crates : List CrateConfig
  artifacts : List Artifact
  builtCrateNames : Option (List String)
  skipMemento : List SkipEvent

def hasEntries (field : Option (List Unit)) : Bool := field.any (! ·.isEmpty)

def binstallEnabled (krate : CrateConfig) : Bool := krate.binstall.any (·.enabled = some true)

def binaryRequiringPublishers (publish : PublishConfig) : List String :=
  (if publish.homebrew then ["homebrew"] else []) ++
  (if publish.homebrewCask then ["homebrew_cask"] else []) ++
  (if publish.scoop then ["scoop"] else []) ++
  (if publish.chocolatey then ["chocolatey"] else []) ++
  (if publish.winget then ["winget"] else [])

def binaryRequiringOutputs (krate : CrateConfig) : List String :=
  (if hasEntries krate.dockersV2 then ["dockers_v2"] else []) ++
  (if hasEntries krate.nfpms then ["nfpm"] else []) ++
  (if hasEntries krate.snapcrafts then ["snapcraft"] else []) ++
  (if hasEntries krate.dmgs then ["dmg"] else []) ++
  (if hasEntries krate.msis then ["msi"] else []) ++
  (if hasEntries krate.pkgs then ["pkg"] else []) ++
  (if hasEntries krate.nsis then ["nsis"] else []) ++
  (if hasEntries krate.flatpaks then ["flatpak"] else []) ++
  (if hasEntries krate.appBundles then ["app_bundle"] else []) ++
  (if binstallEnabled krate then ["binstall"] else []) ++
  (krate.publish.map binaryRequiringPublishers).getD []

def binaryPresenceKinds : List ArtifactKind := [.binary, .uploadableBinary, .universalBinary, .archive]

def byKindsAndCrate (artifacts : List Artifact) (kinds : List ArtifactKind) (crateName : String) :
    List Artifact :=
  artifacts.filter fun a => a.kind ∈ kinds && a.crateName = crateName

def selectedCrates (crates : List CrateConfig) (selected : List String) : List CrateConfig :=
  crates.filter fun c => selected.isEmpty || c.name ∈ selected

/-- Whether the guard fails on a crate. -/
def offends (artifacts : List Artifact) (built : Option (List String)) (krate : CrateConfig) :
    Bool :=
  built.all (krate.name ∈ ·) && !(binaryRequiringOutputs krate).isEmpty &&
    (byKindsAndCrate artifacts binaryPresenceKinds krate.name).isEmpty

/-- The guard over the crates in scope. -/
def check (crates : List CrateConfig) (artifacts : List Artifact) (selected : List String)
    (built : Option (List String)) : Except String Unit :=
  match (selectedCrates crates selected).find? (offends artifacts built) with
  | some krate => .error ("release: crate '" ++ krate.name ++ "' configures " ++
      " + ".intercalate (binaryRequiringOutputs krate) ++
      ", which require a compiled binary, but the build produced no binary artifacts for it — " ++
      "check build.targets and that the release is scoped to the right crate")
  | none => .ok ()

/-! ### The run -/

/-- A stage may change the context in any way. -/
structure Stage (ω : Type) where
  name : String
  run : Context ω → Except String Unit × Context ω

structure Pipeline (ω : Type) where
  stages : List (Stage ω)
  expectsBinaries : Bool

/-- What the pipeline does besides its stages. -/
structure Env (ω : Type) where
  writePreReleaseMetadata : Context ω → Except String Unit × Context ω
  populateReleaseNotesVar : Context ω → Context ω
  emitSummary : Context ω → Context ω

/-- What is logged. A row names the stages that were skipped for one cause. -/
inductive Line
  | skipped (names : List String) (noBinaries : Bool)
  | group (name : String)
  | warn (text : String)
  | error (text : String)
  | status (text : String)
  deriving DecidableEq, Repr

/-- What became of a stage that the loop reached. A stage that ran did so behind some lines of the
log and left a result and a context. -/
inductive Fate (ω : Type)
  | skipped (noBinaries : Bool)
  | ran (logged : List Line) (result : Except String Unit) (after : Context ω)

structure Visit (ω : Type) where
  name : String
  before : Context ω
  fate : Fate ω

/-- The state of the loop over the stages, with the stages it reached so far. -/
structure Progress (ω : Type) where
  ctx : Context ω
  hasBinaries : Bool
  pendingSkips : List (String × Bool)
  log : List Line
  visits : List (Visit ω)

/-- What a run leaves. -/
structure Outcome (ω : Type) where
  result : Except String Unit
  ctx : Context ω
  log : List Line
  visits : List (Visit ω)

def binaryDependentStages : List String :=
  ["upx", "archive", "makeself", "appimage", "nfpm", "snapcraft", "appbundle", "dmg", "msi",
    "pkg", "nsis", "flatpak", "notarize", "srpm"]

def binaryKinds : List ArtifactKind := [.binary, .uploadableBinary, .universalBinary]

namespace Context

variable {ω : Type} (ctx : Context ω)

def shouldSkip (name : String) : Bool := ctx.options.skipStages.any (· == name)

def hasBinaryArtifact : Bool := ctx.artifacts.any (·.kind ∈ binaryKinds)

/-- The guard, for the crates that were built if that is known. -/
def guard (built : Option (List String)) : Except String Unit :=
  check ctx.crates ctx.artifacts ctx.options.selectedCrates built

end Context

/-- The names that were skipped for one of the two causes. -/
def skippedNames (noBinaries : Bool) (skips : List (String × Bool)) : List String :=
  (skips.filter (·.2 = noBinaries)).map (·.1)

/-- The rows for the skips that are pending. -/
def flushSkipped (show_ : Bool) (pending : List (String × Bool)) : List Line :=
  if show_ then
    [false, true].flatMap fun noBinaries =>
      match skippedNames noBinaries pending with
      | [] => []
      | name :: names => [.skipped (name :: names) noBinaries]
  else []

def skipSummary : List SkipEvent → List Line
  | [] => []
  | skips =>
    .status (toString skips.length ++ " " ++
      (if skips.length = 1 then "intentional skip" else "intentional skips") ++ ":") ::
    skips.map fun e => .status ("  ↳ [" ++ e.stage ++ "] " ++ e.label ++ " — " ++ e.reason)

variable {ω : Type}

/-- The metadata is written before the release stage, and a failure to do so is only logged. -/
def beforeStage (env : Env ω) (name : String) (ctx : Context ω) : Context ω × List Line :=
  if name = "release" then
    match env.writePreReleaseMetadata ctx with
    | (.ok (), ctx) => (ctx, [])
    | (.error e, ctx) => (ctx, [.warn ("failed to write pre-release metadata: " ++ e)])
  else (ctx, [])

namespace Pipeline

variable (p : Pipeline ω)

/-- A stage runs, and the guard behind the build. -/
def runStage (env : Env ω) (show_ : Bool) (stage : Stage ω) (s : Progress ω) :
    Flow (Progress ω) (String × Progress ω) :=
  let prepared := beforeStage env stage.name s.ctx
  let log := s.log ++ flushSkipped show_ s.pendingSkips ++ prepared.2 ++ [.group stage.name]
  match stage.run prepared.1 with
  | (.error e, after) =>
    .stop (e, {
      ctx := after
      hasBinaries := s.hasBinaries
      pendingSkips := []
      log := log ++ [.error (stage.name ++ " failed: " ++ e)]
      visits := s.visits ++ [⟨stage.name, s.ctx, .ran log (.error e) after⟩] })
  | (.ok (), after) =>
    let s' : Progress ω :=
      { ctx := after
        hasBinaries := s.hasBinaries
        pendingSkips := []
        log := log
        visits := s.visits ++ [⟨stage.name, s.ctx, .ran log (.ok ()) after⟩] }
    if stage.name = "build" then
      let s' := { s' with hasBinaries := after.hasBinaryArtifact }
      if p.expectsBinaries then
        match after.guard after.builtCrateNames with
        | .error e => .stop (e, s')
        | .ok () => .next s'
      else .next s'
    else if stage.name = "changelog" then
      .next { s' with ctx := env.populateReleaseNotesVar after }
    else .next s'

/-- One round of the loop over the stages. -/
def visit (env : Env ω) (show_ : Bool) (stage : Stage ω) (s : Progress ω) :
    Flow (Progress ω) (String × Progress ω) :=
  if s.ctx.shouldSkip stage.name then
    .next { s with
      pendingSkips := s.pendingSkips ++ [(stage.name, false)]
      visits := s.visits ++ [⟨stage.name, s.ctx, .skipped false⟩] }
  else if stage.name ∈ binaryDependentStages ∧ s.hasBinaries = false then
    .next { s with
      pendingSkips := s.pendingSkips ++ [(stage.name, true)]
      visits := s.visits ++ [⟨stage.name, s.ctx, .skipped true⟩] }
  else p.runStage env show_ stage s

/-- Whether the build runs in the pipeline: it is one of its stages, and not skipped. -/
def buildInPipeline (ctx : Context ω) : Bool :=
  p.stages.any (·.name == "build") && !ctx.shouldSkip "build"

def runInner (env : Env ω) (ctx : Context ω) : Outcome ω :=
  let upFront :=
    if p.expectsBinaries && !p.buildInPipeline ctx then ctx.guard none else .ok ()
  match upFront with
  | .error e => ⟨.error e, ctx, [], []⟩
  | .ok () =>
    let show_ := ctx.options.showSkipped
    match Loop.run (p.visit env show_) p.stages ⟨ctx, ctx.hasBinaryArtifact, [], [], []⟩ with
    | .stop (e, s) => ⟨.error e, s.ctx, s.log, s.visits⟩
    | .next s =>
      { result := .ok ()
        ctx := { s.ctx with skipMemento := [] }
        log := s.log ++ flushSkipped show_ s.pendingSkips ++ skipSummary s.ctx.skipMemento
        visits := s.visits }

/-- The summary is written however the stages ended. -/
def run (env : Env ω) (ctx : Context ω) : Outcome ω :=
  let outcome := p.runInner env ctx
  { outcome with ctx := env.emitSummary outcome.ctx }

end Pipeline

/-! ### What a round keeps -/

section Rows

variable {b show_ : Bool} {log log' : List Line} {skips skips' : List (String × Bool)}

/-- The names in the rows for one cause. -/
def rowNames (b : Bool) (log : List Line) : List String :=
  log.flatMap fun
    | .skipped names b' => if b' = b then names else []
    | _ => []

def groupNames (log : List Line) : List String :=
  log.filterMap fun
    | .group name => some name
    | _ => none

@[simp] theorem rowNames_append : rowNames b (log ++ log') = rowNames b log ++ rowNames b log' :=
  List.flatMap_append

@[simp] theorem groupNames_append : groupNames (log ++ log') = groupNames log ++ groupNames log' :=
  List.filterMap_append

@[simp] theorem skippedNames_append :
    skippedNames b (skips ++ skips') = skippedNames b skips ++ skippedNames b skips' := by
  simp [skippedNames]

theorem rowNames_flushSkipped :
    rowNames b (flushSkipped show_ skips) = if show_ then skippedNames b skips else [] := by
  cases show_ with
  | false => rfl
  | true =>
    simp only [flushSkipped, if_true, List.flatMap_cons, List.flatMap_nil, List.append_nil]
    cases b <;> cases hf : skippedNames false skips <;> cases ht : skippedNames true skips <;>
      simp [rowNames]

theorem groupNames_flushSkipped : groupNames (flushSkipped show_ skips) = [] := by
  cases show_ with
  | false => rfl
  | true =>
    simp only [flushSkipped, if_true, List.flatMap_cons, List.flatMap_nil, List.append_nil]
    cases skippedNames false skips <;> cases skippedNames true skips <;> rfl

theorem rowNames_beforeStage (env : Env ω) (name : String) (ctx : Context ω) :
    rowNames b (beforeStage env name ctx).2 = [] := by
  unfold beforeStage
  split_ifs
  · split <;> rfl
  · rfl

theorem groupNames_beforeStage (env : Env ω) (name : String) (ctx : Context ω) :
    groupNames (beforeStage env name ctx).2 = [] := by
  unfold beforeStage
  split_ifs
  · split <;> rfl
  · rfl

theorem rowNames_skipSummary (skips : List SkipEvent) : rowNames b (skipSummary skips) = [] := by
  cases skips with
  | nil => rfl
  | cons e skips => simp [skipSummary, rowNames]

theorem groupNames_skipSummary (skips : List SkipEvent) : groupNames (skipSummary skips) = [] := by
  cases skips with
  | nil => rfl
  | cons e skips => simp [skipSummary, groupNames]

end Rows

namespace Visit

/-- The name of a stage that was skipped for a cause. -/
def skips (b : Bool) (v : Visit ω) : Option String :=
  match v.fate with
  | .skipped b' => if b' = b then some v.name else none
  | .ran .. => none

def runs (v : Visit ω) : Option String :=
  match v.fate with
  | .skipped _ => none
  | .ran .. => some v.name

/-- A stage is skipped where the operator says so, or where it works on binaries and there were none
behind the last build, and for no other cause. -/
def Decided (v : Visit ω) (built : Context ω) : Prop :=
  match v.fate with
  | .skipped false => v.before.shouldSkip v.name = true
  | .skipped true => v.before.shouldSkip v.name = false ∧ v.name ∈ binaryDependentStages ∧
      built.hasBinaryArtifact = false
  | .ran .. => v.before.shouldSkip v.name = false ∧
      (v.name ∈ binaryDependentStages → built.hasBinaryArtifact = true)

/-- The loop goes on behind a stage. -/
def Passed (p : Pipeline ω) (v : Visit ω) : Prop :=
  ∀ logged result after, v.fate = .ran logged result after → result = .ok () ∧
    (v.name = "build" → p.expectsBinaries = true → after.guard after.builtCrateNames = .ok ())

/-- The loop ends at a stage. -/
def Stops (p : Pipeline ω) (v : Visit ω) (e : String) : Prop :=
  ∃ logged result after, v.fate = .ran logged result after ∧ (result = .error e ∨
    result = .ok () ∧ v.name = "build" ∧ p.expectsBinaries = true ∧
      after.guard after.builtCrateNames = .error e)

end Visit

/-- The context behind the last build, or the one that the run started in. -/
def lastBuild (ctx : Context ω) (visits : List (Visit ω)) : Context ω :=
  visits.foldl (fun c v =>
    match v.fate with
    | .ran _ (.ok ()) after => if v.name = "build" then after else c
    | _ => c) ctx

/-- Every element of a list has a property that may speak of those before it. -/
def Each {α : Type} (P : List α → α → Prop) (xs : List α) : Prop :=
  ∀ l x r, xs = l ++ x :: r → P l x

theorem each_nil {α : Type} {P : List α → α → Prop} : Each P [] := by
  intro l x r h
  simp at h

theorem Each.snoc {α : Type} {P : List α → α → Prop} {xs : List α} {x : α} (h : Each P xs)
    (hx : P xs x) : Each P (xs ++ [x]) := by
  intro l y r heq
  rcases List.eq_nil_or_concat r with rfl | ⟨r, z, rfl⟩
  · obtain ⟨rfl, hy⟩ := List.append_inj' heq rfl
    obtain rfl := List.singleton_inj.mp hy
    exact hx
  · rw [List.concat_eq_append, ← List.cons_append, ← List.append_assoc] at heq
    exact h l y r (List.append_inj' heq rfl).1

/-- What holds wherever the loop is. -/
structure Accounts (show_ : Bool) (ctx₀ : Context ω) (s : Progress ω) : Prop where
  rows : ∀ b, rowNames b s.log ++ (if show_ then skippedNames b s.pendingSkips else []) =
    if show_ then s.visits.filterMap (Visit.skips b) else []
  groups : groupNames s.log = s.visits.filterMap Visit.runs
  logged : Each (fun l v => ∀ logged result after, v.fate = .ran logged result after →
    ∀ b, rowNames b logged = if show_ then l.filterMap (Visit.skips b) else []) s.visits
  decided : Each (fun l v => v.Decided (lastBuild ctx₀ l)) s.visits

/-- What holds where the loop goes on behind some stages. -/
structure Inv (p : Pipeline ω) (show_ : Bool) (ctx₀ : Context ω) (pre : List (Stage ω))
    (s : Progress ω) : Prop where
  accounts : Accounts show_ ctx₀ s
  names : s.visits.map (·.name) = pre.map (·.name)
  hasBinaries : s.hasBinaries = (lastBuild ctx₀ s.visits).hasBinaryArtifact
  passed : ∀ v ∈ s.visits, v.Passed p

/-- What holds where the loop ends early. -/
structure Stopped (p : Pipeline ω) (show_ : Bool) (ctx₀ : Context ω) (e : String)
    (s : Progress ω) : Prop where
  accounts : Accounts show_ ctx₀ s
  flushed : s.pendingSkips = []
  names : ∃ reached, reached <+: p.stages ∧ s.visits.map (·.name) = reached.map (·.name)
  last : ∃ l v, s.visits = l ++ [v] ∧ (∀ w ∈ l, w.Passed p) ∧ v.Stops p e

variable {p : Pipeline ω} {env : Env ω} {show_ : Bool} {ctx₀ : Context ω} {s t : Progress ω}
  {stage : Stage ω} {pre : List (Stage ω)} {name : String} {logged : List Line}
  {result : Except String Unit} {after : Context ω}

namespace Accounts

theorem start (hasBinaries : Bool) : Accounts show_ ctx₀ ⟨ctx₀, hasBinaries, [], [], []⟩ where
  rows b := by simp [rowNames, skippedNames]
  groups := rfl
  logged := each_nil
  decided := each_nil

theorem skip (h : Accounts show_ ctx₀ s) {noBinaries : Bool}
    (hdecided : (Visit.mk name s.ctx (.skipped noBinaries)).Decided (lastBuild ctx₀ s.visits)) :
    Accounts show_ ctx₀
      { s with
        pendingSkips := s.pendingSkips ++ [(name, noBinaries)]
        visits := s.visits ++ [⟨name, s.ctx, .skipped noBinaries⟩] } where
  rows b := by
    have hrows := h.rows b
    cases show_ with
    | false => simpa using hrows
    | true =>
      simp only [if_true] at hrows ⊢
      rw [skippedNames_append, ← List.append_assoc, hrows, List.filterMap_append]
      by_cases hb : noBinaries = b <;> simp [skippedNames, Visit.skips, hb]
  groups := by rw [h.groups, List.filterMap_append]; simp [Visit.runs]
  logged := h.logged.snoc fun _ _ _ hfate => nomatch hfate
  decided := h.decided.snoc hdecided

/-- A stage runs behind the rows for all the skips before it. -/
theorem ran (h : Accounts show_ ctx₀ s)
    (hdecided : (Visit.mk name s.ctx (.ran logged result after)).Decided (lastBuild ctx₀ s.visits))
    (hrows : ∀ b, rowNames b logged =
      rowNames b s.log ++ if show_ then skippedNames b s.pendingSkips else [])
    (hgroups : groupNames logged = groupNames s.log ++ [name]) (hpending : t.pendingSkips = [])
    (hvisits : t.visits = s.visits ++ [⟨name, s.ctx, .ran logged result after⟩])
    (hlog : t.log = logged ∨ ∃ text, t.log = logged ++ [.error text]) :
    Accounts show_ ctx₀ t := by
  have hrowNames : ∀ b, rowNames b t.log = rowNames b logged := by
    intro b
    rcases hlog with hlog | ⟨text, hlog⟩ <;> rw [hlog]
    rw [rowNames_append]
    exact List.append_nil _
  have hgroupNames : groupNames t.log = groupNames logged := by
    rcases hlog with hlog | ⟨text, hlog⟩ <;> rw [hlog]
    rw [groupNames_append]
    exact List.append_nil _
  constructor
  · intro b
    rw [hrowNames, hrows, h.rows, hpending, hvisits, List.filterMap_append]
    cases show_ <;> simp [skippedNames, Visit.skips]
  · rw [hgroupNames, hgroups, h.groups, hvisits, List.filterMap_append]
    rfl
  · rw [hvisits]
    refine h.logged.snoc fun logged' result' after' hfate b => ?_
    obtain ⟨rfl, -, -⟩ := Fate.ran.inj hfate
    rw [hrows, h.rows]
  · rw [hvisits]
    exact h.decided.snoc hdecided

end Accounts

theorem lastBuild_snoc (visits : List (Visit ω)) (v : Visit ω) :
    lastBuild ctx₀ (visits ++ [v]) =
      match v.fate with
      | .ran _ (.ok ()) after => if v.name = "build" then after else lastBuild ctx₀ visits
      | _ => lastBuild ctx₀ visits := by
  rw [lastBuild, List.foldl_append]
  rfl

theorem Inv.skip (h : Inv p show_ ctx₀ pre s) {noBinaries : Bool}
    (hdecided : (Visit.mk stage.name s.ctx (.skipped noBinaries)).Decided
      (lastBuild ctx₀ s.visits)) :
    Inv p show_ ctx₀ (pre ++ [stage])
      { s with
        pendingSkips := s.pendingSkips ++ [(stage.name, noBinaries)]
        visits := s.visits ++ [⟨stage.name, s.ctx, .skipped noBinaries⟩] } where
  accounts := h.accounts.skip hdecided
  names := by rw [List.map_append, List.map_append, h.names]; rfl
  hasBinaries := by rw [lastBuild_snoc, h.hasBinaries]
  passed v hv := by
    rcases List.mem_append.mp hv with hv | hv
    · exact h.passed v hv
    · obtain rfl := List.mem_singleton.mp hv
      exact fun _ _ _ hfate => nomatch hfate

/-- A stage that passed keeps the invariant. -/
theorem Inv.ran (h : Inv p show_ ctx₀ pre s)
    (haccounts : Accounts show_ ctx₀ t)
    (hvisits : t.visits = s.visits ++ [⟨stage.name, s.ctx, .ran logged (.ok ()) after⟩])
    (hbinaries : t.hasBinaries =
      if stage.name = "build" then after.hasBinaryArtifact else s.hasBinaries)
    (hpassed : stage.name = "build" → p.expectsBinaries = true →
      after.guard after.builtCrateNames = .ok ()) :
    Inv p show_ ctx₀ (pre ++ [stage]) t where
  accounts := haccounts
  names := by rw [hvisits, List.map_append, List.map_append, h.names]; rfl
  hasBinaries := by
    rw [hvisits, lastBuild_snoc, hbinaries, h.hasBinaries]
    simp only
    split <;> rfl
  passed v hv := by
    rw [hvisits] at hv
    rcases List.mem_append.mp hv with hv | hv
    · exact h.passed v hv
    · obtain rfl := List.mem_singleton.mp hv
      intro logged' result' after' hfate
      obtain ⟨rfl, rfl, rfl⟩ := Fate.ran.inj hfate
      exact ⟨rfl, hpassed⟩

theorem Inv.stopped (h : Inv p show_ ctx₀ pre s) (hpre : pre ++ [stage] <+: p.stages)
    (haccounts : Accounts show_ ctx₀ t) (hpending : t.pendingSkips = []) {v : Visit ω}
    (hname : v.name = stage.name) (hvisits : t.visits = s.visits ++ [v]) {e : String}
    (hstops : v.Stops p e) : Stopped p show_ ctx₀ e t where
  accounts := haccounts
  flushed := hpending
  names := ⟨_, hpre, by rw [hvisits, List.map_append, List.map_append, h.names]; simp [hname]⟩
  last := ⟨_, _, hvisits, h.passed, hstops⟩

/-- One round keeps the invariant, or ends the loop at the stage. -/
theorem Inv.runStage (h : Inv p show_ ctx₀ pre s) (hpre : pre ++ [stage] <+: p.stages)
    (hdecided : ∀ logged result after,
      (Visit.mk stage.name s.ctx (.ran logged result after)).Decided (lastBuild ctx₀ s.visits)) :
    (p.runStage env show_ stage s).Holds (Inv p show_ ctx₀ (pre ++ [stage]))
      fun x => Stopped p show_ ctx₀ x.1 x.2 := by
  unfold Pipeline.runStage
  dsimp only
  set prepared := beforeStage env stage.name s.ctx with hprepared
  set logged := s.log ++ flushSkipped show_ s.pendingSkips ++ prepared.2 ++ [.group stage.name]
    with hlogged
  have hrows : ∀ b, rowNames b logged =
      rowNames b s.log ++ if show_ then skippedNames b s.pendingSkips else [] := by
    intro b
    rw [hlogged, rowNames_append, rowNames_append, rowNames_append, rowNames_flushSkipped,
      hprepared, rowNames_beforeStage, List.append_nil]
    exact List.append_nil _
  have hgroups : groupNames logged = groupNames s.log ++ [stage.name] := by
    rw [hlogged, groupNames_append, groupNames_append, groupNames_append, groupNames_flushSkipped,
      hprepared, groupNames_beforeStage, List.append_nil, List.append_nil]
    rfl
  have haccounts := fun (t : Progress ω) result after =>
    h.accounts.ran (t := t) (hdecided logged result after) hrows hgroups
  generalize stage.run prepared.1 = ran
  obtain ⟨e | ⟨⟨⟩⟩, after⟩ := ran
  · exact Flow.holds_stop.mpr <| h.stopped hpre (haccounts _ _ _ rfl rfl (.inr ⟨_, rfl⟩)) rfl rfl
      rfl ⟨_, _, _, rfl, .inl rfl⟩
  have hnext : ∀ t : Progress ω, t.pendingSkips = [] → t.log = logged →
      t.visits = s.visits ++ [⟨stage.name, s.ctx, .ran logged (.ok ()) after⟩] →
      (t.hasBinaries = if stage.name = "build" then after.hasBinaryArtifact else s.hasBinaries) →
      (stage.name = "build" → p.expectsBinaries = true →
        after.guard after.builtCrateNames = .ok ()) → Inv p show_ ctx₀ (pre ++ [stage]) t :=
    fun t hpending hlog hvisits hbinaries hpassed =>
      h.ran (haccounts t _ _ hpending hvisits (.inl hlog)) hvisits hbinaries hpassed
  simp only
  split_ifs with hbuild hexpects hchangelog
  · split
    · next e hguard =>
      exact Flow.holds_stop.mpr <| h.stopped hpre (haccounts _ _ _ rfl rfl (.inl rfl)) rfl rfl rfl
        ⟨_, _, _, rfl, .inr ⟨rfl, hbuild, hexpects, hguard⟩⟩
    · next hguard =>
      exact Flow.holds_next.mpr (hnext _ rfl rfl rfl (by simp [hbuild]) fun _ _ => hguard)
  · exact Flow.holds_next.mpr
      (hnext _ rfl rfl rfl (by simp [hbuild]) fun _ hon => absurd hon hexpects)
  · exact Flow.holds_next.mpr
      (hnext _ rfl rfl rfl (by simp [hbuild]) fun hname => absurd hname hbuild)
  · exact Flow.holds_next.mpr
      (hnext _ rfl rfl rfl (by simp [hbuild]) fun hname => absurd hname hbuild)

theorem Inv.visit (h : Inv p show_ ctx₀ pre s) (hpre : pre ++ [stage] <+: p.stages) :
    (p.visit env show_ stage s).Holds (Inv p show_ ctx₀ (pre ++ [stage]))
      fun x => Stopped p show_ ctx₀ x.1 x.2 := by
  unfold Pipeline.visit
  split_ifs with hskip hbinaries
  · exact h.skip hskip
  · rw [h.hasBinaries] at hbinaries
    exact h.skip ⟨by simpa using hskip, hbinaries⟩
  · refine h.runStage hpre fun logged result after => ⟨by simpa using hskip, fun hin => ?_⟩
    rw [← h.hasBinaries]
    simpa [hin] using hbinaries

theorem inv_start (ctx : Context ω) :
    Inv p show_ ctx [] ⟨ctx, ctx.hasBinaryArtifact, [], [], []⟩ where
  accounts := .start _
  names := rfl
  hasBinaries := rfl
  passed := by simp

theorem loop_holds (p : Pipeline ω) (env : Env ω) (show_ : Bool) (ctx : Context ω) :
    (Loop.run (p.visit env show_) p.stages ⟨ctx, ctx.hasBinaryArtifact, [], [], []⟩).Holds
      (Inv p show_ ctx p.stages) fun x => Stopped p show_ ctx x.1 x.2 := by
  refine Loop.run_visited (I := Inv p show_ ctx) (inv_start ctx) fun pre stage t hreach h => ?_
  obtain ⟨post, heq, -⟩ := hreach
  exact h.visit ⟨post, by simp [heq]⟩

/-! ### Whole runs -/

/-- Every crate in scope with an output that needs a binary has one. Where it is known which crates
were built, only those are asked. -/
def Covered (ctx : Context ω) (built : Option (List String)) : Prop :=
  ∀ krate ∈ selectedCrates ctx.crates ctx.options.selectedCrates,
    (∀ names, built = some names → krate.name ∈ names) → binaryRequiringOutputs krate ≠ [] →
      ∃ a ∈ ctx.artifacts, a.kind ∈ binaryPresenceKinds ∧ a.crateName = krate.name

theorem guard_eq_ok_iff {ctx : Context ω} {built : Option (List String)} :
    ctx.guard built = .ok () ↔ Covered ctx built := by
  have hoffends : ∀ krate : CrateConfig, offends ctx.artifacts built krate = false ↔
      ((∀ names, built = some names → krate.name ∈ names) → binaryRequiringOutputs krate ≠ [] →
        ∃ a ∈ ctx.artifacts, a.kind ∈ binaryPresenceKinds ∧ a.crateName = krate.name) := by
    intro krate
    have hbuilt : built.all (krate.name ∈ ·) = true ↔
        ∀ names, built = some names → krate.name ∈ names := by
      cases built <;> simp
    rw [← Bool.not_eq_true, offends, Bool.and_eq_true, Bool.and_eq_true, hbuilt, and_assoc, not_and,
      not_and]
    simp [byKindsAndCrate]
  rw [Context.guard, check, Covered]
  cases hfind : (selectedCrates ctx.crates ctx.options.selectedCrates).find?
      (offends ctx.artifacts built) with
  | none =>
    simp only [true_iff]
    intro krate hin
    have hnot := List.find?_eq_none.mp hfind krate hin
    exact (hoffends krate).mp (by simpa using hnot)
  | some krate =>
    simp only [reduceCtorEq, false_iff]
    intro hall
    have hyes := List.find?_some hfind
    rw [(hoffends krate).mpr (hall krate (List.mem_of_find?_eq_some hfind))] at hyes
    cases hyes

/-- What a run leaves, whatever its stages do. -/
inductive Ended (p : Pipeline ω) (ctx₀ : Context ω) (o : Outcome ω) : Prop
  | refused {e : String} (hexpects : p.expectsBinaries = true)
      (hbuild : p.buildInPipeline ctx₀ = false) (hguard : ctx₀.guard none = .error e)
      (hresult : o.result = .error e) (hlog : o.log = []) (hvisits : o.visits = [])
  | stopped {e : String} {s : Progress ω} (h : Stopped p ctx₀.options.showSkipped ctx₀ e s)
      (hfront : p.expectsBinaries = true → p.buildInPipeline ctx₀ = false →
        ctx₀.guard none = .ok ())
      (hresult : o.result = .error e) (hlog : o.log = s.log) (hvisits : o.visits = s.visits)
  | finished {s : Progress ω} (h : Inv p ctx₀.options.showSkipped ctx₀ p.stages s)
      (hfront : p.expectsBinaries = true → p.buildInPipeline ctx₀ = false →
        ctx₀.guard none = .ok ())
      (hresult : o.result = .ok ()) (hlog : o.log = s.log ++
        flushSkipped ctx₀.options.showSkipped s.pendingSkips ++ skipSummary s.ctx.skipMemento)
      (hvisits : o.visits = s.visits)

theorem run_ended (p : Pipeline ω) (env : Env ω) (ctx : Context ω) : Ended p ctx (p.run env ctx) := by
  have hloop := loop_holds p env ctx.options.showSkipped ctx
  unfold Pipeline.run Pipeline.runInner
  dsimp only
  split
  · next e hfront =>
    split_ifs at hfront with hbuild
    · rw [Bool.and_eq_true, Bool.not_eq_true'] at hbuild
      exact .refused hbuild.1 hbuild.2 hfront rfl rfl rfl
  · next u hfront =>
    have hguard : p.expectsBinaries = true → p.buildInPipeline ctx = false →
        ctx.guard none = .ok () := by
      intro hexpects hbuild
      simpa [hexpects, hbuild] using hfront
    split
    · next e s hrun =>
      rw [hrun] at hloop
      exact .stopped hloop hguard rfl rfl rfl
    · next s hrun =>
      rw [hrun] at hloop
      exact .finished hloop hguard rfl rfl rfl

namespace Ended

variable {o : Outcome ω}

theorem decided (h : Ended p ctx₀ o) : Each (fun l v => v.Decided (lastBuild ctx₀ l)) o.visits := by
  cases h with
  | refused _ _ _ _ _ hvisits => exact hvisits ▸ each_nil
  | stopped h _ _ _ hvisits => exact hvisits ▸ h.accounts.decided
  | finished h _ _ _ hvisits => exact hvisits ▸ h.accounts.decided

theorem loggedRows (h : Ended p ctx₀ o) :
    Each (fun l v => ∀ logged result after, v.fate = .ran logged result after → ∀ b,
      rowNames b logged =
        if ctx₀.options.showSkipped then l.filterMap (Visit.skips b) else []) o.visits := by
  cases h with
  | refused _ _ _ _ _ hvisits => exact hvisits ▸ each_nil
  | stopped h _ _ _ hvisits => exact hvisits ▸ h.accounts.logged
  | finished h _ _ _ hvisits => exact hvisits ▸ h.accounts.logged

theorem rows (h : Ended p ctx₀ o) (b : Bool) : rowNames b o.log =
    if ctx₀.options.showSkipped then o.visits.filterMap (Visit.skips b) else [] := by
  cases h with
  | refused _ _ _ _ hlog hvisits =>
    rw [hlog, hvisits]
    exact (ite_self _).symm
  | stopped h _ _ hlog hvisits =>
    have hrows := h.accounts.rows b
    rw [h.flushed] at hrows
    rw [hlog, hvisits, ← hrows]
    simp [skippedNames]
  | finished h _ _ hlog hvisits =>
    rw [hlog, hvisits, rowNames_append, rowNames_append, rowNames_flushSkipped,
      rowNames_skipSummary, List.append_nil]
    exact h.accounts.rows b

theorem groups (h : Ended p ctx₀ o) : groupNames o.log = o.visits.filterMap Visit.runs := by
  cases h with
  | refused _ _ _ _ hlog hvisits => rw [hlog, hvisits]; rfl
  | stopped h _ _ hlog hvisits => rw [hlog, hvisits, h.accounts.groups]
  | finished h _ _ hlog hvisits =>
    rw [hlog, hvisits, groupNames_append, groupNames_append, groupNames_flushSkipped,
      groupNames_skipSummary, List.append_nil, List.append_nil, h.accounts.groups]

theorem names (h : Ended p ctx₀ o) : ∃ reached, reached <+: p.stages ∧
    o.visits.map (·.name) = reached.map (·.name) ∧ (o.result = .ok () → reached = p.stages) := by
  cases h with
  | refused _ _ _ hresult _ hvisits =>
    exact ⟨[], List.nil_prefix, by rw [hvisits]; rfl, fun hok => by simp [hresult] at hok⟩
  | stopped h _ hresult _ hvisits =>
    obtain ⟨reached, hpre, hnames⟩ := h.names
    exact ⟨reached, hpre, hvisits ▸ hnames, fun hok => by simp [hresult] at hok⟩
  | finished h _ _ _ hvisits => exact ⟨p.stages, List.prefix_rfl, hvisits ▸ h.names, fun _ => rfl⟩

/-- Everything that the loop reached before a stage passed. -/
theorem passed (h : Ended p ctx₀ o) : Each (fun l _ => ∀ w ∈ l, w.Passed p) o.visits := by
  cases h with
  | refused _ _ _ _ _ hvisits => exact hvisits ▸ each_nil
  | stopped h _ _ _ hvisits =>
    obtain ⟨l₀, v₀, hlast, hpassed, -⟩ := h.last
    rw [hvisits, hlast]
    intro l v r heq w hw
    refine hpassed w ?_
    have hpre : l <+: l₀ := by
      have hreached : l <+: l₀ ++ [v₀] := ⟨v :: r, heq.symm⟩
      refine List.prefix_of_prefix_length_le hreached (List.prefix_append _ _) ?_
      have hlen := congrArg List.length heq
      simp only [List.length_append, List.length_cons, List.length_nil] at hlen
      omega
    exact hpre.subset hw
  | finished h _ _ _ hvisits =>
    rw [hvisits]
    intro l v r heq w hw
    exact h.passed w (heq ▸ List.mem_append_left _ hw)

end Ended

/-- The stages are reached in order until the first one that fails, or until the guard does, and
each of them runs unless it is skipped for one of the two causes. -/
theorem run_in_order (p : Pipeline ω) (env : Env ω) (ctx : Context ω) :
    (∃ reached, reached <+: p.stages ∧
      (p.run env ctx).visits.map (·.name) = reached.map (·.name) ∧
      ((p.run env ctx).result = .ok () → reached = p.stages)) ∧
    Each (fun l v => v.Decided (lastBuild ctx l)) (p.run env ctx).visits ∧
    ((p.run env ctx).result = .ok () → ∀ v ∈ (p.run env ctx).visits, v.Passed p) ∧
    ∀ e, (p.run env ctx).result = .error e →
      ((p.run env ctx).visits = [] ∧ p.expectsBinaries = true ∧ p.buildInPipeline ctx = false ∧
        ctx.guard none = .error e) ∨
      ∃ l v, (p.run env ctx).visits = l ++ [v] ∧ (∀ w ∈ l, w.Passed p) ∧ v.Stops p e := by
  have h := run_ended p env ctx
  refine ⟨h.names, h.decided, ?_⟩
  cases h with
  | refused hexpects hbuild hguard hresult _ hvisits =>
    refine ⟨fun hok => by simp [hresult] at hok, fun e he => ?_⟩
    obtain rfl := Except.error.inj (hresult.symm.trans he)
    exact .inl ⟨hvisits, hexpects, hbuild, hguard⟩
  | stopped h _ hresult _ hvisits =>
    refine ⟨fun hok => by simp [hresult] at hok, fun e he => ?_⟩
    obtain rfl := Except.error.inj (hresult.symm.trans he)
    exact .inr (hvisits ▸ h.last)
  | finished h _ hresult _ hvisits =>
    exact ⟨fun _ => hvisits ▸ h.passed, fun e he => by simp [hresult] at he⟩

/-- Every skipped stage stands in exactly one row, in order, behind the stages before it and before
the next one that runs, and a stage that fails leaves the rows before it. -/
theorem run_rows (p : Pipeline ω) (env : Env ω) (ctx : Context ω) :
    (∀ b, rowNames b (p.run env ctx).log =
      if ctx.options.showSkipped then (p.run env ctx).visits.filterMap (Visit.skips b) else []) ∧
    groupNames (p.run env ctx).log = (p.run env ctx).visits.filterMap Visit.runs ∧
    Each (fun l v => ∀ logged result after, v.fate = .ran logged result after → ∀ b,
      rowNames b logged =
        if ctx.options.showSkipped then l.filterMap (Visit.skips b) else [])
      (p.run env ctx).visits :=
  have h := run_ended p env ctx
  ⟨h.rows, h.groups, h.loggedRows⟩

/-- Where binaries are expected, no stage is reached behind a build, or at all without one, while a
crate in scope lacks the binary that its outputs need. -/
theorem run_guarded (hexpects : p.expectsBinaries = true) (env : Env ω) (ctx : Context ω) :
    (p.buildInPipeline ctx = false → (p.run env ctx).visits ≠ [] → Covered ctx none) ∧
    Each (fun l v =>
      (∀ w ∈ l, w.name = "build" → ∀ logged result after, w.fate = .ran logged result after →
        Covered after after.builtCrateNames) ∧
      (v.runs = some v.name → v.name ∈ binaryDependentStages →
        (lastBuild ctx l).hasBinaryArtifact = true)) (p.run env ctx).visits := by
  have h := run_ended p env ctx
  constructor
  · intro hbuild hne
    refine guard_eq_ok_iff.mp ?_
    cases h with
    | refused _ _ _ _ _ hvisits => exact absurd hvisits hne
    | stopped _ hfront => exact hfront hexpects hbuild
    | finished _ hfront => exact hfront hexpects hbuild
  · intro l v r heq
    constructor
    · intro w hw hname logged result after hfate
      exact guard_eq_ok_iff.mp ((h.passed l v r heq w hw logged result after hfate).2 hname hexpects)
    · intro hruns hin
      have hdecided := h.decided l v r heq
      obtain ⟨name, before, _ | ⟨logged, result, after⟩⟩ := v
      · simp [Visit.runs] at hruns
      · exact hdecided.2 hin

/-- A crate with an image, its build and the stage of its image. -/
def svcContext (artifacts : List Artifact) (built : Option (List String)) : Context Unit where
  world := ()
  options := ⟨[], [], true⟩
  crates := [{ name := "svc", dockersV2 := some [()] }]
  artifacts := artifacts
  builtCrateNames := built
  skipMemento := []

def svcPipeline : Pipeline Unit where
  stages := [⟨"build", fun _ => (.ok (), svcContext [⟨.binary, "svc"⟩] (some ["svc"]))⟩,
    ⟨"docker", fun ctx => (.ok (), ctx)⟩]
  expectsBinaries := true

def quietEnv : Env Unit where
  writePreReleaseMetadata ctx := (.ok (), ctx)
  populateReleaseNotesVar ctx := ctx
  emitSummary ctx := ctx

theorem run_guarded_svc : Covered (svcContext [⟨.binary, "svc"⟩] (some ["svc"])) (some ["svc"]) := by
  obtain ⟨-, heach⟩ := run_guarded (p := svcPipeline) rfl quietEnv (svcContext [] none)
  have hvisits : (svcPipeline.run quietEnv (svcContext [] none)).visits =
      [⟨"build", svcContext [] none, .ran [.group "build"] (.ok ())
        (svcContext [⟨.binary, "svc"⟩] (some ["svc"]))⟩] ++
      ⟨"docker", svcContext [⟨.binary, "svc"⟩] (some ["svc"]),
        .ran [.group "build", .group "docker"] (.ok ())
          (svcContext [⟨.binary, "svc"⟩] (some ["svc"]))⟩ :: [] := rfl
  exact (heach _ _ _ hvisits).1 _ List.mem_cons_self rfl _ _ _ rfl

/-! ### The pipelines of the commands -/

section Builders

variable (stageRun : String → Context ω → Except String Unit × Context ω)

def pipelineOf (names : List String) (expectsBinaries : Bool) : Pipeline ω where
  stages := names.map fun name => ⟨name, stageRun name⟩
  expectsBinaries := expectsBinaries

def publishTail : List String :=
  ["before-publish", "prepublish-guard", "release", "docker", "docker-sign", "blob", "publish",
    "snapcraft-publish", "announce", "verify-release"]

def artifactStages : List String :=
  ["appbundle", "dmg", "msi", "pkg", "nsis", "notarize", "changelog", "archive", "source", "nfpm",
    "srpm", "makeself", "appimage", "snapcraft", "flatpak", "install-script", "sbom",
    "templatefiles", "checksum", "attest", "sign", "emission-validate"]

/-- The commands that publish. -/
inductive PublishingMode
  | release
  | publish
  | publishOnly
  | merge
  deriving DecidableEq, Repr

namespace PublishingMode

def stageNames : PublishingMode → List String
  | release => ["before", "build", "upx"] ++ artifactStages ++ publishTail ++ ["after"]
  | publish => ["checksum", "before-publish", "prepublish-guard", "release", "blob", "publish",
      "snapcraft-publish"]
  | publishOnly => ["changelog", "sign", "checksum", "attest"] ++ publishTail
  | merge => artifactStages ++ publishTail

def expectsBinaries : PublishingMode → Bool
  | release | merge => true
  | publish | publishOnly => false

end PublishingMode

def buildReleasePipeline : Pipeline ω := pipelineOf stageRun PublishingMode.release.stageNames true

def buildPublishPipeline : Pipeline ω := pipelineOf stageRun PublishingMode.publish.stageNames false

def buildPublishOnlyPipeline : Pipeline ω :=
  pipelineOf stageRun PublishingMode.publishOnly.stageNames false

def buildMergePipeline : Pipeline ω := pipelineOf stageRun PublishingMode.merge.stageNames true

def buildSplitPipeline : Pipeline ω := pipelineOf stageRun ["build", "upx"] false

def buildAnnouncePipeline : Pipeline ω := pipelineOf stageRun ["announce"] false

def PublishingMode.pipeline : PublishingMode → Pipeline ω
  | release => buildReleasePipeline stageRun
  | publish => buildPublishPipeline stageRun
  | publishOnly => buildPublishOnlyPipeline stageRun
  | merge => buildMergePipeline stageRun

/-- The stages that write to a service that others read. -/
def outwardStages : List String :=
  ["release", "docker", "docker-sign", "blob", "publish", "snapcraft-publish", "announce"]

/-- The stages that may still end a release before anything left the machine. -/
def gates : List String := ["before-publish", "prepublish-guard"]

theorem names_pipeline (mode : PublishingMode) :
    (mode.pipeline stageRun).stages.map (·.name) = mode.stageNames := by
  have hnames : ∀ names b, (pipelineOf stageRun names b).stages.map (·.name) = names := by
    intro names b
    rw [pipelineOf, List.map_map]
    exact List.map_id _
  cases mode <;> exact hnames _ _

theorem each_of_forall_lt {α : Type} {P : List α → α → Prop} {xs : List α}
    (h : ∀ (k : ℕ) (hk : k < xs.length), P (xs.take k) xs[k]) : Each P xs := by
  rintro l x r rfl
  have hx := h l.length (by simp)
  rwa [List.take_left, List.getElem_append_right (Nat.le_refl _), getElem_congr_idx (Nat.sub_self _),
    List.getElem_cons_zero] at hx

theorem gates_first (mode : PublishingMode) :
    Each (fun l x => x ∈ outwardStages → ∀ gate ∈ gates, gate ∈ l) mode.stageNames := by
  refine each_of_forall_lt ?_
  cases mode <;> decide +kernel

/-- Whatever the stages do, none that writes outwards runs before each gate was reached, and passed
or skipped by the operator. -/
theorem outward_gated (mode : PublishingMode)
    (stageRun : String → Context ω → Except String Unit × Context ω) (env : Env ω)
    (ctx : Context ω) :
    Each (fun l v => v.name ∈ outwardStages → v.runs = some v.name → ∀ gate ∈ gates,
      ∃ w ∈ l, w.name = gate ∧ (w.before.shouldSkip gate = true ∨
        ∃ logged after, w.fate = .ran logged (.ok ()) after))
      ((mode.pipeline stageRun).run env ctx).visits := by
  have h := run_ended (mode.pipeline stageRun) env ctx
  intro l v r heq hout _ gate hgate
  obtain ⟨reached, ⟨rest, hreached⟩, hnames, -⟩ := h.names
  have hsplit : mode.stageNames = l.map (·.name) ++ v.name :: (r.map (·.name) ++
      rest.map (·.name)) := by
    rw [← names_pipeline stageRun mode, ← hreached, List.map_append, ← hnames, heq]
    simp
  obtain ⟨w, hw, hname⟩ := List.mem_map.mp (gates_first mode _ _ _ hsplit hout gate hgate)
  refine ⟨w, hw, hname, ?_⟩
  obtain ⟨l', r', rfl⟩ := List.append_of_mem hw
  have hdecided := h.decided l' w (r' ++ v :: r) (by rw [heq]; simp)
  have hpassed := h.passed (l' ++ w :: r') v r heq w hw
  obtain ⟨name, before, (_ | _) | ⟨logged, result, after⟩⟩ := w
  · exact .inl (hname ▸ hdecided)
  · have hnot : ∀ g ∈ gates, g ∉ binaryDependentStages := by decide
    exact absurd hdecided.2.1 (hname ▸ hnot gate hgate)
  · obtain ⟨rfl, -⟩ := hpassed logged result after rfl
    exact .inr ⟨logged, after, rfl⟩

end Builders

end Anodizer.PipelineRun
