import Anodizer.Git.SemVer
import Anodizer.Lib.ScopedLoop
import Anodizer.Tag.ReleaseTag

/-! # Publishing crate by crate

A publish-only run visits its crates in order. Every visit rewinds what the
visits before it may have left, lays the workspace of the crate over the
configuration, and anchors the version and the tag of the crate. A guard puts
everything back when the loop ends.
-/

namespace Anodizer.PublishOnly

open Template (Text CharTables)
open Git Tag
open FirstOfEach
open ScopedLoop (Exit Outcome)

/-! ### Template variables -/

abbrev Vars := Text → Option Text

namespace Vars

def set (v : Vars) (key value : Text) : Vars := fun k => if k = key then some value else v k

def unset (v : Vars) (key : Text) : Vars := fun k => if k = key then none else v k

/-- Set a variable to a value it had, or unset it if it had none. -/
def rewind (v : Vars) (key : Text) (saved : Option Text) : Vars :=
  match saved with
  | some value => v.set key value
  | none => v.unset key

variable {v : Vars} {key value k : Text} {saved : Option Text}

@[simp]
theorem set_apply : v.set key value k = if k = key then some value else v k := rfl

@[simp]
theorem rewind_apply : v.rewind key saved k = if k = key then saved else v k := by
  cases saved <;> rfl

end Vars

def tagVar : Text := "Tag".toList

def previousTagVar : Text := "PreviousTag".toList

def releaseUrlVar : Text := "ReleaseURL".toList

def versionTemplateVars : List Text :=
  ["Version", "RawVersion", "Base", "Major", "Minor", "Patch", "Prerelease",
    "BuildMetadata"].map String.toList

/-- Every variable that the loop manages. -/
def managedVars : List Text := tagVar :: previousTagVar :: releaseUrlVar :: versionTemplateVars

/-! ### Configuration -/

structure ReleaseCrate extends Tag.CrateConfig where
  releaseTag : Option Text
  deriving DecidableEq, Repr

variable {C S H A R V : Type}

structure WorkspaceConfig (C S H : Type) where
  crates : List ReleaseCrate
  changelog : Option C
  signs : List S
  binarySigns : List S
  before : Option H
  after : Option H
  env : Option (List Text)
  skip : List Text

/-- The fields of a configuration that a workspace overlay writes. -/
structure OverlayFields (C S H : Type) where
  crates : List ReleaseCrate
  workspaces : Option (List (WorkspaceConfig C S H))
  changelog : Option C
  signs : List S
  binarySigns : List S
  before : Option H
  after : Option H
  env : Option (List Text)
  filledFromDefaults : List Text

namespace OverlayFields

def crateUniverse (config : OverlayFields C S H) : List ReleaseCrate :=
  firstOfEach (fun c => c.name) []
    (config.crates ++ (config.workspaces.getD []).flatMap WorkspaceConfig.crates)

def findCrate (config : OverlayFields C S H) (name : Text) : Option ReleaseCrate :=
  config.crateUniverse.find? fun c => c.name = name

/-- The last workspace that declares the crate. -/
def workspaceFor (config : OverlayFields C S H) (name : Text) : Option (WorkspaceConfig C S H) :=
  (config.workspaces.getD []).reverse.find? fun ws => ws.crates.any fun c => c.name = name

def applyWorkspaceOverlay (config : OverlayFields C S H) (ws : WorkspaceConfig C S H) :
    OverlayFields C S H where
  crates := ws.crates
  workspaces := none
  changelog := ws.changelog.or config.changelog
  signs := if ws.signs.isEmpty then config.signs else ws.signs
  binarySigns := if ws.binarySigns.isEmpty then config.binarySigns else ws.binarySigns
  before := ws.before.or config.before
  after := ws.after.or config.after
  env :=
    match ws.env with
    | some list => some (config.env.getD [] ++ list)
    | none => config.env
  filledFromDefaults := config.filledFromDefaults.filter fun field =>
    (ws.signs.isEmpty || field ≠ "signs".toList) &&
      (ws.binarySigns.isEmpty || field ≠ "binary_signs".toList)

end OverlayFields

/-- What the loop manages of the context. -/
structure Context (C S H A R V : Type) where
  overlay : OverlayFields C S H
  dist : Text
  selectedCrates : List Text
  skipStages : List Text
  artifacts : List A
  publishReport : Option R
  publishAttempted : Bool
  verifyRelease : Option V
  vars : Vars

/-- What the loop reads and does not change: the rest of the configuration and of the options, the
template engine, the tags of the repository, and the preserved manifests. -/
structure Env where
  base : Tag.Config
  nightly : Bool
  nightlyTagName : Option Text
  gitInfo : Option GitInfo
  render : Vars → Text → Except Text Text
  findPreviousTagInFamily : Text → Text → Vars → Option Text → List Text →
    Except Text (Option Text)
  preservedVersions : Text → Option (List Text)
  tables : CharTables
  distBase : Text
  join : Text → Text → Text

namespace Env

variable (env : Env)

/-- The configuration that the context shows. -/
def config (o : OverlayFields C S H) : Tag.Config :=
  { env.base with
    crates := o.crates.map (·.toCrateConfig)
    workspaces := (o.workspaces.getD []).map fun ws => ws.crates.map (·.toCrateConfig) }

def releaseContext (c : Context C S H A R V) : ReleaseContext where
  config := env.config c.overlay
  nightly := env.nightly
  nightlyTagName := env.nightlyTagName
  gitInfo := env.gitInfo
  render := env.render c.vars

end Env

/-! ### The guard -/

/-- The values from before the loop. -/
structure PerCrateOverlayGuard (C S H : Type) where
  dist : Text
  selectedCrates : List Text
  skipStages : List Text
  tag : Option Text
  previousTag : Option Text
  releaseUrl : Option Text
  versionVars : List (Text × Option Text)
  overlay : OverlayFields C S H

namespace PerCrateOverlayGuard

def capture (c : Context C S H A R V) : PerCrateOverlayGuard C S H where
  dist := c.dist
  selectedCrates := c.selectedCrates
  skipStages := c.skipStages
  tag := c.vars tagVar
  previousTag := c.vars previousTagVar
  releaseUrl := c.vars releaseUrlVar
  versionVars := versionTemplateVars.map fun key => (key, c.vars key)
  overlay := c.overlay

variable (guard : PerCrateOverlayGuard C S H) (c : Context C S H A R V)

def resetOverlayFields : Context C S H A R V := { c with overlay := guard.overlay }

def rewindVersionVars (v : Vars) : Vars :=
  guard.versionVars.foldl (fun v saved => v.rewind saved.1 saved.2) v

def resetVersionVars : Context C S H A R V := { c with vars := guard.rewindVersionVars c.vars }

def resetReleaseUrl : Context C S H A R V :=
  { c with vars := c.vars.rewind releaseUrlVar guard.releaseUrl }

/-- What the guard does when it goes out of scope. -/
def drop : Context C S H A R V :=
  { c with
    overlay := guard.overlay
    dist := guard.dist
    selectedCrates := guard.selectedCrates
    skipStages := guard.skipStages
    vars := guard.rewindVersionVars (((c.vars.rewind tagVar guard.tag).rewind previousTagVar
      guard.previousTag).rewind releaseUrlVar guard.releaseUrl) }

end PerCrateOverlayGuard

/-! ### One visit -/

def mergeWorkspaceSkip (into wsSkip : List Text) : List Text :=
  wsSkip.foldl (fun into stage => if stage ∈ into then into else into ++ [stage]) into

namespace Env

variable (env : Env)

/-- The first version that the preserved manifests of the crate record. -/
def peekPreservedVersion (crateDist : Text) : Option Text :=
  (env.preservedVersions crateDist).bind (·.find? (· ≠ []))

def applyPerCrateVersion (crateDist : Text) (v : Vars) : Vars :=
  match (env.peekPreservedVersion crateDist).bind (parseSemver env.tables) with
  | none => v
  | some semver =>
    [("Version".toList, semver.versionString), ("RawVersion".toList, semver.rawVersionString),
      ("Base".toList, semver.rawVersionString),
      ("Major".toList, Nat.toDigits 10 semver.major),
      ("Minor".toList, Nat.toDigits 10 semver.minor),
      ("Patch".toList, Nat.toDigits 10 semver.patch),
      ("Prerelease".toList, semver.prerelease.getD []),
      ("BuildMetadata".toList, semver.buildMetadata.getD [])].foldl
        (fun v entry => v.set entry.1 entry.2) v

/-- The tag before this one in the family of the crate. A failed search finds none. -/
def previousTag (c : Context C S H A R V) (crateCfg : Tag.CrateConfig) (tag : Text) : Option Text :=
  let config := env.config c.overlay
  let tagTemplate := crateCfg.tagFamilyTemplate
  let siblings := config.siblingTagFamiliesOf tagTemplate
  match env.findPreviousTagInFamily tag tagTemplate c.vars config.monorepoTagPrefix siblings with
  | .ok previous => previous
  | .error _ => none

def anchorCrateTag (c : Context C S H A R V) (crateCfg : Tag.CrateConfig) (tag : Text) :
    Context C S H A R V :=
  { c with
    vars := (c.vars.set tagVar tag).rewind previousTagVar (env.previousTag c crateCfg tag) }

def applyPerCrateTag (config : OverlayFields C S H) (crateName : Text)
    (c : Context C S H A R V) : Context C S H A R V :=
  match config.findCrate crateName with
  | none => c
  | some crateCfg =>
    match (env.releaseContext c).resolveReleaseTag crateCfg.toCrateConfig crateCfg.releaseTag with
    | .ok tag => env.anchorCrateTag c crateCfg.toCrateConfig tag
    | .error _ => c

/-- Lay the workspace of the crate over a rewound context, and point it at the crate. -/
def scope (config : OverlayFields C S H) (guard : PerCrateOverlayGuard C S H) (crateName : Text)
    (c : Context C S H A R V) : Context C S H A R V :=
  let crateDist := env.join env.distBase crateName
  let c := guard.resetReleaseUrl (guard.resetVersionVars (guard.resetOverlayFields c))
  let ws := config.workspaceFor crateName
  { overlay := (ws.map c.overlay.applyWorkspaceOverlay).getD c.overlay
    dist := crateDist
    selectedCrates := [crateName]
    skipStages := (ws.map fun ws => mergeWorkspaceSkip guard.skipStages ws.skip).getD
      guard.skipStages
    artifacts := []
    publishReport := none
    publishAttempted := false
    verifyRelease := none
    vars := env.applyPerCrateVersion crateDist c.vars }

/-- The context that the `before` hooks of a crate start in. -/
def enter (config : OverlayFields C S H) (guard : PerCrateOverlayGuard C S H) (crateName : Text)
    (c : Context C S H A R V) : Context C S H A R V :=
  env.applyPerCrateTag config crateName (env.scope config guard crateName c)

/-- Visit the crates in order. An effect is what the hooks and the pipeline of a crate do. -/
def runPerCrate (config : OverlayFields C S H)
    (steps : List (Text × (Context C S H A R V → Context C S H A R V × Exit)))
    (c : Context C S H A R V) : Outcome (Context C S H A R V) Text :=
  let guard := PerCrateOverlayGuard.capture c
  let outcome := ScopedLoop.run (env.enter config guard) steps c
  { outcome with final := guard.drop outcome.final }

end Env

end Anodizer.PublishOnly
