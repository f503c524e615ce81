import Anodizer.Cargo.EdgeOrder
import Anodizer.Publish.Evidence

/-! # The cargo publish loop

Each crate of the plan is prepared, checked against the index, published and recorded in
turn. The first error leaves the loop with the crates published so far on the record.
-/

namespace Anodizer

/-- The default `index_timeout` in seconds. -/
def defaultIndexTimeoutSecs : Nat := 300

inductive CrateIndexExistence
  | exists
  | neverPublished
  | unknown
  deriving DecidableEq, Repr

structure LocalCrate where
  cksum : String
  bytes : List UInt8
  deriving DecidableEq, Repr

inductive CrateContentMatch
  | equivalent
  | differs (paths : List String)
  deriving DecidableEq, Repr

inductive CargoSkipDecision
  | skip
  | publish
  deriving DecidableEq, Repr

/-- What a run reads and does outside the process, with the answers it gets. -/
structure CargoEnv extends PlanContext where
  shouldSkip : Bool
  dryRun : Bool
  contextVersion : String
  registryToken : Option String
  /-- The answers of the already-published check while the completeness guard asks it. -/
  earlierPublishedCheck : String → String → Except String (Option String)
  crateExists : String → CrateIndexExistence
  ensurePublishTreeClean : Except String Unit
  generateBinstallMetadata : CrateConfig → Except String Unit
  alreadyPublishedCheck : String → String → Except String (Option String)
  localCksumCheck : String → Except String (Option LocalCrate)
  fetchPublished : String → String → Except String (List UInt8)
  sha256 : List UInt8 → String
  cratesEqualModuloVcs : List UInt8 → List UInt8 → Bool → Except String CrateContentMatch
  changelogProvenanceRecorded : String → String → Bool
  waitForWorkspaceDepsToAppear : String → List (String × String) → Except String Unit
  runCargoPublish : String → Option CargoPublishConfig → Except String Unit
  pollCratesIoIndex : String → String → Nat → Except String Unit

/-! ### Guards -/

def CargoEnv.indexProbe (env : CargoEnv) (name version : String) : DepIndexState :=
  match env.earlierPublishedCheck name version with
  | .ok (some _) => .present
  | .ok none => .absent
  | .error _ => .unknown

def targetsCratesIo : Option CargoPublishConfig → Bool
  | none => true
  | some cfg => cfg.registry.isNone && cfg.index.isNone

def tpNewCrates (crates : List String) : String :=
  let one := crates.length == 1
  "cargo publish is running under a crates.io Trusted Publishing (OIDC) token, but " ++
    ", ".intercalate (crates.map fun n => s!"'{n}'") ++ (if one then " has" else " have") ++
    " never been published: Trusted Publishing cannot CREATE a crate, so " ++
    (if one then "it" else "each") ++
    " would be rejected (403) partway through the publish loop — after " ++
    (if one then "its" else "their") ++
    " dependencies were already published at the release version. Aborting before any crate " ++
    "publishes.\nRemediation, once per new crate:\n" ++
    "1. `cargo publish -p <crate>` with a regular crates.io API token to create the crate " ++
    "(bootstrap publish).\n" ++
    "2. Add the Trusted Publisher config for the new crate on crates.io.\n" ++
    "3. Re-run the release — subsequent versions publish via OIDC normally."

/-- Only a definitive absence from the index blocks a trusted-publishing run. -/
def checkTpNewCrates (env : CargoEnv) (plan : CargoPublishPlan) : Except String Unit :=
  let new := plan.order.filter fun name =>
    targetsCratesIo (Kahn.collect plan.cfgs name) && env.crateExists name == .neverPublished
  if new.isEmpty then .ok () else .error (tpNewCrates new)

def eqIgnoreAsciiCase (a b : String) : Bool :=
  a.toList.map Char.toLower == b.toList.map Char.toLower

section Messages

variable (name version indexCksum : String)

def cksumMissing : String :=
  s!"publish: crates.io index entry for '{name}-{version}' carries no cksum, so its content " ++
    "identity cannot be verified. Refusing to skip — an empty cksum on an existing index entry " ++
    "signals a malformed/unparsed index line, not a safe re-cut, and silently skipping it would " ++
    "reopen the content-drift poison hole this guard closes. Re-run once the crates.io index is " ++
    "fully reachable, or bump the version."

def localUncomputable : String :=
  s!"publish: '{name}-{version}' is already published on crates.io but its local .crate " ++
    "checksum could not be computed; refusing to skip a version that may have drifted from the " ++
    "published content. Resolve the packaging error and re-run, or bump the version."

def localMissing : String :=
  s!"publish: '{name}-{version}' is published on crates.io but no local .crate checksum was " ++
    "produced to compare against (the crate targets crates.io, so a digest was expected). " ++
    "Refusing to skip a version whose content identity is unverifiable."

def unfetchable (localCksum : String) : String :=
  s!"publish: '{name}-{version}' is already published on crates.io with a local .crate checksum " ++
    s!"that does not match the index (index cksum {indexCksum}, local .crate cksum {localCksum}), " ++
    "but the published .crate could not be fetched to rule out a same-source re-cut. Refusing to " ++
    "skip a version whose content identity is unverifiable."

def cdnMismatch (publishedCksum : String) : String :=
  s!"publish: '{name}-{version}' is already published on crates.io, but the .crate fetched from " ++
    s!"the static CDN has sha256 {publishedCksum}, which does NOT match the index-recorded cksum " ++
    s!"{indexCksum}. A mismatched download cannot be used to verify content identity — refusing to " ++
    "skip. Re-run once crates.io is consistent, or bump the version."

def contentDiffers (localCksum : String) (paths : List String) : String :=
  s!"publish: '{name}-{version}' is ALREADY published on crates.io with DIFFERENT content (index " ++
    s!"cksum {indexCksum}, local .crate cksum {localCksum}). Re-publishing would be SILENTLY SKIPPED " ++
    "by cargo, so the changed code would never ship under this version. Differing entries: " ++
    ", ".intercalate paths ++ ". Bump the version (crates.io versions are immutable) and re-run."

end Messages

/-- A published version is skipped only when its content is shown to be the local one. -/
def decideAlreadyPublished (env : CargoEnv) (name version indexCksum : String)
    (changelogRegenerated : Bool) : Except String CargoSkipDecision :=
  if indexCksum = "" then .error (cksumMissing name version)
  else do
    let localCrate ← withContext (localUncomputable name version) (env.localCksumCheck name)
    match localCrate with
    | none => .error (localMissing name version)
    | some localCrate =>
      if eqIgnoreAsciiCase localCrate.cksum indexCksum then .ok .skip
      else do
        let published ← withContext (unfetchable name version indexCksum localCrate.cksum)
          (env.fetchPublished name version)
        if eqIgnoreAsciiCase (env.sha256 published) indexCksum then do
          match ← env.cratesEqualModuloVcs localCrate.bytes published changelogRegenerated with
          | .equivalent => .ok .skip
          | .differs paths => .error (contentDiffers name version indexCksum localCrate.cksum paths)
        else .error (cdnMismatch name version indexCksum (env.sha256 published))

/-! ### One crate -/

section Crate

variable (env : CargoEnv) (plan : CargoPublishPlan) (name : String)

def crateVersion : String := (Kahn.collect plan.versions name).getD ""

def cargoCfg : Option CargoPublishConfig := Kahn.collect plan.cfgs name

def crateCfg : Option CrateConfig := plan.allCrates.find? (·.name = name)

/-- The index check applies: a crates.io target with a resolved version. -/
def guarded : Bool :=
  crateVersion plan name ≠ "" && targetsCratesIo (cargoCfg plan name)

def binstallEnabled : Bool :=
  ((crateCfg plan name).bind (·.binstall)).any fun b => b.enabled.getD false

/-- Writes the binstall table of a crate that enables it. -/
def ensureBinstallMetadata : Except String Unit :=
  match crateCfg plan name with
  | none => .ok ()
  | some c =>
    if binstallEnabled plan name then
      withContext s!"publish: ensure binstall metadata for '{c.name}' before cargo publish"
        (env.generateBinstallMetadata c)
    else .ok ()

def skipDecision : Except String CargoSkipDecision :=
  let version := crateVersion plan name
  if !guarded plan name then .ok .publish
  else
    match env.alreadyPublishedCheck name version with
    | .ok none => .ok .publish
    | .ok (some indexCksum) =>
      match crateCfg plan name with
      | none =>
        .error (s!"publish: '{name}-{version}' is published on crates.io but its crate config is " ++
          "missing; cannot verify content identity")
      | some _ =>
        decideAlreadyPublished env name version indexCksum
          (env.changelogProvenanceRecorded name version)
    | .error e =>
      .error (s!"publish: could not reach the crates.io index to verify '{name}-{version}' is safe " ++
        s!"to skip ({e}); refusing to skip a possibly-poisoned already-published version. Resolve " ++
        "the network issue and re-run, or bump the version.")

/-- The versioned workspace dependencies the pre-publish gate polls for. -/
def workspaceDepsForCrate : List (String × String) :=
  ((collectWorkspaceDepEntries env.disk (cratePath plan.allCrates name)
    (plan.allCrates.map (·.name)) ["dependencies", "dev-dependencies", "build-dependencies"]).filter
      (·.version ≠ "")).map fun e => (e.package, e.version)

def waitGate : Except String Unit :=
  let waitCfg := ((cargoCfg plan name).bind (·.waitForWorkspaceDeps)).getD {}
  if waitCfg.resolvedEnabled && !(workspaceDepsForCrate env plan name).isEmpty then
    withContext s!"publish: wait_for_workspace_deps for '{name}'"
      (env.waitForWorkspaceDepsToAppear name (workspaceDepsForCrate env plan name))
  else .ok ()

/-- The version a rollback would yank; without one the crate is not recorded. -/
def yankVersion : String :=
  if crateVersion plan name ≠ "" then crateVersion plan name else env.contextVersion

def yankTarget : Option CargoYankTargetSnapshot :=
  if yankVersion env plan name = "" then none
  else some
    { name, version := yankVersion env plan name
      registry := (cargoCfg plan name).bind (·.registry)
      index := (cargoCfg plan name).bind (·.index) }

/-- Waits for the index when a later crate depends on the one just published. -/
def indexPoll (later : List String) : Except String Unit :=
  let hasDependents := later.any fun l => (Kahn.collect plan.deps l).any (·.contains name)
  if hasDependents && crateVersion plan name ≠ "" then
    let timeout := ((cargoCfg plan name).bind (·.indexTimeout)).getD defaultIndexTimeoutSecs
    if timeout = 0 then .ok ()
    else
      withContext s!"publish: index poll for '{name}'"
        (env.pollCratesIoIndex name (crateVersion plan name) timeout)
  else .ok ()

end Crate

/-! ### The loop -/

/-- What a run does to a crate, in order. -/
inductive CargoEvent
  | binstall (name : String)
  | skipped (name : String)
  | cargoPublish (name : String) (ok : Bool)
  | failed (name : String)
  deriving DecidableEq, Repr

structure LoopState where
  events : List CargoEvent := []
  record : List CargoYankTargetSnapshot
  deriving DecidableEq, Repr

def LoopState.note (s : LoopState) (events : List CargoEvent) : LoopState :=
  { s with events := s.events ++ events }

def LoopState.push (s : LoopState) (target : Option CargoYankTargetSnapshot) : LoopState :=
  { s with record := s.record ++ target.toList }

abbrev CargoFlow := Loop.Flow LoopState (LoopState × String)

/-- Goes on with the answer of a fallible step, or fails the crate. -/
def attempt {α : Type} (name : String) (s : LoopState) (answer : Except String α)
    (next : α → CargoFlow) : CargoFlow :=
  match answer with
  | .ok a => next a
  | .error e => .stop (s.note [.failed name], e)

def binstallEvents (plan : CargoPublishPlan) (name : String) : List CargoEvent :=
  if binstallEnabled plan name then [.binstall name] else []

/-- Publishes one crate, given with the crates still to come. -/
def publishCrate (env : CargoEnv) (plan : CargoPublishPlan) (item : String × List String)
    (s : LoopState) : CargoFlow :=
  let name := item.1
  attempt name s (ensureBinstallMetadata env plan name) fun _ =>
    let s := s.note (binstallEvents plan name)
    attempt name s (skipDecision env plan name) fun
      | .skip => .next (s.note [.skipped name])
      | .publish =>
        attempt name s (waitGate env plan name) fun _ =>
          match env.runCargoPublish name (cargoCfg plan name) with
          | .error e => .stop (s.note [.cargoPublish name false, .failed name], e)
          | .ok _ =>
            let s := (s.note [.cargoPublish name true]).push (yankTarget env plan name)
            attempt name s (indexPoll env plan name item.2) fun _ => .next s

/-- Each crate with the crates after it. -/
def withLater : List String → List (String × List String)
  | [] => []
  | name :: later => (name, later) :: withLater later

structure CargoOutcome where
  result : Except String Unit
  events : List CargoEvent
  record : List CargoYankTargetSnapshot

def LoopState.outcome (s : LoopState) (result : Except String Unit) : CargoOutcome :=
  { result, events := s.events, record := s.record }

def publishLoop (env : CargoEnv) (plan : CargoPublishPlan)
    (record : List CargoYankTargetSnapshot) : CargoOutcome :=
  match Loop.run (publishCrate env plan) (withLater plan.order) { record } with
  | .next s => s.outcome (.ok ())
  | .stop (s, e) => s.outcome (.error e)

/-- The checks before the first crate. -/
def publishBackstops (env : CargoEnv) (plan : CargoPublishPlan) : Except String Unit := do
  checkPublishSetCompleteness env.disk plan.order plan.allCrates plan.versions env.indexProbe
  if env.registryToken.isSome then checkTpNewCrates env plan
  if plan.order.any (guarded plan) then env.ensurePublishTreeClean

def publishToCargoWithGuard (env : CargoEnv) (config : Config) (selected : List String)
    (record : List CargoYankTargetSnapshot) : CargoOutcome :=
  let unstarted : LoopState := { record }
  if env.shouldSkip then unstarted.outcome (.ok ())
  else
    match cargoPublishPlan env.toPlanContext config selected with
    | .error e => unstarted.outcome (.error e)
    | .ok plan =>
      if plan.order.isEmpty || env.dryRun then unstarted.outcome (.ok ())
      else
        match publishBackstops env plan with
        | .error e => unstarted.outcome (.error e)
        | .ok _ => publishLoop env plan record

end Anodizer
