import Anodizer.Publish.Report
import Anodizer.Tag.RegistryProbe

/-! # The guard of a tag rollback

A tag is rolled back only when the summaries of its runs, the registries that
never take a version twice, the moderated registries and the releases leave no
sign that its version was published.
-/

namespace Anodizer.Tag

open Template (Text CharTables)
open Git FirstOfEach

/-! ### Run summaries -/

structure SummaryRow where
  name : String
  group : PublisherGroup
  status : String
  evidence : Option PublishEvidence
  deriving DecidableEq, Repr

/-- A status other than failed and skipped reached the remote. -/
def SummaryRow.statusLanded (r : SummaryRow) : Bool :=
  if r.status = "failed" then r.evidence.any (·.recordsPublishedWork)
  else !("skipped-".toList.isPrefixOf r.status.toList)

structure RunSummary where
  tag : Text
  irreversiblyPublished : Bool
  results : List SummaryRow
  deriving DecidableEq, Repr

def RunSummary.burnedSubmitterNames (s : RunSummary) : List String :=
  (s.results.filter fun r => r.group = .submitter && r.statusLanded).map (·.name)

/-! ### Moderated registries -/

structure WingetProbeSpec where
  upstream : Text
  packageId : Text
  version : Text
  searchInTitle : Bool
  deriving DecidableEq, Repr

inductive ModeratedProbe
  | chocolatey (tag id version : Text)
  | winget (tag : Text) (spec : WingetProbeSpec)
  deriving DecidableEq, Repr

namespace ChocolateyConfig

def communityPushSource : Text := "https://push.chocolatey.org/".toList

def pushSource (cfg : ChocolateyConfig) : Text := cfg.sourceRepo.getD communityPushSource

def targetsCommunityGallery (cfg : ChocolateyConfig) : Bool :=
  (trimEndSlash cfg.pushSource).map Char.toLower =
    (trimEndSlash communityPushSource).map Char.toLower

def staticPackageId (cfg : ChocolateyConfig) (crateName : Text) : Option Text :=
  some (cfg.name.getD crateName) |>.filter fun id => !isTemplated id

end ChocolateyConfig

namespace WingetConfig

def resolveRepoOwner (repository : Option RepositoryConfig) : Option Text := do
  let r ← repository
  let owner ← r.owner
  let _ ← r.name
  return owner

def autoPackageIdentifier (publisher name : Text) : Text :=
  publisher.filter (· ≠ ' ') ++ '.' :: name

def staticPackageIdentifier (cfg : WingetConfig) (crateName : Text) : Option Text :=
  match cfg.packageIdentifier with
  | some id => if isTemplated id then none else some id
  | none => do
    let name := cfg.name.getD crateName
    let publisher ← (cfg.publisher.filter (· ≠ [])).or (resolveRepoOwner cfg.repository)
    if isTemplated name || isTemplated publisher then none
    else some (autoPackageIdentifier publisher name)

def resolveWingetUpstream (cfg : WingetConfig) : Text :=
  match cfg.repository.bind (·.baseOwner), cfg.repository.bind (·.baseName) with
  | some owner, some name => owner ++ '/' :: name
  | _, _ => "microsoft/winget-pkgs".toList

end WingetConfig

/-- The probe with what it is told apart by. -/
def chocolateyProbe (tag version : Text) (c : CrateConfig) :
    Option (ModeratedProbe × String × Text × Text) := do
  let cfg ← c.publish.bind (·.chocolatey)
  let id ← if cfg.targetsCommunityGallery then cfg.staticPackageId c.name else none
  return (.chocolatey tag id version, "chocolatey", id, version)

def wingetProbe (tag version : Text) (c : CrateConfig) :
    Option (ModeratedProbe × String × Text × Text) := do
  let cfg ← c.publish.bind (·.winget)
  let id ← cfg.staticPackageIdentifier c.name
  let upstream := cfg.resolveWingetUpstream
  return (.winget tag ⟨upstream, id, version, cfg.commitMsgTemplate.isNone⟩, "winget",
    upstream ++ '#' :: id, version)

variable (u : CharTables) (config : Config)

def moderatedPending (tags : List Text) : List ModeratedProbe :=
  (firstOfEach (·.2) [] <| tags.flatMap fun tag =>
    (cratesVersionedByTag u config tag).flatMap fun (c, v) =>
      (chocolateyProbe tag v c).toList ++ (wingetProbe tag v c).toList).map (·.1)

/-! ### Releases -/

/-- The remote the releases would be on. -/
inductive Origin | github | other | unresolved
  deriving DecidableEq, Repr

inductive ReleaseProbe | published | notBlocking | indeterminate
  deriving DecidableEq, Repr

/-- The draft flag of a release, or the message of a failed request. -/
abbrev ReleaseAnswer := Except Text (Option Bool)

def probeReleaseForTag (answer : ReleaseAnswer) : ReleaseProbe :=
  match answer with
  | .ok (some true) => .notBlocking
  | .ok _ => .published
  | .error msg =>
    if Template.contains msg "HTTP 404".toList || Template.contains msg "Not Found".toList then
      .notBlocking
    else .indeterminate

/-! ### The guard -/

/-- What the guard reads outside the configuration. -/
structure Evidence where
  summaries : List RunSummary
  probes : BurnProbes
  chocolatey : Text → Text → Option (Option Text)
  winget : WingetProbeSpec → Option (Option Text)
  origin : Origin
  release : Text → ReleaseAnswer

inductive Refusal
  | summaries (burned : List (Text × List String))
  | cratesIo (burned : List CrateProbe) (squatSuspects : List Text)
  | cratesIoUnreachable (probes : List CrateProbe)
  | unmapped (tags : List Text)
  | immutable (burned : List ImmutableProbe)
  | immutableUnreachable (probes : List ImmutableProbe)
  | unresolvable (entries : List (Text × Entry))
  | moderated (burned : List ModeratedProbe)
  | originUnresolved (tags : List Text)
  | releasesUnknown (tags : List Text)
  | releases (tags : List Text)
  deriving DecidableEq, Repr

/-- Go on unless the list has an element. -/
def refuseIf {α : Type} (l : List α) (refusal : Refusal) : Except Refusal Unit :=
  if l.isEmpty then .ok () else .error refusal

def Evidence.matching (ev : Evidence) (tag : Text) : List RunSummary :=
  ev.summaries.filter (·.tag = tag)

def summaryBurned (ev : Evidence) (tag : Text) : Option (Text × List String) :=
  let matching := ev.matching tag
  let names := (matching.flatMap (·.burnedSubmitterNames)).mergeSort.dedup
  if matching.any (·.irreversiblyPublished) || !names.isEmpty then some (tag, names) else none

def checkNotBurnedOnCratesIo (ev : Evidence) (unsummarized tags : List Text) :
    Except Refusal Unit := do
  if !config.crateUniverse.crates.any (·.targetsCratesIo) then return ()
  let pending := cratesIoPending u config tags
  let burned := pending.filter fun p => ev.probes.cratesIo p.name p.version = some true
  let squatSuspects := (burned.filter (·.tag ∈ unsummarized)).map (·.name)
  refuseIf burned (.cratesIo burned (firstOfEach id [] squatSuspects))
  let failed := pending.filter fun p => ev.probes.cratesIo p.name p.version = none
  refuseIf failed (.cratesIoUnreachable failed)
  refuseIf (cratesIoUnmapped u config tags) (.unmapped (cratesIoUnmapped u config tags))

def checkNotBurnedOnNpmPypi (ev : Evidence) (tags : List Text) : Except Refusal Unit := do
  let pending := immutablePending u config tags
  let burned := pending.filter fun p => ev.probes.immutable p = some true
  refuseIf burned (.immutable burned)
  let failed := pending.filter fun p => ev.probes.immutable p = none
  refuseIf failed (.immutableUnreachable failed)
  let unresolvable := immutableUnresolvable u config tags
  refuseIf unresolvable (.unresolvable unresolvable)

def Evidence.moderated (ev : Evidence) : ModeratedProbe → Option (Option Text)
  | .chocolatey _ id version => ev.chocolatey id version
  | .winget _ spec => ev.winget spec

/-- A probe that fails is no evidence here. -/
def checkNotBurnedOnModeratedRegistries (ev : Evidence) (tags : List Text) :
    Except Refusal Unit :=
  let burned := (moderatedPending u config tags).filter fun p => (ev.moderated p).join.isSome
  refuseIf burned (.moderated burned)

def checkNoPublishedReleases (ev : Evidence) (tags : List Text) : Except Refusal Unit := do
  match ev.origin with
  | .other => return ()
  | .unresolved => throw (.originUnresolved tags)
  | .github =>
    let unknown := tags.filter fun t => probeReleaseForTag (ev.release t) = .indeterminate
    refuseIf unknown (.releasesUnknown unknown)
    let published := tags.filter fun t => probeReleaseForTag (ev.release t) = .published
    refuseIf published (.releases published)

/-- The tags without a summary, when all of the tags may be deleted. -/
def checkNotIrreversiblyPublished (ev : Evidence) (tags : List Text) :
    Except Refusal (List Text) := do
  let burned := tags.filterMap (summaryBurned ev)
  let unsummarized := tags.filter fun t => (ev.matching t).isEmpty
  refuseIf burned (.summaries burned)
  checkNotBurnedOnCratesIo u config ev unsummarized tags
  checkNotBurnedOnNpmPypi u config ev tags
  checkNotBurnedOnModeratedRegistries u config ev tags
  if unsummarized.isEmpty then return unsummarized
  checkNoPublishedReleases ev unsummarized
  return unsummarized

end Anodizer.Tag
