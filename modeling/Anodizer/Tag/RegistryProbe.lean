import Anodizer.Lib.FirstOfEach
import Anodizer.Tag.Config

/-! # Registry probes

A tag versions the crates whose prefix it has. Every version that such a crate
may have published to a registry that never takes it twice is looked up there.
-/

namespace Anodizer.Tag

open Template (Text CharTables)
open Git FirstOfEach

/-- The probes; one without an answer failed. -/
structure BurnProbes where
  cratesIo : Text → Text → Option Bool
  npm : Text → Text → Text → Option Bool
  pypi : Text → Text → Text → Option Bool

/-! ### The crates of a tag -/

variable (u : CharTables) (config : Config)

def versionOf (c : CrateConfig) (stripped : Text) : Option Text :=
  if c.tagPrefix.isPrefixOf stripped then
    let version := stripped.drop c.tagPrefix.length
    if (parseSemver u version).isSome then some version else none
  else none

def stripNamespace (tag : Text) : Text :=
  match config.monorepoTagPrefix with
  | some p => stripMonorepoPrefix tag p
  | none => tag

/-- The crates whose prefix the tag has, less the namespace of the monorepo. -/
def cratesVersionedByTag (tag : Text) : List (CrateConfig × Text) :=
  config.crateUniverse.crates.filterMap fun c =>
    (versionOf u c (stripNamespace config tag)).map fun v => (c, v)

namespace CrateConfig

def targetsCratesIo (c : CrateConfig) : Bool :=
  (c.publish.bind (·.cargo)).any (·.targetsCratesIo)

end CrateConfig

/-! ### crates.io -/

structure CrateProbe where
  tag : Text
  name : Text
  version : Text
  deriving DecidableEq, Repr

structure TagCrateMapping where
  probes : List (Text × Text)
  matchedNonCratesIo : ℕ

def cratesIoVersionsForTag (tag : Text) : TagCrateMapping where
  probes := (cratesVersionedByTag u config tag).filterMap fun (c, v) =>
    if c.targetsCratesIo then some (c.name, v) else none
  matchedNonCratesIo := (cratesVersionedByTag u config tag).countP fun (c, _) =>
    !c.targetsCratesIo

def cratesIoPending (tags : List Text) : List CrateProbe :=
  firstOfEach (fun p => (p.name, p.version)) [] <| tags.flatMap fun tag =>
    (cratesIoVersionsForTag u config tag).probes.map fun (name, v) => ⟨tag, name, v⟩

def cratesIoUnmapped (tags : List Text) : List Text :=
  tags.filter fun tag =>
    let mapping := cratesIoVersionsForTag u config tag
    mapping.probes.isEmpty && mapping.matchedNonCratesIo = 0

/-! ### npm and PyPI -/

inductive Registry | npm | pypi
  deriving DecidableEq, Repr

/-- A package at its registry, at the version of a tag. -/
structure ImmutableProbe where
  tag : Text
  registry : Registry
  endpoint : Text
  package : Text
  version : Text
  deriving DecidableEq, Repr

/-- What makes two probes the same one. -/
def ImmutableProbe.key (p : ImmutableProbe) : Registry × Text × Text :=
  (p.registry, p.endpoint ++ '#' :: p.package, p.version)

def isTemplated (s : Text) : Bool := Template.contains s "\x7b\x7b".toList

/-- A configured text without the blanks around it, unless nothing is left. -/
def given (s : Option Text) : Option Text := (s.map Template.trim).filter (· ≠ [])

def trimEndSlash (s : Text) : Text := (s.reverse.dropWhile (· = '/')).reverse

namespace NpmConfig

def defaultRegistry : Text := "https://registry.npmjs.org".toList

def staticRegistry (cfg : NpmConfig) : Option Text :=
  match given cfg.registry with
  | some r => if isTemplated r then none else some (trimEndSlash r)
  | none => some defaultRegistry

def resolveName (cfg : NpmConfig) (crateName : Text) : Text := (given cfg.name).getD crateName

def resolveMetapackage (cfg : NpmConfig) (crateName : Text) : Text :=
  ((given cfg.metapackage).or (given cfg.name)).getD crateName

def staticPublishedName (cfg : NpmConfig) (crateName : Text) : Option Text :=
  let name := match cfg.mode with
    | .postinstall => some (cfg.resolveName crateName)
    | .optionalDeps =>
      if cfg.skipMetapackage.any fun s : StringOrBool => s.isTemplate || s.asBool then none
      else some (cfg.resolveMetapackage crateName)
  name.filter fun n => !isTemplated n

end NpmConfig

namespace PypiConfig

def defaultRepository : Text := "https://upload.pypi.org/legacy/".toList

def staticRepository (cfg : PypiConfig) : Option Text :=
  match given cfg.indexUrl with
  | some r => if isTemplated r then none else some r
  | none => some defaultRepository

def staticProjectName (cfg : PypiConfig) (crateName : Text) : Option Text :=
  match given cfg.name with
  | some n => if isTemplated n then none else some n
  | none => some crateName

end PypiConfig

def npmEntryCrateName : Text := config.primaryCrateName.getD config.projectName

def pypiEntryCrateName (cfg : PypiConfig) : Text :=
  ((cfg.ids.bind (·.find? (· ≠ []))).or config.primaryCrateName).getD config.projectName

/-- An entry of a registry, its crate, and what it resolves to outside a release. -/
structure Entry where
  registry : Registry
  crateName : Text
  endpoint : Option Text
  package : Option Text
  deriving DecidableEq, Repr

def npmEntries : List Entry := (config.npms.getD []).map fun cfg =>
  let crateName := npmEntryCrateName config
  ⟨.npm, crateName, cfg.staticRegistry, cfg.staticPublishedName crateName⟩

def pypiEntries : List Entry := (config.pypis.getD []).map fun cfg =>
  let crateName := pypiEntryCrateName config cfg
  ⟨.pypi, crateName, cfg.staticRepository, cfg.staticProjectName crateName⟩

/-- The entries in the order in which each tag visits them. -/
def entries : List Entry := npmEntries config ++ pypiEntries config

def versionedBy (tag crateName : Text) : Option Text :=
  ((cratesVersionedByTag u config tag).find? (·.1.name = crateName)).map (·.2)

/-- The probe of an entry at a tag. -/
def Entry.probe (tag : Text) (e : Entry) : Option ImmutableProbe := do
  let version ← versionedBy u config tag e.crateName
  let endpoint ← e.endpoint
  let package ← e.package
  return ⟨tag, e.registry, endpoint, package, version⟩

def immutableProbes (tags : List Text) : List ImmutableProbe :=
  tags.flatMap fun tag => (entries config).filterMap (·.probe u config tag)

def immutablePending (tags : List Text) : List ImmutableProbe :=
  firstOfEach ImmutableProbe.key [] (immutableProbes u config tags)

def immutableUnresolvable (tags : List Text) : List (Text × Entry) :=
  tags.flatMap fun tag => ((entries config).filter fun e =>
    (versionedBy u config tag e.crateName).isSome &&
      (e.endpoint.isNone || e.package.isNone)).map fun e => (tag, e)

def BurnProbes.immutable (probes : BurnProbes) (p : ImmutableProbe) : Option Bool :=
  match p.registry with
  | .npm => probes.npm p.endpoint p.package p.version
  | .pypi => probes.pypi p.endpoint p.package p.version

end Anodizer.Tag
