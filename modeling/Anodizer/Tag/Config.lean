import Anodizer.Git.TagQueries
import Anodizer.Template.StringLit

/-! # Configuration

The crates of a configuration, under one name each, and what they and the
project publish.
-/

namespace Anodizer.Tag

open Template (Text CharTables)
open Git

/-! ### Publishers -/

inductive StringOrBool
  | string (s : Text)
  | bool (b : Bool)
  deriving DecidableEq, Repr

def StringOrBool.isTemplate : StringOrBool → Bool
  | string s => s.contains '\x7b'
  | bool _ => false

def isTrueSpelling (s : Text) : Bool :=
  (Template.trim s).map Char.toLower ∈ ["true".toList, "1".toList]

def StringOrBool.asBool : StringOrBool → Bool
  | string s => isTrueSpelling s
  | bool b => b

structure CargoPublishConfig where
  registry : Option Text
  index : Option Text
  deriving DecidableEq, Repr

def CargoPublishConfig.targetsCratesIo (cfg : CargoPublishConfig) : Bool :=
  cfg.registry.isNone && cfg.index.isNone

structure ChocolateyConfig where
  name : Option Text
  sourceRepo : Option Text
  deriving DecidableEq, Repr

/-- The owner and the name of a repository, and of the base of its pull requests. -/
structure RepositoryConfig where
  owner : Option Text
  name : Option Text
  baseOwner : Option Text
  baseName : Option Text
  deriving DecidableEq, Repr

structure WingetConfig where
  packageIdentifier : Option Text
  name : Option Text
  publisher : Option Text
  repository : Option RepositoryConfig
  commitMsgTemplate : Option Text
  deriving DecidableEq, Repr

structure PublishConfig where
  cargo : Option CargoPublishConfig
  chocolatey : Option ChocolateyConfig
  winget : Option WingetConfig
  deriving DecidableEq, Repr

inductive NpmMode | optionalDeps | postinstall
  deriving DecidableEq, Repr

structure NpmConfig where
  mode : NpmMode
  name : Option Text
  metapackage : Option Text
  skipMetapackage : Option StringOrBool
  registry : Option Text
  deriving DecidableEq, Repr

structure PypiConfig where
  ids : Option (List Text)
  name : Option Text
  indexUrl : Option Text
  deriving DecidableEq, Repr

/-! ### Crates -/

structure CrateConfig where
  name : Text
  path : Text
  tagTemplate : Option Text
  dependsOn : Option (List Text)
  publish : Option PublishConfig
  deriving DecidableEq, Repr

namespace CrateConfig

def perCrateTagFamilyTemplate (name : Text) : Text :=
  name ++ "-v\x7b\x7b Version \x7d\x7d".toList

/-- The template of the tags of a crate. -/
def tagFamilyTemplate (c : CrateConfig) : Text :=
  (c.tagTemplate.filter (· ≠ [])).getD (perCrateTagFamilyTemplate c.name)

def tagPrefix (c : CrateConfig) : Text := perCrateTagPrefix c.name c.tagFamilyTemplate

end CrateConfig

/-- The crates of a configuration, no two of one name. -/
structure Universe where
  crates : List CrateConfig
  distinct : (crates.map CrateConfig.name).Nodup

def addCrate (seen : List CrateConfig) (c : CrateConfig) : List CrateConfig :=
  if c.name ∈ seen.map CrateConfig.name then seen else seen ++ [c]

theorem nodup_addCrate {seen : List CrateConfig} (h : (seen.map CrateConfig.name).Nodup)
    (c : CrateConfig) : ((addCrate seen c).map CrateConfig.name).Nodup := by
  unfold addCrate
  split
  · exact h
  · next hc =>
    rw [List.map_append, List.nodup_append]
    refine ⟨h, by simp, ?_⟩
    rintro a ha b hb rfl
    obtain rfl : a = c.name := by simpa using hb
    exact hc ha

structure Config where
  projectName : Text
  crates : List CrateConfig
  workspaces : List (List CrateConfig)
  monorepoTagPrefix : Option Text
  npms : Option (List NpmConfig)
  pypis : Option (List PypiConfig)
  deriving DecidableEq, Repr

namespace Config

/-- The top-level crates and those of the workspaces, the first of each name. -/
def crateUniverse (config : Config) : Universe where
  crates := (config.crates ++ config.workspaces.flatten).foldl addCrate []
  distinct := by
    suffices key : ∀ l seen : List CrateConfig, (seen.map CrateConfig.name).Nodup →
        ((l.foldl addCrate seen).map CrateConfig.name).Nodup from key _ [] (by simp)
    intro l
    induction l with
    | nil => exact fun _ h => h
    | cons c l ih => exact fun seen h => ih _ (nodup_addCrate h c)

def primaryCrateName (config : Config) : Option Text :=
  config.crateUniverse.crates.head?.map CrateConfig.name

end Config

end Anodizer.Tag
