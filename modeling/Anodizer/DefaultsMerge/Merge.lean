import Anodizer.Lib.Overlay
import Anodizer.Template.StringLit

/-! # Folding the defaults into a configuration

A block of the configuration is its serialized form. The defaults block is
folded into every crate and into the blocks above the crates.
-/

namespace Anodizer.DefaultsMerge

open Template (Text)

/-- A value of JSON that is no array and no object. -/
inductive Scalar
  | bool (b : Bool)
  | number (digits : Text)
  | string (s : Text)

abbrev Json := Overlay.Doc Text Scalar

namespace Json

def field (value : Json) (key : Text) : Json :=
  match value with
  | .node fields => fields key
  | _ => .unset

def string? : Json → Option Text
  | .leaf (.string s) => some s
  | _ => none

/-- The first entry of a list of strings. -/
def firstString? : Json → Option Text
  | .list (entry :: _) => string? entry
  | _ => none

/-- The string field of a block. -/
def stringField (value : Json) (key : Text) : Option Text := string? (field value key)

end Json

/-! ### Blocks -/

inductive ListField
  | nfpms | snapcrafts | dmgs | pkgs | msis | nsis | appBundles | flatpaks | dockersV2
  deriving DecidableEq, Repr

inductive Publisher
  | homebrew | homebrewCask | cargo | scoop | winget | chocolatey | krew | nix | aur | aurSource
  deriving DecidableEq, Repr

/-- The single blocks above the crates. -/
inductive TopBlock
  | source | notarize | srpms
  deriving DecidableEq, Repr

/-- The lists above the crates that take one entry from the defaults. -/
inductive TopList
  | upx | signs | binarySigns | sboms | makeselfs | installScripts | dockerSigns
  deriving DecidableEq, Repr

inductive BlockKind
  | checksum | archive | build
  | entry (f : ListField)
  | publisher (p : Publisher)
  | top (b : TopBlock)
  deriving DecidableEq, Repr

inductive ArchivesConfig
  | disabled
  | configs (list : List Json)

structure PublishConfig where
  publishers : Publisher → Option Json
  onError : Option (List Json)
  onRollback : Option (List Json)

def PublishConfig.default : PublishConfig := ⟨fun _ => none, none, none⟩

abbrev PublishDefaults := PublishConfig

@[ext] structure CrateConfig where
  cross : Option Json
  tagTemplate : Option Text
  versionFiles : Option (List Json)
  checksum : Option Json
  archives : ArchivesConfig
  lists : ListField → Option (List Json)
  builds : Option (List Json)
  publish : Option PublishConfig

structure Defaults where
  cross : Option Json
  tagTemplate : Option Text
  versionFiles : Option (List Json)
  checksum : Option Json
  archives : Option Json
  lists : ListField → Option Json
  builds : Option Json
  publish : Option PublishDefaults
  blocks : TopBlock → Option Json
  topLists : TopList → Option Json

structure WorkspaceConfig where
  crates : List CrateConfig

@[ext] structure Config where
  defaults : Option Defaults
  crates : List CrateConfig
  workspaces : Option (List WorkspaceConfig)
  blocks : TopBlock → Option Json
  topLists : TopList → Option (List Json)
  filledFromDefaults : TopList → Bool

/-! ### Skipped blocks -/

def isTrueSpelling (s : Text) : Bool :=
  (Template.trim s).map Char.toLower ∈ ["true".toList, "1".toList]

def isSkipped (value : Json) : Bool :=
  match Json.field value "skip".toList with
  | .leaf (.bool b) => b
  | .leaf (.string s) => isTrueSpelling s
  | _ => false

/-! ### Merging -/

section Merge

-- the values that deserialize to a block of the kind
variable (accepts : BlockKind → Json → Bool)

/-- A merged value that does not deserialize is dropped. -/
def deepMergeStructInplace (kind : BlockKind) (target defaults : Json) : Json :=
  let merged := target.overlay defaults
  if accepts kind merged then merged else target

def deepMergeOption (kind : BlockKind) (target defaults : Option Json) : Option Json :=
  match defaults with
  | none => target
  | some d =>
    match target with
    | none => some d
    | some t => if isSkipped t then some t else some (deepMergeStructInplace accepts kind t d)

def identityMatches (a b : Option Text) : Bool :=
  match a, b with
  | some x, some y => x = y
  | _, _ => false

/-- The list with the defaults entry merged into the first entry of its identity. -/
def mergeFirst (kind : BlockKind) (identity : Json → Option Text) (d : Json) :
    List Json → Option (List Json)
  | [] => none
  | e :: list =>
    if identityMatches (identity e) (identity d) then
      some ((if isSkipped e then e else deepMergeStructInplace accepts kind e d) :: list)
    else (mergeFirst kind identity d list).map (e :: ·)

def mergeOneIntoList (kind : BlockKind) (identity : Json → Option Text) (list : List Json)
    (d : Json) : List Json :=
  match list with
  | [] => [d]
  | list => (mergeFirst accepts kind identity d list).getD (list ++ [d])

def archiveIdentity (a : Json) : Option Text :=
  Json.firstString? (Json.field a "formats".toList)

def mergeArchives (target : ArchivesConfig) (defaults : Option Json) : ArchivesConfig :=
  match defaults with
  | none => target
  | some d =>
    match target with
    | .disabled => .disabled
    | .configs list => .configs (mergeOneIntoList accepts .archive archiveIdentity list d)

def idOf (c : Json) : Option Text := Json.stringField c "id".toList

def nfpmIdentity (c : Json) : Option Text :=
  (idOf c).or (Json.stringField c "package_name".toList)

def snapcraftIdentity (c : Json) : Option Text := Json.stringField c "name".toList

def identity : ListField → Json → Option Text
  | .nfpms => nfpmIdentity
  | .snapcrafts => snapcraftIdentity
  | .dmgs | .pkgs | .msis | .nsis | .appBundles | .flatpaks | .dockersV2 => idOf

def mergeListByIdentity (f : ListField) (target : Option (List Json)) (defaults : Option Json) :
    Option (List Json) :=
  match defaults with
  | none => target
  | some d =>
    match target with
    | none => some [d]
    | some list => some (mergeOneIntoList accepts (.entry f) (identity f) list d)

def mergeAppendList (target defaults : Option (List Json)) : Option (List Json) :=
  match defaults with
  | none => target
  | some items =>
    match target with
    | none => some items
    | some existing => some (existing ++ items)

def mergePublishDefaults (target : PublishConfig) (defaults : PublishDefaults) : PublishConfig where
  publishers p := deepMergeOption accepts (.publisher p) (target.publishers p) (defaults.publishers p)
  onError := mergeAppendList target.onError defaults.onError
  onRollback := mergeAppendList target.onRollback defaults.onRollback

/-- The template is merged into every build, or becomes the one build. -/
def mergeBuilds (target : Option (List Json)) (defaults : Option Json) : Option (List Json) :=
  match defaults with
  | none => target
  | some tpl =>
    match target.getD [] with
    | [] => some [tpl]
    | list => some (list.map fun entry => deepMergeStructInplace accepts .build entry tpl)

/-- An empty template counts as unset. -/
def fillTagTemplate (target defaults : Option Text) : Option Text :=
  if target.getD [] = [] then defaults.or target else target

def applyToCrate (d : Defaults) (c : CrateConfig) : CrateConfig where
  cross := c.cross.or d.cross
  tagTemplate := fillTagTemplate c.tagTemplate d.tagTemplate
  versionFiles := c.versionFiles.or d.versionFiles
  checksum := deepMergeOption accepts .checksum c.checksum d.checksum
  archives := mergeArchives accepts c.archives d.archives
  lists f := mergeListByIdentity accepts f (c.lists f) (d.lists f)
  builds := mergeBuilds accepts c.builds d.builds
  publish :=
    match d.publish with
    | none => c.publish
    | some pubd => some (mergePublishDefaults accepts (c.publish.getD .default) pubd)

/-- An empty list takes the defaults entry. -/
def fillTopList (list : Option (List Json)) (defaults : Option Json) : Option (List Json) :=
  match defaults with
  | some d => if (list.getD []).isEmpty then some [d] else list
  | none => list

def TopList.isSignSlice (f : TopList) : Bool := f ∈ [.signs, .binarySigns, .dockerSigns]

def applyTopLevelDefaults (config : Config) (d : Defaults) : Config :=
  { config with
    blocks := fun b => deepMergeOption accepts (.top b) (config.blocks b) (d.blocks b)
    topLists := fun f => fillTopList (config.topLists f) (d.topLists f)
    filledFromDefaults := fun f => config.filledFromDefaults f ||
      f.isSignSlice && ((config.topLists f).getD []).isEmpty && (d.topLists f).isSome }

def applyDefaults (config : Config) : Config :=
  match config.defaults with
  | none => config
  | some d =>
    applyTopLevelDefaults accepts
      { config with
        crates := config.crates.map (applyToCrate accepts d)
        workspaces := config.workspaces.map fun list =>
          list.map fun ws => ⟨ws.crates.map (applyToCrate accepts d)⟩ } d

end Merge

end Anodizer.DefaultsMerge
