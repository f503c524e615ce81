import Mathlib.Data.List.Basic
import Mathlib.Tactic.Common

/-! # Publish evidence

What a publisher records about the work it committed. The typed payload is one
list of targets per publisher; a later run of the same release joins the lists
of two records of one kind and leaves records of different kinds apart.
-/

namespace Anodizer

/-- The field set the tap publishers share: a commit pushed to a repository. -/
structure TapTargetSnapshot where
  target : String
  repoUrl : String
  branch : Option String := none
  tokenEnvVar : Option String := none
  commit : Option String := none
  prUrl : Option String := none
  deriving DecidableEq, Repr

abbrev HomebrewTargetSnapshot := TapTargetSnapshot
abbrev ScoopTargetSnapshot := TapTargetSnapshot
abbrev NixTargetSnapshot := TapTargetSnapshot

structure WingetTargetSnapshot where
  target : String
  crateName : String
  packageId : String
  version : String
  upstreamOwner : String
  upstreamRepo : String
  forkOwner : String
  branch : String
  prUrl : Option String := none
  deriving DecidableEq, Repr

structure ChocolateyTargetSnapshot where
  target : String
  crateName : String
  packageId : String
  version : String
  deriving DecidableEq, Repr

structure KrewTargetSnapshot where
  target : String
  upstreamOwner : String
  upstreamRepo : String
  forkOwner : String
  branch : String
  tokenEnvVar : Option String := none
  prUrl : Option String := none
  deriving DecidableEq, Repr

structure AurTargetSnapshot where
  target : String
  gitUrl : String
  commit : Option String := none
  deriving DecidableEq, Repr

structure AurSourceTargetSnapshot where
  target : String
  package : String
  tag : String
  gitUrl : String
  deriving DecidableEq, Repr

inductive McpAuthMethod | none | github | githubOidc
  deriving DecidableEq, Repr

structure McpTargetSnapshot where
  target : String
  serverName : String
  registryUrl : String
  version : String
  authMethod : McpAuthMethod
  deriving DecidableEq, Repr

structure DockerhubTargetSnapshot where
  target : String
  repoUrl : String
  namespaceName : String
  name : String
  username : String
  secretEnvVar : String
  snapshotDescription : Option String := none
  snapshotFullDescription : Option String := none
  deriving DecidableEq, Repr

/-- One crate whose `cargo publish` succeeded during a run. -/
structure CargoYankTargetSnapshot where
  name : String
  version : String
  registry : Option String := none
  index : Option String := none
  deriving DecidableEq, Repr

structure ArtifactoryTargetSnapshot where
  entry : String
  url : String
  deriving DecidableEq, Repr

structure CloudsmithTargetSnapshot where
  org : String
  repo : String
  filename : String
  slug : Option String := none
  deriving DecidableEq, Repr

/-- An object written to a bucket; `overwrote` says the key held one before the release. -/
structure BlobTargetSnapshot where
  provider : String
  bucket : String
  key : String
  region : Option String := none
  endpoint : Option String := none
  overwrote : Bool := false
  deriving DecidableEq, Repr

structure SnapcraftTargetSnapshot where
  crateName : String
  packageName : String
  channel : Option String := none
  arch : Option String := none
  revision : Option String := none
  version : Option String := none
  heldForReview : Bool := false
  deriving DecidableEq, Repr

structure GithubReleaseTargetSnapshot where
  crateName : String
  owner : String
  repo : String
  tag : String
  releaseId : Option Nat := none
  deriving DecidableEq, Repr

structure NpmTargetSnapshot where
  target : String
  package : String
  version : String
  registry : String
  distTag : String
  tokenEnvVar : String
  deriving DecidableEq, Repr

structure GemFuryTargetSnapshot where
  target : String
  account : String
  package : String
  version : String
  format : String
  pushTokenEnvVar : String
  apiTokenEnvVar : String
  deriving DecidableEq, Repr

structure PypiFileSnapshot where
  filename : String
  platformTag : String
  sha256 : String
  repository : String
  skippedExisting : Bool
  deriving DecidableEq, Repr

structure SchemastoreTargetSnapshot where
  upstreamOwner : String
  upstreamRepo : String
  forkOwner : String
  branch : String
  tokenEnvVar : Option String := none
  prUrl : Option String := none
  deriving DecidableEq, Repr

/-- Where a publisher's repository token came from. -/
inductive TokenSource
  | pullRequestField
  | repositoryField
  | envVar (name : String)
  | runToken
  deriving DecidableEq, Repr

structure HomebrewCoreTargetSnapshot where
  formula : String
  version : String
  upstreamOwner : String
  upstreamRepo : String
  headOwner : String
  branch : String
  directCommit : Bool
  prUrl : Option String := none
  tokenSource : Option TokenSource := none
  deriving DecidableEq, Repr

/-- The typed payload of an evidence record: one target list per publisher, or nothing. -/
inductive PublishEvidenceExtra
  | homebrew (homebrewTargets : List HomebrewTargetSnapshot)
  | scoop (scoopTargets : List ScoopTargetSnapshot)
  | nix (nixTargets : List NixTargetSnapshot)
  | winget (wingetTargets : List WingetTargetSnapshot)
  | chocolatey (chocolateyTargets : List ChocolateyTargetSnapshot)
  | krew (krewTargets : List KrewTargetSnapshot)
  | aur (aurOurTargets : List AurTargetSnapshot)
  | aurSource (aurSourceTargets : List AurSourceTargetSnapshot)
  | mcp (mcpTargets : List McpTargetSnapshot)
  | dockerhub (dockerhubTargets : List DockerhubTargetSnapshot)
  | cargo (cargoYankTargets : List CargoYankTargetSnapshot)
  | artifactory (artifactoryTargets : List ArtifactoryTargetSnapshot)
  | cloudsmith (cloudsmithTargets : List CloudsmithTargetSnapshot)
  | blob (blobTargets : List BlobTargetSnapshot)
  | snapcraft (snapcraftTargets : List SnapcraftTargetSnapshot)
  | githubRelease (githubReleaseTargets : List GithubReleaseTargetSnapshot)
  | npm (npmTargets : List NpmTargetSnapshot)
  | gemFury (gemfuryTargets : List GemFuryTargetSnapshot)
  | pypi (pypiFiles : List PypiFileSnapshot)
  | schemastore (schemastoreTargets : List SchemastoreTargetSnapshot)
  | homebrewCore (homebrewCoreTargets : List HomebrewCoreTargetSnapshot)
  | empty
  deriving DecidableEq, Repr

/-- The evidence a publisher run leaves in the report. -/
structure PublishEvidence where
  schemaVersion : Nat
  publisher : String
  primaryRef : Option String
  artifactPaths : List String
  artifactDigests : List (String × String)
  nondeterministic : Option String
  extra : PublishEvidenceExtra
  deriving DecidableEq, Repr

/-- Append to `into` every element of `new` it does not already hold. -/
def unionInto {α : Type*} [DecidableEq α] (into new : List α) : List α :=
  new.foldl (fun acc item => if item ∈ acc then acc else acc ++ [item]) into

namespace BlobTargetSnapshot

/-- The coordinates that say two snapshots are the same object. -/
def sameObject (a b : BlobTargetSnapshot) : Bool :=
  decide (a.provider = b.provider ∧ a.bucket = b.bucket ∧ a.key = b.key ∧
    a.region = b.region ∧ a.endpoint = b.endpoint)

/-- Fold one earlier object in: the earliest write saw whether the key existed before it. -/
def absorbOne (earlier : BlobTargetSnapshot) : List BlobTargetSnapshot → List BlobTargetSnapshot
  | [] => [earlier]
  | t :: ts =>
    if t.sameObject earlier then { t with overwrote := earlier.overwrote } :: ts
    else t :: absorbOne earlier ts

end BlobTargetSnapshot

namespace PublishEvidenceExtra

/-- Join the target lists of two payloads of one kind. -/
def absorb : PublishEvidenceExtra → PublishEvidenceExtra → Option PublishEvidenceExtra
  | .blob m, .blob t => some (.blob (t.foldl (fun acc e => e.absorbOne acc) m))
  | .homebrew m, .homebrew t => some (.homebrew (unionInto m t))
  | .scoop m, .scoop t => some (.scoop (unionInto m t))
  | .nix m, .nix t => some (.nix (unionInto m t))
  | .winget m, .winget t => some (.winget (unionInto m t))
  | .chocolatey m, .chocolatey t => some (.chocolatey (unionInto m t))
  | .krew m, .krew t => some (.krew (unionInto m t))
  | .aur m, .aur t => some (.aur (unionInto m t))
  | .aurSource m, .aurSource t => some (.aurSource (unionInto m t))
  | .mcp m, .mcp t => some (.mcp (unionInto m t))
  | .dockerhub m, .dockerhub t => some (.dockerhub (unionInto m t))
  | .cargo m, .cargo t => some (.cargo (unionInto m t))
  | .artifactory m, .artifactory t => some (.artifactory (unionInto m t))
  | .cloudsmith m, .cloudsmith t => some (.cloudsmith (unionInto m t))
  | .snapcraft m, .snapcraft t => some (.snapcraft (unionInto m t))
  | .githubRelease m, .githubRelease t => some (.githubRelease (unionInto m t))
  | .npm m, .npm t => some (.npm (unionInto m t))
  | .gemFury m, .gemFury t => some (.gemFury (unionInto m t))
  | .pypi m, .pypi t => some (.pypi (unionInto m t))
  | .schemastore m, .schemastore t => some (.schemastore (unionInto m t))
  | .homebrewCore m, .homebrewCore t => some (.homebrewCore (unionInto m t))
  | _, _ => none

end PublishEvidenceExtra

namespace PublishEvidence

def currentSchemaVersion : Nat := 2

/-- A fresh record of a publisher: no reference, no path, no target. -/
def new (publisher : String) : PublishEvidence where
  schemaVersion := currentSchemaVersion
  publisher := publisher
  primaryRef := none
  artifactPaths := []
  artifactDigests := []
  nondeterministic := none
  extra := .empty

/-- Whether the record names work the run committed, something a rollback could act on. -/
def recordsPublishedWork (e : PublishEvidence) : Bool :=
  match e.extra with
  | .empty => e.primaryRef.isSome || !e.artifactPaths.isEmpty
  | .homebrew x => !x.isEmpty
  | .scoop x => !x.isEmpty
  | .nix x => !x.isEmpty
  | .winget x => !x.isEmpty
  | .chocolatey x => !x.isEmpty
  | .krew x => !x.isEmpty
  | .aur x => !x.isEmpty
  | .aurSource x => !x.isEmpty
  | .mcp x => !x.isEmpty
  | .dockerhub x => !x.isEmpty
  | .cargo x => !x.isEmpty
  | .artifactory x => !x.isEmpty
  | .cloudsmith x => !x.isEmpty
  | .blob x => !x.isEmpty
  -- A snap entry with no revision was planned, never uploaded.
  | .snapcraft x => x.any (·.revision.isSome)
  | .githubRelease x => !x.isEmpty
  | .npm x => !x.isEmpty
  | .gemFury x => !x.isEmpty
  -- A file the index already held is not this run's work.
  | .pypi x => x.any (!·.skippedExisting)
  | .schemastore x => !x.isEmpty
  | .homebrewCore x => !x.isEmpty

/-- Fold an earlier record of the release into this one. `none` is the source's `false`:
the two cannot be combined and this record is left as it was. -/
def absorbPrior (e prior : PublishEvidence) : Option PublishEvidence :=
  if e = prior then some e
  else (e.extra.absorb prior.extra).map fun extra =>
    { e with
      extra
      artifactPaths := unionInto e.artifactPaths prior.artifactPaths
      primaryRef := if e.primaryRef.isNone then prior.primaryRef else e.primaryRef }

end PublishEvidence

/-- A published target by its identity: a blob is the object it names, whatever `overwrote`
says, and every other target is its whole snapshot. -/
inductive Target
  | homebrew (t : HomebrewTargetSnapshot)
  | scoop (t : ScoopTargetSnapshot)
  | nix (t : NixTargetSnapshot)
  | winget (t : WingetTargetSnapshot)
  | chocolatey (t : ChocolateyTargetSnapshot)
  | krew (t : KrewTargetSnapshot)
  | aur (t : AurTargetSnapshot)
  | aurSource (t : AurSourceTargetSnapshot)
  | mcp (t : McpTargetSnapshot)
  | dockerhub (t : DockerhubTargetSnapshot)
  | cargo (t : CargoYankTargetSnapshot)
  | artifactory (t : ArtifactoryTargetSnapshot)
  | cloudsmith (t : CloudsmithTargetSnapshot)
  | blob (provider bucket key : String) (region endpoint : Option String)
  | snapcraft (t : SnapcraftTargetSnapshot)
  | githubRelease (t : GithubReleaseTargetSnapshot)
  | npm (t : NpmTargetSnapshot)
  | gemFury (t : GemFuryTargetSnapshot)
  | pypi (t : PypiFileSnapshot)
  | schemastore (t : SchemastoreTargetSnapshot)
  | homebrewCore (t : HomebrewCoreTargetSnapshot)
  deriving DecidableEq, Repr

/-- The kind of payload that names the target. -/
def Target.kind : Target → Fin 21
  | .homebrew _ => 0
  | .scoop _ => 1
  | .nix _ => 2
  | .winget _ => 3
  | .chocolatey _ => 4
  | .krew _ => 5
  | .aur _ => 6
  | .aurSource _ => 7
  | .mcp _ => 8
  | .dockerhub _ => 9
  | .cargo _ => 10
  | .artifactory _ => 11
  | .cloudsmith _ => 12
  | .blob .. => 13
  | .snapcraft _ => 14
  | .githubRelease _ => 15
  | .npm _ => 16
  | .gemFury _ => 17
  | .pypi _ => 18
  | .schemastore _ => 19
  | .homebrewCore _ => 20

namespace BlobTargetSnapshot

/-- The object a snapshot names. -/
def target (t : BlobTargetSnapshot) : Target :=
  .blob t.provider t.bucket t.key t.region t.endpoint

theorem sameObject_iff {a b : BlobTargetSnapshot} : a.sameObject b ↔ a.target = b.target := by
  simp [sameObject, target]

theorem mem_absorbOne {earlier : BlobTargetSnapshot} {ts : List BlobTargetSnapshot} {x : Target} :
    x ∈ (earlier.absorbOne ts).map target ↔ x ∈ ts.map target ∨ x = earlier.target := by
  induction ts with
  | nil => simp [absorbOne]
  | cons t ts ih =>
    by_cases h : t.sameObject earlier
    · have he := sameObject_iff.mp h
      have hu : target { t with overwrote := earlier.overwrote } = earlier.target := he
      simp only [absorbOne, h, if_true, List.map_cons, List.mem_cons, hu, he]
      tauto
    · simp only [absorbOne, h, Bool.false_eq_true, if_false, List.map_cons, List.mem_cons, ih]
      tauto

theorem mem_absorbAll {ts ms : List BlobTargetSnapshot} {x : Target} :
    x ∈ (ts.foldl (fun acc e => e.absorbOne acc) ms).map target ↔
      x ∈ ms.map target ∨ x ∈ ts.map target := by
  induction ts generalizing ms with
  | nil => simp
  | cons t ts ih =>
    simp only [List.foldl_cons, ih, mem_absorbOne, List.map_cons, List.mem_cons]
    tauto

end BlobTargetSnapshot

@[simp] theorem mem_unionInto {α : Type*} [DecidableEq α] {into new : List α} {x : α} :
    x ∈ unionInto into new ↔ x ∈ into ∨ x ∈ new := by
  unfold unionInto
  induction new generalizing into with
  | nil => simp
  | cons a new ih =>
    rw [List.foldl_cons, ih]
    by_cases h : a ∈ into
    · simp only [h, if_true, List.mem_cons]
      constructor
      · tauto
      · rintro (hx | rfl | hx) <;> tauto
    · simp only [h, if_false, List.mem_append, List.mem_cons, List.not_mem_nil, or_false]
      tauto

namespace PublishEvidenceExtra

/-- The targets a payload names. -/
def targets : PublishEvidenceExtra → List Target
  | .homebrew x => x.map .homebrew
  | .scoop x => x.map .scoop
  | .nix x => x.map .nix
  | .winget x => x.map .winget
  | .chocolatey x => x.map .chocolatey
  | .krew x => x.map .krew
  | .aur x => x.map .aur
  | .aurSource x => x.map .aurSource
  | .mcp x => x.map .mcp
  | .dockerhub x => x.map .dockerhub
  | .cargo x => x.map .cargo
  | .artifactory x => x.map .artifactory
  | .cloudsmith x => x.map .cloudsmith
  | .blob x => x.map BlobTargetSnapshot.target
  | .snapcraft x => x.map .snapcraft
  | .githubRelease x => x.map .githubRelease
  | .npm x => x.map .npm
  | .gemFury x => x.map .gemFury
  | .pypi x => x.map .pypi
  | .schemastore x => x.map .schemastore
  | .homebrewCore x => x.map .homebrewCore
  | .empty => []

/-- The publisher kind of a typed payload; `none` for the empty one. -/
def kind : PublishEvidenceExtra → Option (Fin 21)
  | .homebrew _ => some 0
  | .scoop _ => some 1
  | .nix _ => some 2
  | .winget _ => some 3
  | .chocolatey _ => some 4
  | .krew _ => some 5
  | .aur _ => some 6
  | .aurSource _ => some 7
  | .mcp _ => some 8
  | .dockerhub _ => some 9
  | .cargo _ => some 10
  | .artifactory _ => some 11
  | .cloudsmith _ => some 12
  | .blob _ => some 13
  | .snapcraft _ => some 14
  | .githubRelease _ => some 15
  | .npm _ => some 16
  | .gemFury _ => some 17
  | .pypi _ => some 18
  | .schemastore _ => some 19
  | .homebrewCore _ => some 20
  | .empty => none

variable {m t e : PublishEvidenceExtra}

theorem mem_targets_absorb (h : m.absorb t = some e) {x : Target} :
    x ∈ e.targets ↔ x ∈ m.targets ∨ x ∈ t.targets := by
  unfold absorb at h
  split at h <;> cases h
  · exact BlobTargetSnapshot.mem_absorbAll
  all_goals
    simp only [targets, List.mem_map, mem_unionInto, or_and_right, exists_or]

theorem kind_absorb (h : m.absorb t = some e) : e.kind = m.kind ∧ m.kind = t.kind := by
  unfold absorb at h
  split at h <;> cases h <;> exact ⟨rfl, rfl⟩

theorem absorb_isSome_iff : (m.absorb t).isSome ↔ m.kind = t.kind ∧ m.kind ≠ none := by
  constructor
  · intro h
    obtain ⟨e, he⟩ := Option.isSome_iff_exists.mp h
    refine ⟨(kind_absorb he).2, ?_⟩
    unfold absorb at he
    split at he <;> cases he <;> simp [kind]
  · rintro ⟨hk, hn⟩
    cases m <;> cases t <;> first | rfl | simp [kind] at hk hn

/-- A target says which kind of payload names it. -/
theorem kind_of_mem_targets {x : Target} (h : x ∈ m.targets) : m.kind = some x.kind := by
  cases m <;> simp only [targets, List.mem_map, List.not_mem_nil] at h
  all_goals
    obtain ⟨_, _, rfl⟩ := h
    rfl

theorem targets_eq_nil_of_kind (h : m.kind = none) : m.targets = [] := by
  cases m <;> first | rfl | simp [kind] at h

end PublishEvidenceExtra

namespace PublishEvidence

variable {e prior joined : PublishEvidence}

/-- Joining a record keeps its own targets and takes in the earlier ones. -/
theorem mem_targets_absorbPrior (h : e.absorbPrior prior = some joined) {x : Target} :
    x ∈ joined.extra.targets ↔ x ∈ e.extra.targets ∨ x ∈ prior.extra.targets := by
  unfold absorbPrior at h
  split at h
  · rename_i he
    cases h; subst he; simp
  · obtain ⟨extra, hx, rfl⟩ := Option.map_eq_some_iff.mp h
    exact PublishEvidenceExtra.mem_targets_absorb hx

theorem kind_absorbPrior (h : e.absorbPrior prior = some joined) :
    joined.extra.kind = e.extra.kind ∧ e.extra.kind = prior.extra.kind := by
  unfold absorbPrior at h
  split at h
  · rename_i he
    cases h; subst he; exact ⟨rfl, rfl⟩
  · obtain ⟨extra, hx, rfl⟩ := Option.map_eq_some_iff.mp h
    exact PublishEvidenceExtra.kind_absorb hx

/-- Two records join exactly when they are equal or typed lists of one kind. -/
theorem absorbPrior_isSome_iff : (e.absorbPrior prior).isSome ↔
    e = prior ∨ e.extra.kind = prior.extra.kind ∧ e.extra.kind ≠ none := by
  unfold absorbPrior
  split
  · simp_all
  · rename_i h
    simp [h, PublishEvidenceExtra.absorb_isSome_iff]

/-- A join changes nothing about what else the record joins with. -/
theorem absorbPrior_isSome_join {q : PublishEvidence} (h : e.absorbPrior prior = some joined) :
    (joined.absorbPrior q).isSome ↔ (e.absorbPrior q).isSome := by
  obtain ⟨hk, _⟩ := kind_absorbPrior h
  rw [absorbPrior_isSome_iff, absorbPrior_isSome_iff, hk]
  by_cases hn : e.extra.kind = none
  · rcases absorbPrior_isSome_iff.mp (Option.isSome_of_eq_some h) with rfl | ⟨_, hn'⟩
    · obtain rfl : e = joined := by simpa [absorbPrior] using h
      rfl
    · exact absurd hn hn'
  · have hj : joined = q → joined.extra.kind = q.extra.kind := fun h => h ▸ rfl
    have he : e = q → e.extra.kind = q.extra.kind := fun h => h ▸ rfl
    rw [hk] at hj
    tauto

/-- Two typed records of one kind always join. -/
theorem absorbPrior_isSome (h : e.extra.kind = prior.extra.kind) (hn : e.extra.kind ≠ none) :
    (e.absorbPrior prior).isSome :=
  absorbPrior_isSome_iff.mpr (.inr ⟨h, hn⟩)

private theorem isEmpty_unionInto {α : Type*} [DecidableEq α] {a b : List α}
    (h : a.isEmpty = false) : (unionInto a b).isEmpty = false := by
  obtain ⟨x, hx⟩ := List.isEmpty_eq_false_iff_exists_mem.mp h
  exact List.isEmpty_eq_false_iff_exists_mem.mpr ⟨x, mem_unionInto.mpr (.inl hx)⟩

private theorem any_unionInto {α : Type*} [DecidableEq α] {a b : List α} {p : α → Bool}
    (h : a.any p = true) : (unionInto a b).any p = true := by
  obtain ⟨x, hx, hp⟩ := List.any_eq_true.mp h
  exact List.any_eq_true.mpr ⟨x, mem_unionInto.mpr (.inl hx), hp⟩

private theorem isEmpty_absorbAll {ts ms : List BlobTargetSnapshot} (h : ms.isEmpty = false) :
    (ts.foldl (fun acc e => e.absorbOne acc) ms).isEmpty = false := by
  obtain ⟨x, hx⟩ := List.isEmpty_eq_false_iff_exists_mem.mp h
  have hm : x.target ∈ (ts.foldl (fun acc e => e.absorbOne acc) ms).map
      BlobTargetSnapshot.target :=
    BlobTargetSnapshot.mem_absorbAll.mpr (.inl (List.mem_map_of_mem hx))
  obtain ⟨y, hy, _⟩ := List.mem_map.mp hm
  exact List.isEmpty_eq_false_iff_exists_mem.mpr ⟨y, hy⟩

/-- A record that names work still names work after a join. -/
theorem recordsPublishedWork_absorbPrior (h : e.absorbPrior prior = some joined)
    (hw : e.recordsPublishedWork) : joined.recordsPublishedWork := by
  unfold absorbPrior at h
  split at h
  · cases h; exact hw
  obtain ⟨extra, hx, rfl⟩ := Option.map_eq_some_iff.mp h
  obtain ⟨_, _, _, _, _, _, mine⟩ := e
  simp only [recordsPublishedWork] at hw hx ⊢
  unfold PublishEvidenceExtra.absorb at hx
  split at hx <;> cases hx
  · simpa using isEmpty_absorbAll (by simpa using hw)
  all_goals first
    | exact any_unionInto hw
    | simpa using isEmpty_unionInto (by simpa using hw)

end PublishEvidence

end Anodizer
