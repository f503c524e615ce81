import Anodizer.Lib.KeyGroups
import Anodizer.Tag.Config

/-! # The shape of a repository

Crates that are tagged together form a group. The workspaces of the
configuration are groups as they stand, and the other crates are grouped by
the prefix that their templates spell.
-/

namespace Anodizer.Tag

open Template (Text)
open Git

inductive RepoShape
  | single
  | lockstep
  | flatAggregate (crates : List CrateConfig)
  | perCrate (groups : List (List CrateConfig))
  deriving DecidableEq, Repr

/-- The prefix that the template of a crate spells, if it has one. -/
def explicitPrefix (c : CrateConfig) : Option Text := extractTagPrefix (c.tagTemplate.getD [])

def prefixGroups (crates : List CrateConfig) : List (List CrateConfig) :=
  KeyGroups.groups explicitPrefix crates

def inWorkspace (config : Config) (c : CrateConfig) : Bool :=
  config.workspaces.any (·.any (·.name = c.name))

def addLeftover (config : Config) (out : List CrateConfig) (c : CrateConfig) : List CrateConfig :=
  if inWorkspace config c || out.any (·.name = c.name) then out else out ++ [c]

/-- The top-level crates that are in no workspace, the first of each name. -/
def leftoverTopLevelCrates (config : Config) : List CrateConfig :=
  config.crates.foldl (addLeftover config) []

def detectRepoShape (config : Config) (lockstep : Bool) : RepoShape :=
  if config.workspaces ≠ [] then
    .perCrate (config.workspaces ++ prefixGroups (leftoverTopLevelCrates config))
  else if lockstep then .lockstep
  else if 1 < config.crates.length then
    let groups := prefixGroups config.crates
    if groups.length = 1 then .flatAggregate config.crates else .perCrate groups
  else .single

/-- The groups that are tagged each on its own. -/
def RepoShape.groups : RepoShape → List (List CrateConfig)
  | perCrate groups => groups
  | flatAggregate crates => [crates]
  | single | lockstep => []

/-! ### Coherence -/

/-- Crates that share a prefix and have different versions. -/
structure Incoherence where
  versions : List (Text × Text)
  tagPrefix : Text
  repoTagPrefix : Option Text
  deriving DecidableEq, Repr

def sharedTagPrefix : List CrateConfig → Option Text
  | [] => none
  | c :: cs =>
    (explicitPrefix c).filter fun first => cs.all fun d => decide (explicitPrefix d = some first)

def defaultTagPrefix : Text := ['v']

section Guard

variable (manifestVersion : Text → Option Text) (repoTagPrefix : Option Text)

/-- The versions that the manifests spell must agree. -/
def checkSharedPrefixVersionCoherence (crates : List CrateConfig) : Except Incoherence Unit :=
  let versions := crates.filterMap fun c => (manifestVersion c.path).map fun v => (c.name, v)
  if versions.any (fun nv => some nv.2 ≠ versions.head?.map (·.2)) then
    .error ⟨versions, (sharedTagPrefix crates).getD defaultTagPrefix, repoTagPrefix⟩
  else .ok ()

/-- The crates whose prefixes decide the groups. -/
def topLevelCrates (config : Config) : List CrateConfig :=
  if config.workspaces ≠ [] then leftoverTopLevelCrates config else config.crates

def guardFlatAggregateCoherence (config : Config) (lockstep : Bool) : Except Incoherence Unit :=
  match detectRepoShape config lockstep with
  | .flatAggregate crates => checkSharedPrefixVersionCoherence manifestVersion repoTagPrefix crates
  | .perCrate _ => (prefixGroups (topLevelCrates config)).forM fun group =>
      if 1 < group.length then checkSharedPrefixVersionCoherence manifestVersion repoTagPrefix group
      else .ok ()
  | .single | .lockstep => .ok ()

end Guard

/-! ### The groups of the top-level crates -/

variable {config : Config} {lockstep : Bool} {c d : CrateConfig} {g g' : List CrateConfig}

theorem not_inWorkspace (hc : c ∈ leftoverTopLevelCrates config) : inWorkspace config c = false := by
  suffices hrun : ∀ l out : List CrateConfig, (∀ c ∈ out, inWorkspace config c = false) →
      ∀ c ∈ l.foldl (addLeftover config) out, inWorkspace config c = false from
    hrun config.crates [] (by simp) c hc
  intro l
  induction l with
  | nil => exact fun _ h => h
  | cons d l ih =>
    intro out hout
    apply ih
    unfold addLeftover
    split
    · exact hout
    · next hd =>
      intro c hc
      rcases List.mem_append.mp hc with hc | hc
      · exact hout c hc
      · rw [List.mem_singleton.mp hc]
        exact (Bool.or_eq_false_iff.mp (Bool.eq_false_iff.mpr hd)).1

theorem not_mem_workspaces (hc : c ∈ leftoverTopLevelCrates config) (hg : g ∈ config.workspaces) :
    c ∉ g := by
  intro hmem
  have hnone := not_inWorkspace hc
  rw [inWorkspace, List.any_eq_false] at hnone
  exact hnone g hg (List.any_eq_true.mpr ⟨c, hmem, by simp⟩)

/-- Top-level crates that spell one prefix are in one group. -/
theorem groups_topLevel {k : Text} (hg : g ∈ (detectRepoShape config lockstep).groups)
    (hg' : g' ∈ (detectRepoShape config lockstep).groups) (hc : c ∈ g) (hd : d ∈ g')
    (htop : c ∈ topLevelCrates config) (htop' : d ∈ topLevelCrates config)
    (hk : explicitPrefix c = some k) (hk' : explicitPrefix d = some k) : g = g' := by
  unfold detectRepoShape at hg hg'
  unfold topLevelCrates at htop htop'
  split at hg
  · next hw =>
    rw [if_pos hw] at hg' htop htop'
    have hleft : ∀ {c : CrateConfig} {g}, c ∈ leftoverTopLevelCrates config → c ∈ g →
        g ∈ config.workspaces ++ prefixGroups (leftoverTopLevelCrates config) →
        g ∈ prefixGroups (leftoverTopLevelCrates config) := fun hc hmem hg =>
      (List.mem_append.mp hg).resolve_left fun hw => not_mem_workspaces hc hw hmem
    exact KeyGroups.group_unique (hleft htop hc hg) (hleft htop' hd hg') hc hd hk hk'
  · next hw =>
    rw [if_neg hw] at hg'
    split at hg
    · exact absurd hg (by simp [RepoShape.groups])
    · next hl =>
      rw [if_neg hl] at hg'
      split at hg
      · next hlen =>
        rw [if_pos hlen] at hg'
        simp only at hg hg'
        split at hg
        · next hone =>
          rw [if_pos hone] at hg'
          rw [List.mem_singleton.mp hg, List.mem_singleton.mp hg']
        · next hone =>
          rw [if_neg hone] at hg'
          exact KeyGroups.group_unique hg hg' hc hd hk hk'
      · exact absurd hg (by simp [RepoShape.groups])

end Anodizer.Tag
