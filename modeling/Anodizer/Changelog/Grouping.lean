import Anodizer.Changelog.Subsection
import Anodizer.Lib.Partition
import Anodizer.Lib.Traverse

/-! # Grouping commits

Commits are put into the groups that match them, and those of a group into its subgroups. A group
that has subgroups with anything in them keeps no commits of its own.
-/

namespace Anodizer.Changelog.Grouping

open Template (Text)
open Partition

structure CommitInfo where
  rawMessage : Text
  description : Text
  hash : Text
  fullHash : Text
  authorName : Text
  authorEmail : Text
  login : Text
  coAuthors : List Text
  deriving DecidableEq, Repr

/-- A configured group and the groups in it. -/
inductive GroupConfig
  | mk (group : ChangelogGroup) (groups : List GroupConfig)

namespace GroupConfig

def group : GroupConfig → ChangelogGroup
  | mk group _ => group

def groups : GroupConfig → List GroupConfig
  | mk _ groups => groups

end GroupConfig

inductive GroupedCommits
  | mk (title : Text) (commits : List CommitInfo) (subgroups : List GroupedCommits)

namespace GroupedCommits

def title : GroupedCommits → Text
  | mk title _ _ => title

def commits : GroupedCommits → List CommitInfo
  | mk _ commits _ => commits

def subgroups : GroupedCommits → List GroupedCommits
  | mk _ _ subgroups => subgroups

end GroupedCommits

mutual

/-- The commits under a heading, those of its subgroups included. -/
def GroupedCommits.all : GroupedCommits → List CommitInfo
  | .mk _ commits subgroups => commits ++ allCommits subgroups

def allCommits : List GroupedCommits → List CommitInfo
  | [] => []
  | g :: gs => g.all ++ allCommits gs

end

theorem allCommits_eq_flatMap (tree : List GroupedCommits) :
    allCommits tree = tree.flatMap GroupedCommits.all := by
  induction tree with
  | nil => rfl
  | cons g gs ih => rw [allCommits, ih, List.flatMap_cons]

mutual

def GroupedCommits.commitCount : GroupedCommits → ℕ
  | .mk _ commits subgroups => commits.length + groupTreeCommitCount subgroups

def groupTreeCommitCount : List GroupedCommits → ℕ
  | [] => 0
  | g :: gs => g.commitCount + groupTreeCommitCount gs

end

/-! ### Grouping -/

section Groups

variable (regex : Text → Except Text (Text → Bool))

def compileTree (groups : List GroupConfig) : Except PromoteError (List Compiled) :=
  compileGroupRegexes regex (groups.map (·.group))

/-- The commits of each group: those it is the first to match, or those that none matches. -/
def commitBucket (compiled : List Compiled) (commits : List CommitInfo) (i : ℕ) : List CommitInfo :=
  bucket (fun c : CommitInfo => classify compiled c.rawMessage) commits i

/-- The key of a group without an order. -/
def maxOrder : ℤ := 2147483647

/-- A group with its commits and its order key, unless there is nothing to show. -/
def groupNode (recurse : List CommitInfo → List GroupConfig → Except PromoteError (List GroupedCommits))
    (bucket : List CommitInfo) (g : GroupConfig) : Except PromoteError (Option (ℤ × GroupedCommits)) :=
  if bucket = [] ∧ g.groups.isEmpty then .ok none
  else
    (if g.groups.isEmpty then .ok [] else recurse bucket g.groups).map fun subgroups =>
      let ownCommits := if subgroups.isEmpty then bucket else []
      some (g.group.order.getD maxOrder, .mk g.group.title ownCommits subgroups)

/-- The groups for display, by their order keys. -/
def displayed (nodes : List (Option (ℤ × GroupedCommits))) : List GroupedCommits :=
  (nodes.reduceOption.mergeSort fun a b => a.1 ≤ b.1).map (·.2)

/-- The groups at one level, with at most so many levels below. -/
def groupCommitsInner : ℕ → List CommitInfo → List GroupConfig →
    Except PromoteError (List GroupedCommits)
  | 0, commits, _ => .ok (if commits = [] then [] else [.mk "Others".toList commits []])
  | levels + 1, commits, groups => do
    let compiled ← compileTree regex groups
    let nodes ← groups.zipIdx.mapM fun gi =>
      groupNode (groupCommitsInner levels) (commitBucket compiled commits gi.2) gi.1
    .ok (displayed nodes)

/-- Headings go down to the sixth level. -/
def maxLevels : ℕ := 6

def groupCommits (commits : List CommitInfo) (groups : List GroupConfig) :
    Except PromoteError (List GroupedCommits) :=
  groupCommitsInner regex maxLevels commits groups

end Groups

/-! ### The nodes of one level -/

section Nodes

variable {regex : Text → Except Text (Text → Bool)} {levels : ℕ} {commits : List CommitInfo}
  {groups : List GroupConfig} {tree : List GroupedCommits}
  {nodes : List (Option (ℤ × GroupedCommits))}

/-- The commits of a node that may be missing. -/
def nodeCommits (node : Option (ℤ × GroupedCommits)) : List CommitInfo :=
  (node.map (·.2.all)).getD []

theorem displayed_perm (nodes : List (Option (ℤ × GroupedCommits))) :
    (displayed nodes).Perm (nodes.reduceOption.map (·.2)) :=
  (List.mergeSort_perm ..).map _

theorem allCommits_perm {tree' : List GroupedCommits} (h : tree.Perm tree') :
    (allCommits tree).Perm (allCommits tree') := by
  rw [allCommits_eq_flatMap, allCommits_eq_flatMap]
  exact h.flatMap_right _

/-- The tree holds the commits of the nodes. -/
theorem allCommits_displayed (nodes : List (Option (ℤ × GroupedCommits))) :
    (allCommits (displayed nodes)).Perm (nodes.map nodeCommits).flatten := by
  refine (allCommits_perm (displayed_perm nodes)).trans (.of_eq ?_)
  rw [allCommits_eq_flatMap]
  induction nodes with
  | nil => rfl
  | cons node nodes ih =>
    cases node with
    | none => exact ih
    | some node =>
      rw [List.reduceOption_cons_of_some, List.map_cons, List.flatMap_cons, ih]
      rfl

/-- What a node holds of the commits of its group. -/
inductive IsNode (recurse : List CommitInfo → List GroupConfig →
    Except PromoteError (List GroupedCommits)) (bucket : List CommitInfo) (g : GroupConfig) :
    Option (ℤ × GroupedCommits) → Prop
  | absent : bucket = [] → g.groups = [] → IsNode recurse bucket g none
  | own (k : ℤ) : bucket ≠ [] → g.groups = [] →
    IsNode recurse bucket g (some (k, .mk g.group.title bucket []))
  | kept (k : ℤ) : g.groups ≠ [] → recurse bucket g.groups = .ok [] →
    IsNode recurse bucket g (some (k, .mk g.group.title bucket []))
  | split (k : ℤ) (subgroups : List GroupedCommits) : g.groups ≠ [] →
    recurse bucket g.groups = .ok subgroups → subgroups ≠ [] →
    IsNode recurse bucket g (some (k, .mk g.group.title [] subgroups))

theorem isNode_of_groupNode {recurse : List CommitInfo → List GroupConfig →
    Except PromoteError (List GroupedCommits)} {bucket : List CommitInfo} {g : GroupConfig}
    {node : Option (ℤ × GroupedCommits)} (h : groupNode recurse bucket g = .ok node) :
    IsNode recurse bucket g node := by
  rw [groupNode] at h
  split at h
  · next hempty =>
    obtain rfl := Except.ok.inj h
    exact .absent hempty.1 (List.isEmpty_iff.mp hempty.2)
  · next hempty =>
    by_cases hgroups : g.groups = []
    · have hbucket : bucket ≠ [] := fun hb => hempty ⟨hb, List.isEmpty_iff.mpr hgroups⟩
      rw [if_pos (List.isEmpty_iff.mpr hgroups)] at h
      obtain rfl := Except.ok.inj h
      exact .own _ hbucket hgroups
    · rw [if_neg (by simpa using hgroups)] at h
      cases hsub : recurse bucket g.groups with
      | error e =>
        rw [hsub] at h
        cases h
      | ok subgroups =>
        rw [hsub] at h
        obtain rfl := Except.ok.inj h
        cases subgroups with
        | nil => exact .kept _ hgroups hsub
        | cons s subgroups => exact .split _ _ hgroups hsub (by simp)

/-- The groups of a level, with the nodes they were built from. -/
theorem groupCommitsInner_succ (h : groupCommitsInner regex (levels + 1) commits groups = .ok tree) :
    ∃ compiled nodes, compileTree regex groups = .ok compiled ∧ tree = displayed nodes ∧
      List.Forall₂ (fun gi node => IsNode (groupCommitsInner regex levels)
        (commitBucket compiled commits gi.2) gi.1 node) groups.zipIdx nodes := by
  obtain ⟨compiled, hcompiled, h⟩ := Traverse.bind_eq_ok.mp h
  obtain ⟨nodes, hnodes, h⟩ := Traverse.bind_eq_ok.mp h
  refine ⟨compiled, nodes, hcompiled, (Except.ok.inj h).symm, ?_⟩
  have hmap := Traverse.mapM_eq_ok.mp hnodes
  rw [← List.forall₂_eq_eq_eq, List.forall₂_map_left_iff, List.forall₂_map_right_iff] at hmap
  exact hmap.imp fun gi node hnode => isNode_of_groupNode hnode

end Nodes

end Anodizer.Changelog.Grouping
