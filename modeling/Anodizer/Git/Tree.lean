import Mathlib.Data.List.Dedup
import Anodizer.Template.StringLit

/-! # Trees

A tree holds the content of each path. Two trees differ in some paths, and the
change between two of them is carried over to a third path by path.
-/

namespace Anodizer.Git

open Template (Text)

/-- The content of each path. -/
abbrev Tree := List (Text × Text)

/-- The paths whose content differs. -/
def diffNames (old new : Tree) : List Text :=
  ((old ++ new).map (·.1)).filter fun f => old.lookup f ≠ new.lookup f

theorem mem_diffNames {old new : Tree} {f : Text} :
    f ∈ diffNames old new ↔ old.lookup f ≠ new.lookup f := by
  simp only [diffNames, List.mem_filter, decide_eq_true_eq, and_iff_right_iff_imp]
  intro h
  by_contra hmem
  have hnone : ∀ l ⊆ old ++ new, l.lookup f = none := by
    intro l hl
    refine List.lookup_eq_none_iff.mpr fun p hp => bne_iff_ne.mpr fun heq => hmem ?_
    exact List.mem_map.mpr ⟨p, hl hp, heq.symm⟩
  exact h (by rw [hnone _ (List.subset_append_left _ _), hnone _ (List.subset_append_right _ _)])

/-- Merge the contents of two files changed in different ways, unless they clash. -/
abbrev MergeFile := Text → Text → Text → Option Text

/-- The content of a path in a three-way merge, unless it is a conflict. -/
def mergePath (mergeFile : MergeFile) (base ours theirs : Option Text) : Option (Option Text) :=
  if base = theirs then some ours
  else if base = ours then some theirs
  else if ours = theirs then some ours
  else match base, ours, theirs with
    | some b, some o, some t => (mergeFile b o t).map some
    | _, _, _ => none

/-- The three-way merge of trees. -/
def mergeTree (mergeFile : MergeFile) (base ours theirs : Tree) : Option Tree := do
  let merged ← ((base ++ ours ++ theirs).map (·.1)).dedup.mapM fun f =>
    (mergePath mergeFile (base.lookup f) (ours.lookup f) (theirs.lookup f)).map fun content =>
      (f, content)
  return merged.filterMap fun (f, content) => content.map fun c => (f, c)

end Anodizer.Git
