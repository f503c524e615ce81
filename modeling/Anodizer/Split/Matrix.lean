import Anodizer.Lib.FirstOfEach
import Anodizer.Publish.Report
import Anodizer.Split.Target

/-! # The matrix of a split build

A split build writes the keys of its workers into a matrix. The merge compares
them with the keys of the shards it finds.
-/

namespace Anodizer.Split

open Template (Text contains)
open FirstOfEach

/-! ### The matrix -/

def matrixKey (target splitBy : Text) : Text :=
  if splitBy = "os".toList then (mapTarget target).1 else target

structure MatrixEntry where
  target : Text
  runner : Text
  deriving DecidableEq, Repr

structure SplitMatrix where
  splitBy : Text
  entries : List MatrixEntry
  deriving DecidableEq, Repr

def buildMatrix (targets : List Text) (splitBy : Text) : SplitMatrix where
  splitBy := splitBy
  entries := (firstOfEach (matrixKey · splitBy) [] targets).map fun t =>
    ⟨matrixKey t splitBy, suggestRunner (mapTarget t).1⟩

/-! ### The check -/

/-- What the check reads of an artifact. -/
structure SplitArtifact where
  target : Option Text
  deriving DecidableEq, Repr

/-- What the check reads of a shard. -/
structure SplitContext where
  partialTarget : Text
  artifacts : List SplitArtifact
  deriving DecidableEq, Repr

/-- The elements of a set, in order. -/
def ordered (l : List Text) : List Text := l.dedup.mergeSort fun a b => decide (a ≤ b)

/-- The keys a shard covers by its own identity. -/
def shardIdentityKeys (partialTarget splitBy : Text) (expected : List Text) : List Text :=
  let own := matrixKey partialTarget splitBy
  if splitBy = "os".toList || own ∈ expected then [own]
  else
    match PartialTarget.fromDistSubdir partialTarget with
    | .osArch os arch =>
      let covered := (PartialTarget.osArch os arch).filterTargets expected
      if covered = [] then [own] else covered
    | _ => [own]

structure WorkerMismatch where
  expected : ℕ
  got : ℕ
  missing : List Text
  surplus : List Text
  deriving DecidableEq, Repr

namespace WorkerMismatch

def message (e : WorkerMismatch) (matrixPath : Text) : Text :=
  "merge: split-worker manifest mismatch (expected ".toList ++
    (countNoun e.expected "worker" "workers").toList ++ " from ".toList ++ matrixPath ++
    ", got ".toList ++ (toString e.got).toList ++ ")".toList ++
    (if e.missing = [] then [] else
      ".\n  missing context.json from ".toList ++
        (countNoun e.missing.length "worker" "workers").toList ++ ": ".toList ++
        List.intercalate ", ".toList e.missing ++
        (".\n  Each missing worker corresponds to a split-build job that did " ++
          "not write `dist/<target>/context.json` — typically a CI runner that " ++
          "was cancelled, ran out of disk, or hit a transient build failure. " ++
          "Re-run those workers, or pass `--skip <stage>` to merge a " ++
          "deliberately-incomplete release.").toList) ++
    (if e.surplus = [] then [] else
      ".\n  unexpected context.json from ".toList ++
        (countNoun e.surplus.length "worker" "workers").toList ++ " not in matrix: ".toList ++
        List.intercalate ", ".toList e.surplus ++
        (".\n  These contexts are likely left over from an earlier split " ++
          "run; clean `dist/` (or pass --clean on the next `release --split`) " ++
          "before retrying.").toList)

end WorkerMismatch

/-- The keys of the shards have to be the keys of the matrix, if there is one. -/
def checkSplitWorkerCompleteness (matrix : Option SplitMatrix) (contexts : List SplitContext) :
    Except WorkerMismatch Unit :=
  match matrix with
  | none => .ok ()
  | some m =>
    let expected := ordered (m.entries.map (·.target))
    let got := ordered (contexts.flatMap fun c =>
      (c.artifacts.filterMap (·.target)).map (matrixKey · m.splitBy) ++
        shardIdentityKeys c.partialTarget m.splitBy expected)
    let missing := expected.filter (· ∉ got)
    let surplus := got.filter (· ∉ expected)
    if missing = [] && surplus = [] then .ok ()
    else .error ⟨expected.length, got.length, missing, surplus⟩

/-! ### Keys -/

variable {targets l : List Text} {splitBy k : Text} {contexts : List SplitContext}

@[simp]
theorem mem_ordered : k ∈ ordered l ↔ k ∈ l := by
  rw [ordered, List.mem_mergeSort, List.mem_dedup]

theorem mem_buildMatrix :
    k ∈ (buildMatrix targets splitBy).entries.map (·.target) ↔
      ∃ t ∈ targets, matrixKey t splitBy = k := by
  simp only [buildMatrix, List.map_map, List.mem_map, Function.comp_apply]
  constructor
  · rintro ⟨t, ht, rfl⟩
    exact ⟨t, subset_firstOfEach ht, rfl⟩
  · rintro ⟨t, ht, rfl⟩
    exact exists_firstOfEach (matrixKey · splitBy) ht

/-- The keys of the targets, as the check orders them. -/
def expectedKeys (targets : List Text) (splitBy : Text) : List Text :=
  ordered ((buildMatrix targets splitBy).entries.map (·.target))

theorem mem_expectedKeys : k ∈ expectedKeys targets splitBy ↔
    ∃ t ∈ targets, matrixKey t splitBy = k := by
  rw [expectedKeys, mem_ordered, mem_buildMatrix]

/-- A shard covers a key by an artifact or by its identity. -/
def Covers (targets : List Text) (splitBy : Text) (c : SplitContext) (k : Text) : Prop :=
  (∃ a ∈ c.artifacts, ∃ t, a.target = some t ∧ matrixKey t splitBy = k) ∨
    k ∈ shardIdentityKeys c.partialTarget splitBy (expectedKeys targets splitBy)

/-- The check passes when the shards cover the keys of the targets and no others. -/
theorem check_ok_iff :
    checkSplitWorkerCompleteness (some (buildMatrix targets splitBy)) contexts = .ok () ↔
      (∀ t ∈ targets, ∃ c ∈ contexts, Covers targets splitBy c (matrixKey t splitBy)) ∧
      ∀ c ∈ contexts, ∀ k, Covers targets splitBy c k →
        ∃ t ∈ targets, matrixKey t splitBy = k := by
  have hgot : ∀ k, k ∈ ordered (contexts.flatMap fun c =>
      (c.artifacts.filterMap (·.target)).map (matrixKey · splitBy) ++
        shardIdentityKeys c.partialTarget splitBy (expectedKeys targets splitBy)) ↔
      ∃ c ∈ contexts, Covers targets splitBy c k := by
    intro k
    simp only [mem_ordered, List.mem_flatMap, List.mem_append, List.mem_map, List.mem_filterMap,
      Covers]
    refine exists_congr fun c => and_congr_right fun _ => or_congr ?_ Iff.rfl
    constructor
    · rintro ⟨t, ⟨a, ha, hat⟩, hk⟩
      exact ⟨a, ha, t, hat, hk⟩
    · rintro ⟨a, ha, t, hat, hk⟩
      exact ⟨t, ⟨a, ha, hat⟩, hk⟩
  have hok : ∀ b : Bool, ∀ e : WorkerMismatch,
      (if b then .ok () else .error e : Except WorkerMismatch Unit) = .ok () ↔ b = true := by
    rintro (_ | _) e <;> simp
  have hexpected : ordered ((buildMatrix targets splitBy).entries.map (·.target)) =
      expectedKeys targets splitBy := rfl
  have hby : (buildMatrix targets splitBy).splitBy = splitBy := rfl
  simp only [checkSplitWorkerCompleteness, hexpected, hby]
  rw [hok, Bool.and_eq_true, decide_eq_true_eq, decide_eq_true_eq, List.filter_eq_nil_iff,
    List.filter_eq_nil_iff]
  simp only [decide_eq_true_eq, not_not, hgot, mem_expectedKeys]
  constructor
  · rintro ⟨hmissing, hsurplus⟩
    exact ⟨fun t ht => hmissing _ ⟨t, ht, rfl⟩, fun c hc k hk => hsurplus k ⟨c, hc, hk⟩⟩
  · rintro ⟨hmissing, hsurplus⟩
    refine ⟨?_, fun k ⟨c, hc, hk⟩ => hsurplus c hc k hk⟩
    rintro k ⟨t, ht, rfl⟩
    exact hmissing t ht

end Anodizer.Split
