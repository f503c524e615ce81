import Anodizer.Split.Matrix

/-! # What the completeness check finds out

A shard that builds every target of its filter covers keys of the matrix only.
Under `split_by: target` a missing shard is a missing key. Under `split_by: os`
the key of a missing shard may be covered by another.
-/

namespace Anodizer.Split

open Template (Text contains)

inductive SplitBy
  | os
  | target
  deriving DecidableEq, Repr

def SplitBy.text : SplitBy → Text
  | .os => "os".toList
  | .target => "target".toList

/-- A worker and the context it wrote. It built all the targets of its filter, or it skipped
the build. -/
structure Shard (targets : List Text) where
  worker : PartialTarget
  context : SplitContext
  single : ∀ list, worker ≠ .targets list
  selects : worker.filterTargets targets ≠ []
  identity : context.partialTarget = worker.distSubdir
  built : context.artifacts = [] ∨
    ∀ t, (∃ a ∈ context.artifacts, a.target = some t) ↔ t ∈ worker.filterTargets targets

variable {targets : List Text} {fleet : List (Shard targets)} {s : Shard targets} {t k : Text}

namespace Shard

def Selects (s : Shard targets) (t : Text) : Prop := t ∈ s.worker.filterTargets targets

def SkippedBuild (s : Shard targets) : Prop := s.context.artifacts = []

/-- The shard's directory is named like a configured target. -/
def NamedLikeTarget (s : Shard targets) : Prop := s.worker.distSubdir ∈ targets

instance : DecidablePred s.Selects := fun _ => inferInstanceAs (Decidable (_ ∈ _))

instance : Decidable s.SkippedBuild := inferInstanceAs (Decidable (_ = _))

instance : Decidable s.NamedLikeTarget := inferInstanceAs (Decidable (_ ∈ _))

theorem Selects.mem (h : s.Selects t) : t ∈ targets := (List.mem_filter.mp h).1

theorem exists_selects (s : Shard targets) : ∃ t, s.Selects t :=
  List.exists_mem_of_ne_nil _ s.selects

/-- What the artifacts of a shard were built for. -/
theorem artifact_iff :
    (∃ a ∈ s.context.artifacts, a.target = some t) ↔ ¬s.SkippedBuild ∧ s.Selects t := by
  constructor
  · rintro ⟨a, ha, hat⟩
    have hne : s.context.artifacts ≠ [] := List.ne_nil_of_mem ha
    exact ⟨hne, (s.built.resolve_left hne t).mp ⟨a, ha, hat⟩⟩
  · rintro ⟨hne, ht⟩
    exact (s.built.resolve_left hne t).mpr ht

end Shard

/-! ### What a directory name is read as -/

/-- The three forms of a worker that selects something. -/
theorem Shard.worker_cases (s : Shard targets) :
    (∃ t, s.worker = .exact t ∧ s.Selects t) ∨
      ∃ t arch, s.worker = .osArch (mapOs t) arch ∧ s.Selects t ∧
        ∀ a ∈ arch, a = mapArch t := by
  obtain ⟨t, ht⟩ := s.exists_selects
  have hkeeps : s.worker.keeps t = true := (List.mem_filter.mp ht).2
  cases hw : s.worker with
  | exact u =>
    rw [hw, PartialTarget.keeps, decide_eq_true_eq] at hkeeps
    exact .inl ⟨t, by rw [hkeeps], ht⟩
  | targets list => exact absurd hw (s.single list)
  | osArch os arch =>
    rw [hw, PartialTarget.keeps, Bool.and_eq_true, decide_eq_true_eq] at hkeeps
    obtain ⟨hos, harch⟩ := hkeeps
    refine .inr ⟨t, arch, by rw [← hos, mapTarget], ht, fun a ha => ?_⟩
    rw [Option.mem_def.mp ha, Option.all_some, decide_eq_true_eq] at harch
    exact harch.symm

/-- Everything a shard selects has one system, the system of its directory name. -/
theorem Shard.mapOs_distSubdir (h : s.Selects t) : mapOs s.worker.distSubdir = mapOs t := by
  have hkeeps : s.worker.keeps t = true := (List.mem_filter.mp h).2
  rcases s.worker_cases with ⟨u, hw, -⟩ | ⟨u, arch, hw, -, harch⟩
  · rw [hw, PartialTarget.keeps, decide_eq_true_eq] at hkeeps
    rw [hw, PartialTarget.distSubdir, hkeeps]
  · rw [hw, PartialTarget.keeps, Bool.and_eq_true, decide_eq_true_eq, mapTarget] at hkeeps
    have hos : mapOs t = mapOs u := hkeeps.1
    rw [hw, hos]
    cases arch with
    | none => exact mapOs_mapOs u
    | some a =>
      rw [harch a rfl]
      exact mapOs_joined u

/-- The keys of a shard under `split_by: os` are the systems of what it selects. -/
theorem covers_os :
    Covers targets SplitBy.os.text s.context k ↔ ∃ t, s.Selects t ∧ mapOs t = k := by
  have hkey : ∀ u, matrixKey u SplitBy.os.text = mapOs u := fun u => if_pos rfl
  have hown : shardIdentityKeys s.context.partialTarget SplitBy.os.text
      (expectedKeys targets SplitBy.os.text) = [mapOs s.worker.distSubdir] := by
    rw [shardIdentityKeys, hkey, s.identity]
    exact if_pos rfl
  rw [Covers, hown, List.mem_singleton]
  simp only [hkey]
  constructor
  · rintro (⟨a, ha, t, hat, hk⟩ | hk)
    · exact ⟨t, (Shard.artifact_iff.mp ⟨a, ha, hat⟩).2, hk⟩
    · obtain ⟨t, ht⟩ := s.exists_selects
      exact ⟨t, ht, by rw [hk, Shard.mapOs_distSubdir ht]⟩
  · rintro ⟨t, ht, rfl⟩
    exact .inr (Shard.mapOs_distSubdir ht).symm

/-- The keys of a shard's directory under `split_by: target`. -/
theorem identity_target :
    k ∈ shardIdentityKeys s.context.partialTarget SplitBy.target.text
        (expectedKeys targets SplitBy.target.text) ↔
      if s.NamedLikeTarget then k = s.worker.distSubdir else s.Selects k := by
  have hkey : ∀ u, matrixKey u SplitBy.target.text = u := fun u => if_neg (by decide)
  have hexp : ∀ u, u ∈ expectedKeys targets SplitBy.target.text ↔ u ∈ targets := by
    intro u
    simp only [mem_expectedKeys, hkey, exists_eq_right]
  have hby : ¬ SplitBy.target.text = "os".toList := by decide
  rw [shardIdentityKeys, s.identity, hkey]
  simp only [hby, hexp, decide_false, Bool.false_or, decide_eq_true_eq]
  by_cases hnamed : s.worker.distSubdir ∈ targets
  · rw [if_pos hnamed, if_pos (show s.NamedLikeTarget from hnamed), List.mem_singleton]
  rw [if_neg hnamed, if_neg (show ¬s.NamedLikeTarget from hnamed)]
  rcases s.worker_cases with ⟨u, hw, hu⟩ | ⟨u, arch, hw, hu, harch⟩
  · -- an exact worker is named like the target it builds
    exact absurd (by rw [hw]; exact hu.mem) hnamed
  · have hread : PartialTarget.fromDistSubdir s.worker.distSubdir = s.worker := by
      rw [hw]
      refine fromDistSubdir_osArch (mapOs_plain u) fun a ha => ?_
      rw [harch a ha]
      exact mapArch_no_hyphen u
    have hmem : ∀ v, v ∈ s.worker.filterTargets (expectedKeys targets SplitBy.target.text) ↔
        s.Selects v := by
      intro v
      rw [Shard.Selects, PartialTarget.filterTargets, PartialTarget.filterTargets,
        List.mem_filter, List.mem_filter, hexp]
    have hne : s.worker.filterTargets (expectedKeys targets SplitBy.target.text) ≠ [] :=
      List.ne_nil_of_mem ((hmem u).mpr hu)
    rw [hread, hw]
    rw [hw] at hmem hne
    dsimp only
    rw [if_neg hne, hmem]

/-- The keys of a shard under `split_by: target` are the targets it selects, unless its
directory is named like a target. -/
theorem covers_target :
    Covers targets SplitBy.target.text s.context k ↔
      s.Selects k ∧ (s.SkippedBuild → ¬s.NamedLikeTarget) ∨
        s.NamedLikeTarget ∧ k = s.worker.distSubdir := by
  have hkey : ∀ u, matrixKey u SplitBy.target.text = u := fun u => if_neg (by decide)
  have hbuilt : (∃ a ∈ s.context.artifacts, ∃ t, a.target = some t ∧ t = k) ↔
      ¬s.SkippedBuild ∧ s.Selects k := by
    rw [← Shard.artifact_iff]
    simp only [exists_eq_right]
  rw [Covers, identity_target]
  simp only [hkey]
  rw [hbuilt]
  by_cases hnamed : s.NamedLikeTarget
  · rw [if_pos hnamed]
    tauto
  · rw [if_neg hnamed]
    tauto

/-! ### The check -/

def AllSelected (fleet : List (Shard targets)) : Prop :=
  ∀ t ∈ targets, ∃ s ∈ fleet, s.Selects t

def check (splitBy : SplitBy) (fleet : List (Shard targets)) : Except WorkerMismatch Unit :=
  checkSplitWorkerCompleteness (some (buildMatrix targets splitBy.text))
    (fleet.map (·.context))

/-- The check passes when every target is selected, and fails otherwise. -/
structure Complete (splitBy : SplitBy) (fleet : List (Shard targets)) : Prop where
  passes : AllSelected fleet → check splitBy fleet = .ok ()
  fails : ¬AllSelected fleet → ∃ e, check splitBy fleet = .error e

/-- A target of the same system is selected by some shard. -/
def OsReached (fleet : List (Shard targets)) (t : Text) : Prop :=
  ∃ s ∈ fleet, ∃ u, s.Selects u ∧ mapOs u = mapOs t

/-- A shard selects the target and shows it, or its directory has the target's name. -/
def TargetReached (fleet : List (Shard targets)) (t : Text) : Prop :=
  ∃ s ∈ fleet, s.Selects t ∧ (s.SkippedBuild → ¬s.NamedLikeTarget) ∨ t = s.worker.distSubdir

/-- No shard is taken for another. -/
def Distinguished (fleet : List (Shard targets)) : SplitBy → Prop
  | .os => AllSelected fleet ∨ ∃ t ∈ targets, ¬OsReached fleet t
  | .target =>
    (AllSelected fleet → ∀ t ∈ targets, TargetReached fleet t) ∧
      (¬AllSelected fleet → ∃ t ∈ targets, ¬TargetReached fleet t)

theorem check_os_iff : check .os fleet = .ok () ↔ ∀ t ∈ targets, OsReached fleet t := by
  have hkey : ∀ u, matrixKey u SplitBy.os.text = mapOs u := fun u => if_pos rfl
  rw [check, check_ok_iff]
  simp only [List.mem_map, exists_exists_and_eq_and, forall_exists_index, and_imp,
    forall_apply_eq_imp_iff₂, covers_os, hkey]
  constructor
  · exact fun h => h.1
  · refine fun h => ⟨h, ?_⟩
    intro s _ t ht
    exact ⟨t, ht.mem, rfl⟩

theorem check_target_iff :
    check .target fleet = .ok () ↔ ∀ t ∈ targets, TargetReached fleet t := by
  have hkey : ∀ u, matrixKey u SplitBy.target.text = u := fun u => if_neg (by decide)
  rw [check, check_ok_iff]
  simp only [List.mem_map, exists_exists_and_eq_and, forall_exists_index, and_imp,
    forall_apply_eq_imp_iff₂, covers_target, hkey, exists_eq_right]
  constructor
  · rintro ⟨h, -⟩ t ht
    obtain ⟨s, hs, hsel | ⟨-, hname⟩⟩ := h t ht
    · exact ⟨s, hs, .inl hsel⟩
    · exact ⟨s, hs, .inr hname⟩
  · refine fun h => ⟨fun t ht => ?_, ?_⟩
    · obtain ⟨s, hs, hsel | hname⟩ := h t ht
      · exact ⟨s, hs, .inl hsel⟩
      · exact ⟨s, hs, .inr ⟨by rw [Shard.NamedLikeTarget, ← hname]; exact ht, hname⟩⟩
    · rintro s - k (⟨hsel, -⟩ | ⟨hnamed, rfl⟩)
      · exact hsel.mem
      · exact hnamed

theorem check_error_iff {splitBy : SplitBy} :
    (∃ e, check splitBy fleet = .error e) ↔ check splitBy fleet ≠ .ok () := by
  cases check splitBy fleet <;> simp

theorem AllSelected.osReached (h : AllSelected fleet) : ∀ t ∈ targets, OsReached fleet t := by
  intro t ht
  obtain ⟨s, hs, hsel⟩ := h t ht
  exact ⟨s, hs, t, hsel, rfl⟩

/-- The check finds out what is missing exactly when no shard is taken for another. -/
theorem complete_iff (splitBy : SplitBy) (fleet : List (Shard targets)) :
    Complete splitBy fleet ↔ Distinguished fleet splitBy := by
  have hiff : Complete splitBy fleet ↔ (AllSelected fleet ↔ check splitBy fleet = .ok ()) := by
    constructor
    · rintro ⟨hpass, hfail⟩
      refine ⟨hpass, fun hok => by_contra fun hmissing => ?_⟩
      exact check_error_iff.mp (hfail hmissing) hok
    · exact fun h => ⟨h.mp, fun hmissing => check_error_iff.mpr fun hok => hmissing (h.mpr hok)⟩
  rw [hiff]
  cases splitBy with
  | os =>
    rw [check_os_iff, Distinguished]
    constructor
    · intro h
      by_cases hall : AllSelected fleet
      · exact .inl hall
      · right
        have hnot : ¬∀ t ∈ targets, OsReached fleet t := fun hr => hall (h.mpr hr)
        simpa using hnot
    · rintro (hall | ⟨t, ht, hnot⟩)
      · exact ⟨AllSelected.osReached, fun _ => hall⟩
      · exact ⟨AllSelected.osReached, fun hr => absurd (hr t ht) hnot⟩
  | target =>
    have hnot : (∃ t ∈ targets, ¬TargetReached fleet t) ↔
        ¬∀ t ∈ targets, TargetReached fleet t := by simp
    rw [check_target_iff, Distinguished, hnot]
    constructor
    · exact fun h => ⟨h.mp, fun hmissing hr => hmissing (h.mpr hr)⟩
    · exact fun h => ⟨h.1, fun hr => by_contra fun hmissing => h.2 hmissing hr⟩

/-- Two workers of one system, the first of which reports. -/
def linuxTriples : List Text :=
  ["x86_64-unknown-linux-gnu".toList, "aarch64-unknown-linux-gnu".toList]

def x86Shard : Shard linuxTriples where
  worker := .exact "x86_64-unknown-linux-gnu".toList
  context := ⟨"x86_64-unknown-linux-gnu".toList, [⟨some "x86_64-unknown-linux-gnu".toList⟩]⟩
  single := nofun
  selects := by decide
  identity := rfl
  built := by
    refine .inr fun t => ?_
    have hfilter : (PartialTarget.exact "x86_64-unknown-linux-gnu".toList).filterTargets
        linuxTriples = ["x86_64-unknown-linux-gnu".toList] := by decide
    rw [hfilter]
    constructor
    · rintro ⟨a, ha, hat⟩
      rw [List.mem_singleton.mp ha, Option.some.injEq] at hat
      exact List.mem_singleton.mpr hat.symm
    · intro ht
      exact ⟨_, List.mem_singleton_self _, by rw [List.mem_singleton.mp ht]⟩

theorem not_complete_os : ¬Complete .os [x86Shard] := by
  have harm : "aarch64-unknown-linux-gnu".toList ∈ linuxTriples := by decide
  have hmissing : ¬AllSelected [x86Shard] := by
    intro h
    obtain ⟨s, hs, hsel⟩ := h _ harm
    rw [List.mem_singleton.mp hs] at hsel
    revert hsel
    decide
  have hreached : ∀ t ∈ linuxTriples, mapOs "x86_64-unknown-linux-gnu".toList = mapOs t := by
    decide
  have hok : check .os [x86Shard] = .ok () := check_os_iff.mpr fun t ht =>
    ⟨x86Shard, List.mem_singleton_self _, _, by decide, hreached t ht⟩
  intro h
  exact check_error_iff.mp (h.fails hmissing) hok

/-- Under `split_by: target`, no shard is taken for another when the triples have hyphens. -/
theorem complete_target (hdash : ∀ t ∈ targets, '-' ∈ t) (fleet : List (Shard targets)) :
    Complete .target fleet := by
  have hreach : ∀ t ∈ targets, TargetReached fleet t ↔ ∃ s ∈ fleet, s.Selects t := by
    intro t ht
    refine exists_congr fun s => and_congr_right fun _ => ?_
    rcases s.worker_cases with ⟨u, hw, hu⟩ | ⟨u, arch, hw, -, harch⟩
    · -- an exact worker selects one target, the one its directory is named like
      have hsel : s.Selects t → t = u := by
        intro h
        have hkeeps : s.worker.keeps t = true := (List.mem_filter.mp h).2
        rw [hw] at hkeeps
        exact of_decide_eq_true hkeeps
      rw [hw]
      constructor
      · rintro (⟨h, -⟩ | rfl)
        · exact h
        · exact hu
      · exact fun h => .inr (hsel h)
    · have hplain : '-' ∉ s.worker.distSubdir := by
        rw [hw]
        refine distSubdir_no_hyphen (mapOs_plain u).1 fun a ha => ?_
        rw [harch a ha]
        exact mapArch_no_hyphen u
      constructor
      · rintro (⟨h, -⟩ | rfl)
        · exact h
        · exact absurd (hdash _ ht) hplain
      · exact fun h => .inl ⟨h, fun _ hnamed => hplain (hdash _ hnamed)⟩
  rw [complete_iff, Distinguished]
  constructor
  · exact fun h t ht => (hreach t ht).mpr (h t ht)
  · intro hmissing
    simp only [AllSelected, not_forall] at hmissing
    obtain ⟨t, ht, hnot⟩ := hmissing
    exact ⟨t, ht, fun h => hnot ((hreach t ht).mp h)⟩

end Anodizer.Split
