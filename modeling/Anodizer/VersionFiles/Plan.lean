import Anodizer.Lib.FirstOfEach
import Anodizer.Lib.Loop
import Anodizer.VersionFiles.Occurrence
import Mathlib.Data.List.Sort

/-! # The plan of the rewrites

The enrolled files of every unit make one plan. An entry listed twice is planned
once, and two entries that one file cannot hold are refused.
-/

namespace Anodizer.VersionFiles

open Template (Text CharTables)

inductive VersionFileEntry
  | path (path : Text)
  | anchored (path matchPattern : Text)

namespace VersionFileEntry

def filePath : VersionFileEntry → Text
  | path p => p
  | anchored p _ => p

def anchor : VersionFileEntry → Option Text
  | path _ => none
  | anchored _ m => some m

end VersionFileEntry

/-- The rewrite of a version in a file, in the regions of the anchor if there is one. -/
structure FileRewrite where
  path : Text
  anchor : Option Text
  old : Text
  new : Text
  owner : Text
  deriving DecidableEq, Repr

structure PlanUnit where
  files : List VersionFileEntry
  old : Text
  new : Text
  owner : Text

/-- Why a plan is refused: one version for two, or a rewrite that another one would match. -/
inductive Conflict
  | twoNews (a b : FileRewrite)
  | chain (first second : FileRewrite)
  deriving DecidableEq, Repr

/-! ### The conflict guard -/

section Guard

variable (u : CharTables)

def checkHazards (a b : FileRewrite) (bareBesideAnchored : Bool) : Except Conflict Unit :=
  if a.old = b.old ∧ a.new ≠ b.new ∧ !bareBesideAnchored then .error (.twoNews a b)
  else if containsVersion u a.new b.old then .error (.chain a b)
  else if containsVersion u b.new a.old then .error (.chain b a)
  else .ok ()

/-- Refuse two entries that overlap in a file which cannot survive both. -/
def checkRewritePair (a b : FileRewrite) : Except Conflict Unit :=
  if a.path ≠ b.path then .ok ()
  else if a.old = b.old ∧ a.new = b.new then .ok ()
  else
    match a.anchor, b.anchor with
    | none, none => checkHazards u a b false
    -- two different anchors are taken to be disjoint
    | some x, some y => if x = y then checkHazards u a b false else .ok ()
    | some _, none | none, some _ => checkHazards u a b true

/-- Two entries of one file that may select the same bytes. -/
def Interacts (a b : FileRewrite) : Prop :=
  a.path = b.path ∧ (a.anchor = none ∨ b.anchor = none ∨ a.anchor = b.anchor)

/-- The text that one of two entries writes holds no version that the other one looks for. -/
def Unchained (a b : FileRewrite) : Prop :=
  Interacts a b → ¬ (a.old = b.old ∧ a.new = b.new) →
    containsVersion u a.new b.old = false ∧ containsVersion u b.new a.old = false

variable {u}

theorem Unchained.symm {a b : FileRewrite} (h : Unchained u a b) : Unchained u b a := by
  rintro ⟨hpath, hanchor⟩ hpair
  have hinteracts : Interacts a b := ⟨hpath.symm, by
    rcases hanchor with h | h | h
    · exact .inr (.inl h)
    · exact .inl h
    · exact .inr (.inr h.symm)⟩
  exact (h hinteracts fun h => hpair ⟨h.1.symm, h.2.symm⟩).symm

theorem checkHazards_ok {a b : FileRewrite} {beside : Bool}
    (h : checkHazards u a b beside = .ok ()) :
    containsVersion u a.new b.old = false ∧ containsVersion u b.new a.old = false := by
  unfold checkHazards at h
  split at h
  · cases h
  · split at h
    · cases h
    · next hab =>
      split at h
      · cases h
      · next hba => exact ⟨by simpa using hab, by simpa using hba⟩

theorem checkRewritePair_ok {a b : FileRewrite} (h : checkRewritePair u a b = .ok ()) :
    Unchained u a b := by
  rintro ⟨hpath, hanchor⟩ hpair
  rw [checkRewritePair, if_neg (not_not.mpr hpath), if_neg hpair] at h
  cases ha : a.anchor with
  | none =>
    cases hb : b.anchor <;> rw [ha, hb] at h <;> exact checkHazards_ok h
  | some x =>
    cases hb : b.anchor with
    | none =>
      rw [ha, hb] at h
      exact checkHazards_ok h
    | some y =>
      rw [ha, hb] at h hanchor
      obtain rfl : x = y := by simpa using hanchor
      simp only [if_true] at h
      exact checkHazards_ok h

end Guard

/-! ### Building the plan -/

section Build

def byteLen (s : Text) : ℕ := (s.map Char.utf8Size).sum

def candidate (unit : PlanUnit) (entry : VersionFileEntry) : FileRewrite :=
  ⟨entry.filePath, entry.anchor, unit.old, unit.new, unit.owner⟩

def addCandidate (u : CharTables) (plan : List FileRewrite) (c : FileRewrite) :
    Except Conflict (List FileRewrite) :=
  if plan.any fun p => p.path = c.path ∧ p.anchor = c.anchor ∧ p.old = c.old ∧ p.new = c.new then
    .ok plan
  else do
    plan.forM (checkRewritePair u · c)
    .ok (plan ++ [c])

def firstSeen (paths : List Text) : List Text := FirstOfEach.firstOfEach id [] paths

/-- Files in the order in which they are seen, and in a file the longest old version first. -/
def sortPlan (plan : List FileRewrite) : List FileRewrite :=
  let fileOrder := firstSeen (plan.map (·.path))
  plan.insertionSort fun a b =>
    fileOrder.idxOf a.path < fileOrder.idxOf b.path ∨
      fileOrder.idxOf a.path = fileOrder.idxOf b.path ∧ byteLen b.old ≤ byteLen a.old

def buildVersionFilesPlan (u : CharTables) (units : List PlanUnit) :
    Except Conflict (List FileRewrite) :=
  ((units.flatMap fun unit => unit.files.map (candidate unit)).foldlM (addCandidate u) []).map
    sortPlan

variable {u : CharTables} {plan : List FileRewrite} {c : FileRewrite} {units : List PlanUnit}

/-- What holds of every plan: no entry twice, and no rewrite that another one would match. -/
structure Guarded (u : CharTables) (plan : List FileRewrite) : Prop where
  nodup : plan.Nodup
  unchained : plan.Pairwise (Unchained u)

theorem addCandidate_guarded {plan' : List FileRewrite} (hplan : Guarded u plan)
    (h : addCandidate u plan c = .ok plan') :
    Guarded u plan' ∧ ∀ p ∈ plan', p ∈ plan ∨ p = c := by
  unfold addCandidate at h
  split at h
  · cases h
    exact ⟨hplan, fun p hp => .inl hp⟩
  · next hnew =>
    cases hcheck : plan.forM (checkRewritePair u · c) with
    | error e =>
      rw [hcheck] at h
      cases h
    | ok _ =>
      rw [hcheck] at h
      cases h
      have hfresh : c ∉ plan := fun hc => hnew (by
        rw [List.any_eq_true]
        exact ⟨c, hc, by simp⟩)
      refine ⟨⟨?_, ?_⟩, fun p hp => by simpa using hp⟩
      · exact List.nodup_append.mpr ⟨hplan.nodup, List.nodup_singleton c, by
          rintro p hp q hq rfl
          exact hfresh (List.mem_singleton.mp hq ▸ hp)⟩
      · refine List.pairwise_append.mpr ⟨hplan.unchained, List.pairwise_singleton _ _, ?_⟩
        intro p hp q hq
        rw [List.mem_singleton.mp hq]
        exact checkRewritePair_ok (Loop.forM_ok_iff.mp hcheck p hp)

theorem foldlM_guarded {cs : List FileRewrite} {plan' : List FileRewrite}
    (hplan : Guarded u plan) (h : cs.foldlM (addCandidate u) plan = .ok plan') :
    Guarded u plan' ∧ ∀ p ∈ plan', p ∈ plan ∨ p ∈ cs := by
  induction cs generalizing plan with
  | nil =>
    cases h
    exact ⟨hplan, fun p hp => .inl hp⟩
  | cons c cs ih =>
    rw [List.foldlM_cons] at h
    cases hadd : addCandidate u plan c with
    | error e =>
      rw [hadd] at h
      cases h
    | ok next =>
      rw [hadd] at h
      obtain ⟨hnext, hmem⟩ := addCandidate_guarded hplan hadd
      obtain ⟨hguarded, hmem'⟩ := ih hnext h
      refine ⟨hguarded, fun p hp => ?_⟩
      rcases hmem' p hp with hp | hp
      · exact (hmem p hp).imp_right fun heq => List.mem_cons.mpr (.inl heq)
      · exact .inr (List.mem_cons_of_mem _ hp)

/-- An accepted plan is guarded, and its entries are those of the units. -/
theorem buildVersionFilesPlan_guarded (h : buildVersionFilesPlan u units = .ok plan) :
    Guarded u plan ∧ ∀ r ∈ plan, ∃ unit ∈ units, ∃ entry ∈ unit.files, r = candidate unit entry := by
  unfold buildVersionFilesPlan at h
  cases hbuilt : (units.flatMap fun unit => unit.files.map (candidate unit)).foldlM
      (addCandidate u) [] with
  | error e =>
    rw [hbuilt] at h
    cases h
  | ok built =>
    rw [hbuilt] at h
    cases h
    obtain ⟨hguarded, hmem⟩ := foldlM_guarded ⟨List.nodup_nil, List.Pairwise.nil⟩ hbuilt
    have hperm : (sortPlan built).Perm built := List.perm_insertionSort _ _
    refine ⟨⟨hperm.nodup_iff.mpr hguarded.nodup,
      hperm.symm.pairwise hguarded.unchained fun h => h.symm⟩, fun r hr => ?_⟩
    rcases hmem r (hperm.mem_iff.mp hr) with hr | hr
    · cases hr
    · obtain ⟨unit, hunit, hr⟩ := List.mem_flatMap.mp hr
      obtain ⟨entry, hentry, rfl⟩ := List.mem_map.mp hr
      exact ⟨unit, hunit, entry, hentry, rfl⟩

end Build

end Anodizer.VersionFiles
