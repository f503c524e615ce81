import Anodizer.VersionFiles.AllFiles

/-! # Rewrites in any order

The rewrite of an accepted plan does not depend on the order of its entries, and
what it writes is the old text with disjoint occurrences replaced.
-/

namespace Anodizer.VersionFiles

open Regex Splice
open Template (Text CharTables)

variable {φ : Type} {rx : RegexCrate} {u : CharTables} {disk : Disk φ}
  {plan plan' : List FileRewrite} {canWrite : Text → Bool}

/-- The new text of a file: disjoint occurrences in the old one, each replaced once. -/
def Rewritten (rx : RegexCrate) (u : CharTables) (plan : List FileRewrite)
    (path original body : Text) : Prop :=
  ∃ edits, Spliced 0 edits original body ∧ edits.Pairwise (fun e f => e.stop ≤ f.start) ∧
    ∀ e ∈ edits, e.start < e.stop ∧ ∃ r ∈ plan, r.path = path ∧ Replaces rx u original r e

theorem rewritten_of_rewrites {path body : Text} (hold : ∀ r ∈ plan, r.old ≠ [])
    (h : Rewrites rx u disk plan path body) : ∃ original, disk.read path = some original ∧
      Rewritten rx u plan path original body := by
  obtain ⟨original, hread, -, rfl⟩ := h
  obtain ⟨hdisjoint, hreplaces⟩ := fileEdits_sound (u := u)
    (old_ne_of_mem hold path)
  refine ⟨original, hread, sorted _, applyEdits_spliced (old_ne_of_mem hold path),
    hdisjoint.sorted, fun e he => ?_⟩
  have he' := mem_sorted.mp he
  obtain ⟨q, hq, hr⟩ := hreplaces e he'
  obtain ⟨hmem, hpath⟩ := mem_entriesOf.mp ⟨q, hq, rfl⟩
  exact ⟨hdisjoint.nonempty e he', q.1, hmem, hpath, hr⟩

/-- The plan spells the path of a file in one way. -/
def OneSpelling (disk : Disk φ) (plan : List FileRewrite) : Prop :=
  ∀ a ∈ plan, ∀ b ∈ plan, disk.file a.path = disk.file b.path → a.path = b.path

theorem nodup_files {pending : List (Text × Text)} (hspelling : OneSpelling disk plan)
    (hnodup : (pending.map (·.1)).Nodup) (hmem : ∀ p ∈ pending, p.1 ∈ plan.map (·.path)) :
    (pending.map fun p => disk.file p.1).Nodup := by
  have hmap : (pending.map fun p => disk.file p.1) = (pending.map (·.1)).map disk.file := by simp
  rw [hmap]
  refine List.Nodup.map_on (fun p hp q hq heq => ?_) hnodup
  obtain ⟨a, ha, rfl⟩ := List.mem_map.mp hp
  obtain ⟨b, hb, rfl⟩ := List.mem_map.mp hq
  obtain ⟨r, hr, hra⟩ := List.mem_map.mp (hmem a ha)
  obtain ⟨s, hs, hsb⟩ := List.mem_map.mp (hmem b hb)
  rw [← hra, ← hsb] at heq ⊢
  exact hspelling r hr s hs heq

variable [DecidableEq φ]

/-- A rewrite that does not fail on a write fails before it writes. -/
theorem fails_before_writing (dryRun : Bool) {e : RewriteError}
    (h : (rewriteVersionInFiles rx u canWrite disk plan dryRun).2 = .error e) :
    (rewriteVersionInFiles rx u canWrite disk plan dryRun).1 = disk ∨ ∃ path, e = .write path := by
  unfold rewriteVersionInFiles at h ⊢
  cases hrun : rewriteInMemory rx u disk plan with
  | error e => exact .inl rfl
  | ok out =>
    rw [hrun] at h
    cases dryRun with
    | true => exact .inl rfl
    | false =>
      right
      cases hwritten : (writeAll canWrite disk out.2).2 with
      | ok _ =>
        simp only [hwritten] at h
        cases h
      | error e' =>
        simp only [hwritten] at h
        cases h
        exact writeAll_error disk hwritten

/-- A run leaves a file alone, or replaces disjoint occurrences in it. -/
theorem run_rewritten (hold : ∀ r ∈ plan, r.old ≠ []) (dryRun : Bool) (f : φ) :
    let run := rewriteVersionInFiles rx u canWrite disk plan dryRun
    run.1.content f = disk.content f ∨ ∃ path original body, disk.file path = f ∧
      disk.content f = some original ∧ run.1.content f = some body ∧
      Rewritten rx u plan path original body := by
  simp only [rewriteVersionInFiles]
  rcases rewriteInMemory_spec (u := u) with
    ⟨e, hrun, -⟩ | ⟨counts, pending, hrun, -, -, hpending⟩
  · rw [hrun]
    exact .inl rfl
  rw [hrun]
  cases dryRun with
  | true => exact .inl rfl
  | false =>
    refine (writeAll_content disk f).imp_right ?_
    rintro ⟨path, body, hmem, rfl, hbody⟩
    obtain ⟨original, hread, hrewritten⟩ :=
      rewritten_of_rewrites hold ((hpending path body).mp hmem).2
    exact ⟨path, original, body, rfl, hread, hbody, hrewritten⟩

/-- A run of the plan in another order does what the plan does, as far as its writes go. -/
theorem rewrite_perm (hperm : plan'.Perm plan) (hnodup : plan.Nodup)
    (hold : ∀ r ∈ plan, r.old ≠ []) (hspelling : OneSpelling disk plan)
    (hapart : Apart rx u disk plan) (dryRun : Bool) :
    let run := rewriteVersionInFiles rx u canWrite disk plan' dryRun
    let full := rewriteVersionInFiles rx u (fun _ => true) disk plan false
    (∀ f, run.1.content f = disk.content f ∨ run.1.content f = full.1.content f) ∧
      (dryRun = false → (∃ out, run.2 = .ok out) → run.1 = full.1) := by
  simp only [rewriteVersionInFiles]
  rcases rewriteInMemory_spec (u := u) with
    ⟨e, hrun, -⟩ | ⟨counts, pending, hrun, hok, hpaths, hpending⟩
  · rw [hrun]
    refine ⟨fun _ => .inl rfl, ?_⟩
    rintro - ⟨out, ⟨⟩⟩
  rcases rewriteInMemory_spec (u := u) with
    ⟨e, -, r, hr, hfail⟩ | ⟨counts', pending', hrun', -, hpaths', hpending'⟩
  · exact absurd ((fails_perm hperm).mpr hfail) (hok r (hperm.mem_iff.mpr hr))
  have hmem : ∀ p, p ∈ pending ↔ p ∈ pending' := by
    rintro ⟨path, body⟩
    rw [hpending, hpending', rewrites_perm hperm hnodup hold hapart,
      (hperm.map (·.path)).mem_iff]
  have hsub : ∀ p ∈ pending', p.1 ∈ plan.map (·.path) := fun p hp => ((hpending' p.1 p.2).mp hp).1
  have hfiles' := nodup_files hspelling hpaths' hsub
  have hfiles := nodup_files hspelling hpaths fun p hp => hsub p ((hmem p).mp hp)
  rw [hrun, hrun']
  cases dryRun with
  | true =>
    refine ⟨fun _ => .inl rfl, ?_⟩
    rintro ⟨⟩
  | false =>
    simp only [Bool.false_eq_true, if_false]
    refine ⟨writeAll_agree disk hmem hfiles', fun _ hout => ?_⟩
    refine writeAll_full disk hmem hfiles hfiles' ?_
    obtain ⟨out, hout⟩ := hout
    cases hwritten : (writeAll canWrite disk pending).2 with
    | ok _ => rfl
    | error e' =>
      rw [hwritten] at hout
      cases hout

/-- The places of a literal text. -/
def literalRegions (needle : Text) : ℕ → ℕ → Text → List (ℕ × ℕ)
  | _, _, [] => []
  | skip + 1, i, _ :: cs => literalRegions needle skip (i + 1) cs
  | 0, i, c :: cs =>
    if needle <+: c :: cs then
      (i, i + needle.length) :: literalRegions needle (needle.length - 1) (i + 1) cs
    else literalRegions needle 0 (i + 1) cs

/-- Patterns of literal characters and escaped dots. -/
def literalRegex : RegexCrate where
  escape := Git.replaceText ".".toList "\\.".toList
  compile pattern := some (literalRegions (pattern.filter (· ≠ '\\')) 0 0)

def oneFile (name text : Text) : Disk Text := ⟨id, fun path => if path = name then some text else none⟩

def unitOf (entry : VersionFileEntry) (old new : String) : PlanUnit :=
  ⟨[entry], old.toList, new.toList, "app".toList⟩

/-- The text of a file after the rewrite of a plan, in its order or in the reverse one. -/
def rewrittenText (disk : Disk Text) (units : List PlanUnit) (reversed : Bool) (file : Text) :
    Option Text :=
  match buildVersionFilesPlan .ascii units with
  | .error _ => none
  | .ok plan =>
    (rewriteVersionInFiles literalRegex .ascii (fun _ => true) disk
      (if reversed then plan.reverse else plan) false).1.content file

def valuesName : Text := "values.yaml".toList

def valuesText : Text := "operator: v0.7.0\ncsi: v0.7.0\ncli 0.9.0\n".toList

def valuesFile : Disk Text := oneFile valuesName valuesText

def valuesUnits : List PlanUnit :=
  [unitOf (.anchored valuesName "operator: v\x7bversion\x7d".toList) "0.7.0" "0.8.0",
    unitOf (.anchored valuesName "csi: v\x7bversion\x7d".toList) "0.7.0" "0.7.1",
    unitOf (.path valuesName) "0.9.0" "1.0.0"]

def valuesPlan : List FileRewrite :=
  valuesUnits.flatMap fun unit => unit.files.map (candidate unit)

def bumpOf (path : Text) : FileRewrite := ⟨path, none, "0.1.0".toList, "0.2.0".toList, []⟩

/-- Two files, of which the second cannot be written. -/
def halfWritten : Disk Text × Except RewriteError (List RewriteOutcome) :=
  rewriteVersionInFiles literalRegex .ascii (· ≠ "b".toList)
    ⟨id, fun _ => some "0.1.0".toList⟩ [bumpOf "a".toList, bumpOf "b".toList] false

end Anodizer.VersionFiles
