import Anodizer.VersionFiles.Exact

/-! # The rewrite of all files

A rewrite that fails in memory writes nothing. Otherwise every file it writes
gets one text, in whichever order the entries of the plan are listed.
-/

namespace Anodizer.VersionFiles

open Regex Splice
open Template (Text CharTables)

variable {φ : Type} {rx : RegexCrate} {u : CharTables} {disk : Disk φ}
  {rewrites : List FileRewrite}

/-! ### The files in memory -/

/-- The entries of a path. -/
def entriesOf (rewrites : List FileRewrite) (path : Text) : List (FileRewrite × ℕ) :=
  rewrites.zipIdx.filter (·.1.path = path)

theorem map_entriesOf (rewrites : List FileRewrite) (path : Text) :
    (entriesOf rewrites path).map (·.1) = rewrites.filter (·.path = path) := by
  calc (entriesOf rewrites path).map (·.1)
      = (rewrites.zipIdx.map Prod.fst).filter (·.path = path) := by
        rw [List.filter_map]
        rfl
    _ = rewrites.filter (·.path = path) := by rw [List.zipIdx_map_fst]

theorem mem_entriesOf {path : Text} {r : FileRewrite} :
    (∃ e ∈ entriesOf rewrites path, e.1 = r) ↔ r ∈ rewrites ∧ r.path = path := by
  rw [← List.mem_map, map_entriesOf, List.mem_filter, decide_eq_true_eq]

/-- A file that cannot be rewritten: it is unreadable, or an entry of it fails. -/
def Fails (rx : RegexCrate) (disk : Disk φ) (rewrites : List FileRewrite) (path : Text) : Prop :=
  disk.read path = none ∨ ∃ original, disk.read path = some original ∧
    ∃ r ∈ rewrites, r.path = path ∧ ∃ e, entryRegions rx original r = .error e

/-- The text that a rewrite gives to a file. -/
def Rewrites (rx : RegexCrate) (u : CharTables) (disk : Disk φ) (rewrites : List FileRewrite)
    (path body : Text) : Prop :=
  ∃ original, disk.read path = some original ∧
    fileEdits rx u original (entriesOf rewrites path) ≠ [] ∧
    body = applyEdits original (fileEdits rx u original (entriesOf rewrites path))

theorem stepFile_spec (s : Counts × List (Text × Text)) (path : Text) :
    (∃ e, stepFile rx u disk s (path, entriesOf rewrites path) = .error e ∧
        Fails rx disk rewrites path) ∨
      ∃ counts new, stepFile rx u disk s (path, entriesOf rewrites path) =
          .ok (counts, s.2 ++ new) ∧ ¬ Fails rx disk rewrites path ∧
        (new.map (·.1)).Sublist [path] ∧
        ∀ p body, (p, body) ∈ new ↔ p = path ∧ Rewrites rx u disk rewrites path body := by
  unfold stepFile Fails Rewrites
  cases hread : disk.read path with
  | none => exact .inl ⟨_, rfl, .inl rfl⟩
  | some original =>
    simp only [Option.some.injEq, exists_eq_left']
    rcases applyEntries_spec (u := u)
        with
      ⟨e, hrun, q, hq, hfail⟩ | ⟨c, counts, hrun, hok, hedits⟩
    · rw [hrun]
      obtain ⟨hmem, hpath⟩ := mem_entriesOf.mp ⟨q, hq, rfl⟩
      exact .inl ⟨e, rfl, .inr ⟨q.1, hmem, hpath, hfail⟩⟩
    · rw [hrun]
      have hnofail : ¬ ∃ r ∈ rewrites, r.path = path ∧ ∃ e, entryRegions rx original r = .error e := by
        rintro ⟨r, hr, hpath, e, he⟩
        obtain ⟨q, hq, rfl⟩ := mem_entriesOf.mpr ⟨hr, hpath⟩
        obtain ⟨regions, hregions⟩ := hok q hq
        rw [hregions] at he
        cases he
      by_cases hnil : c.edits = []
      · refine .inr ⟨counts ++ s.1, [], ?_, by simpa using hnofail, by simp, fun p body => ?_⟩
        · show Except.ok (counts ++ s.1, if c.edits = [] then s.2 else _) = _
          rw [if_pos hnil, List.append_nil]
        · rw [hedits] at hnil
          simp [hnil]
      · refine .inr ⟨counts ++ s.1, [(path, applyEdits original c.edits)], ?_, by simpa using hnofail,
          by simp, fun p body => ?_⟩
        · show Except.ok (counts ++ s.1, if c.edits = [] then s.2 else _) = _
          rw [if_neg hnil]
        · rw [hedits] at hnil ⊢
          simp [hnil]

theorem foldlM_stepFile {paths : List Text} (s : Counts × List (Text × Text)) :
    (∃ e, (paths.map fun p => (p, entriesOf rewrites p)).foldlM (stepFile rx u disk) s = .error e ∧
        ∃ p ∈ paths, Fails rx disk rewrites p) ∨
      ∃ counts new, (paths.map fun p => (p, entriesOf rewrites p)).foldlM (stepFile rx u disk) s =
          .ok (counts, s.2 ++ new) ∧ (∀ p ∈ paths, ¬ Fails rx disk rewrites p) ∧
        (new.map (·.1)).Sublist paths ∧
        ∀ p body, (p, body) ∈ new ↔ p ∈ paths ∧ Rewrites rx u disk rewrites p body := by
  induction paths generalizing s with
  | nil => exact .inr ⟨s.1, [], by simp [pure, Except.pure], by simp, by simp, by simp⟩
  | cons path paths ih =>
    rw [List.map_cons, List.foldlM_cons]
    rcases stepFile_spec (u := u) s path with
      ⟨e, hstep, hfail⟩ | ⟨counts, new, hstep, hok, hsub, hnew⟩
    · rw [hstep]
      exact .inl ⟨e, rfl, path, List.mem_cons_self, hfail⟩
    · rw [hstep]
      rcases ih (counts, s.2 ++ new) with ⟨e, hrun, p, hp, hfail⟩ | ⟨counts', rest, hrun, hok', hsub', hrest⟩
      · exact .inl ⟨e, hrun, p, List.mem_cons_of_mem _ hp, hfail⟩
      · refine .inr ⟨counts', new ++ rest, ?_, List.forall_mem_cons.mpr ⟨hok, hok'⟩, ?_, ?_⟩
        · rw [← List.append_assoc]
          exact hrun
        · rw [List.map_append]
          exact hsub.append hsub'
        · intro p body
          rw [List.mem_append, hnew, hrest, List.mem_cons, or_and_right]
          refine or_congr_left (and_congr_right ?_)
          rintro rfl
          exact Iff.rfl

theorem mem_firstSeen {paths : List Text} {path : Text} : path ∈ firstSeen paths ↔ path ∈ paths := by
  constructor
  · exact fun h => FirstOfEach.subset_firstOfEach h
  · intro h
    obtain ⟨p, hp, rfl⟩ := FirstOfEach.exists_firstOfEach id h
    exact hp

/-- In memory either a file fails, or every file has its text. -/
theorem rewriteInMemory_spec :
    (∃ e, rewriteInMemory rx u disk rewrites = .error e ∧
        ∃ r ∈ rewrites, Fails rx disk rewrites r.path) ∨
      ∃ counts pending, rewriteInMemory rx u disk rewrites = .ok (counts, pending) ∧
        (∀ r ∈ rewrites, ¬ Fails rx disk rewrites r.path) ∧ (pending.map (·.1)).Nodup ∧
        ∀ p body, (p, body) ∈ pending ↔
          p ∈ rewrites.map (·.path) ∧ Rewrites rx u disk rewrites p body := by
  rcases foldlM_stepFile (u := u)
      ([], []) with
    ⟨e, hrun, p, hp, hfail⟩ | ⟨counts, new, hrun, hok, hsub, hnew⟩
  · obtain ⟨r, hr, rfl⟩ := List.mem_map.mp (mem_firstSeen.mp hp)
    exact .inl ⟨e, hrun, r, hr, hfail⟩
  · refine .inr ⟨counts, new, hrun, fun r hr => ?_, hsub.nodup ?_, fun p body => ?_⟩
    · exact hok r.path (mem_firstSeen.mpr (List.mem_map_of_mem hr))
    · simpa [firstSeen] using FirstOfEach.nodup_firstOfEach id
        (l := rewrites.map (·.path))
    · rw [hnew, mem_firstSeen]

/-! ### The order of the plan -/

section Order

variable {plan : List FileRewrite} {path body : Text}

theorem entriesOf_perm (h : rewrites.Perm plan) (path : Text) :
    ((entriesOf rewrites path).map (·.1)).Perm ((entriesOf plan path).map (·.1)) := by
  rw [map_entriesOf, map_entriesOf]
  exact h.filter _

/-- In every file of the plan the entries of one rank are apart. -/
def Apart (rx : RegexCrate) (u : CharTables) (disk : Disk φ) (plan : List FileRewrite) : Prop :=
  ∀ path original, disk.read path = some original →
    TiedApart rx u original (plan.filter (·.path = path))

theorem old_ne_of_mem (hold : ∀ r ∈ plan, r.old ≠ []) (path : Text) :
    ∀ e ∈ entriesOf plan path, e.1.old ≠ [] := fun e he =>
  hold e.1 (mem_entriesOf.mp ⟨e, he, rfl⟩).1

/-- The text of a file does not depend on the order of the plan. -/
theorem rewrites_perm (hperm : rewrites.Perm plan) (hnodup : plan.Nodup)
    (hold : ∀ r ∈ plan, r.old ≠ []) (hapart : Apart rx u disk plan) :
    Rewrites rx u disk rewrites path body ↔ Rewrites rx u disk plan path body := by
  have hentries : ∀ original, disk.read path = some original →
      ∀ e, e ∈ fileEdits rx u original (entriesOf plan path) ↔
        e ∈ fileEdits rx u original (entriesOf rewrites path) := by
    intro original hread
    refine mem_fileEdits_of_perm (entriesOf_perm hperm path).symm ?_ ?_
    · rw [map_entriesOf]
      exact hnodup.filter _
    · rw [map_entriesOf]
      exact hapart path original hread
  unfold Rewrites
  refine exists_congr fun original => and_congr_right fun hread => ?_
  have hmem := hentries original hread
  have hnil : fileEdits rx u original (entriesOf rewrites path) = [] ↔
      fileEdits rx u original (entriesOf plan path) = [] := by
    simp only [List.eq_nil_iff_forall_not_mem, hmem]
  have hsorted : Splice.sorted (fileEdits rx u original (entriesOf rewrites path)) =
      Splice.sorted (fileEdits rx u original (entriesOf plan path)) := by
    have hold' : ∀ r ∈ rewrites, r.old ≠ [] := fun r hr => hold r (hperm.mem_iff.mp hr)
    exact Splice.sorted_eq (fileEdits_sound (old_ne_of_mem hold' path)).1
      (fileEdits_sound (old_ne_of_mem hold path)).1 fun e => (hmem e).symm
  simp only [ne_eq, hnil, applyEdits, hsorted]

theorem fails_perm (hperm : rewrites.Perm plan) :
    Fails rx disk rewrites path ↔ Fails rx disk plan path := by
  simp only [Fails, hperm.mem_iff]

end Order

/-! ### Writing -/

section Write

variable [DecidableEq φ] {canWrite : Text → Bool} {pending : List (Text × Text)} {f : φ}
  {path body : Text}

@[simp] theorem write_file (disk : Disk φ) (path body : Text) :
    (disk.write path body).file = disk.file := rfl

theorem write_content_self (disk : Disk φ) (path body : Text) :
    (disk.write path body).content (disk.file path) = some body := Function.update_self ..

theorem write_content_ne (disk : Disk φ) (body : Text) (h : disk.file path ≠ f) :
    (disk.write path body).content f = disk.content f := Function.update_of_ne h.symm ..

theorem writeAll_file (disk : Disk φ) : (writeAll canWrite disk pending).1.file = disk.file := by
  induction pending generalizing disk with
  | nil => rfl
  | cons p pending ih =>
    rw [writeAll]
    split
    · exact ih _
    · rfl

/-- A file is as it was, or it has its new text. -/
theorem writeAll_content (disk : Disk φ) (f : φ) :
    (writeAll canWrite disk pending).1.content f = disk.content f ∨ ∃ path body,
      (path, body) ∈ pending ∧ disk.file path = f ∧
        (writeAll canWrite disk pending).1.content f = some body := by
  induction pending generalizing disk with
  | nil => exact .inl rfl
  | cons p pending ih =>
    obtain ⟨path, body⟩ := p
    rw [writeAll]
    split
    · rcases ih (disk.write path body) with h | ⟨path', body', hmem, hfile, h⟩
      · by_cases hf : disk.file path = f
        · refine .inr ⟨path, body, List.mem_cons_self, hf, ?_⟩
          rw [h, ← hf, write_content_self]
        · exact .inl (h.trans (write_content_ne disk body hf))
      · exact .inr ⟨path', body', List.mem_cons_of_mem _ hmem, hfile, h⟩
    · exact .inl rfl

theorem writeAll_untouched (disk : Disk φ) (h : ∀ p ∈ pending, disk.file p.1 ≠ f) :
    (writeAll canWrite disk pending).1.content f = disk.content f := by
  rcases writeAll_content disk f with
    hsame | ⟨path, body, hmem, hfile, -⟩
  · exact hsame
  · exact absurd hfile (h _ hmem)

theorem writeAll_written (disk : Disk φ) (hok : (writeAll canWrite disk pending).2 = .ok ())
    (hnodup : (pending.map fun p => disk.file p.1).Nodup) (hmem : (path, body) ∈ pending) :
    (writeAll canWrite disk pending).1.content (disk.file path) = some body := by
  induction pending generalizing disk with
  | nil => cases hmem
  | cons p pending ih =>
    obtain ⟨hhead, htail⟩ := List.nodup_cons.mp hnodup
    rw [writeAll] at hok ⊢
    split at hok
    · next hcan =>
      rw [if_pos hcan]
      rcases List.mem_cons.mp hmem with rfl | hmem
      · rw [writeAll_untouched, write_content_self]
        rintro q hq heq
        exact hhead (List.mem_map.mpr ⟨q, hq, heq⟩)
      · exact ih (disk.write p.1 p.2) hok htail hmem
    · cases hok

theorem writeAll_error (disk : Disk φ) {e : RewriteError}
    (h : (writeAll canWrite disk pending).2 = .error e) : ∃ path, e = .write path := by
  induction pending generalizing disk with
  | nil => cases h
  | cons p pending ih =>
    rw [writeAll] at h
    split at h
    · exact ih _ h
    · cases h
      exact ⟨p.1, rfl⟩

theorem writeAll_all (disk : Disk φ) : (writeAll (fun _ => true) disk pending).2 = .ok () := by
  induction pending generalizing disk with
  | nil => rfl
  | cons p pending ih =>
    rw [writeAll, if_pos rfl]
    exact ih _

/-- Two lists of the same texts, written in full or in part. -/
theorem writeAll_agree {pending' : List (Text × Text)} (disk : Disk φ)
    (hmem : ∀ p, p ∈ pending ↔ p ∈ pending')
    (hnodup' : (pending'.map fun p => disk.file p.1).Nodup) (f : φ) :
    (writeAll canWrite disk pending).1.content f = disk.content f ∨
      (writeAll canWrite disk pending).1.content f =
        (writeAll (fun _ => true) disk pending').1.content f := by
  refine (writeAll_content disk f).imp_right ?_
  rintro ⟨path, body, hpath, rfl, hbody⟩
  rw [hbody, writeAll_written disk (writeAll_all disk) hnodup' ((hmem _).mp hpath)]

theorem writeAll_full {pending' : List (Text × Text)} (disk : Disk φ)
    (hmem : ∀ p, p ∈ pending ↔ p ∈ pending')
    (hnodup : (pending.map fun p => disk.file p.1).Nodup)
    (hnodup' : (pending'.map fun p => disk.file p.1).Nodup)
    (hok : (writeAll canWrite disk pending).2 = .ok ()) :
    (writeAll canWrite disk pending).1 = (writeAll (fun _ => true) disk pending').1 := by
  have hcontent : (writeAll canWrite disk pending).1.content =
      (writeAll (fun _ => true) disk pending').1.content := by
    funext f
    by_cases hf : ∃ p ∈ pending, disk.file p.1 = f
    · obtain ⟨⟨path, body⟩, hp, rfl⟩ := hf
      rw [writeAll_written disk hok hnodup hp,
        writeAll_written disk (writeAll_all disk) hnodup' ((hmem _).mp hp)]
    · have hout : ∀ p ∈ pending, disk.file p.1 ≠ f := fun p hp heq => hf ⟨p, hp, heq⟩
      rw [writeAll_untouched disk hout,
        writeAll_untouched disk fun p hp => hout p ((hmem p).mpr hp)]
  have hfile : (writeAll canWrite disk pending).1.file =
      (writeAll (fun _ => true) disk pending').1.file := by
    rw [writeAll_file, writeAll_file]
  calc (writeAll canWrite disk pending).1
      = ⟨(writeAll canWrite disk pending).1.file, (writeAll canWrite disk pending).1.content⟩ := rfl
    _ = (writeAll (fun _ => true) disk pending').1 := by rw [hfile, hcontent]

end Write

end Anodizer.VersionFiles
