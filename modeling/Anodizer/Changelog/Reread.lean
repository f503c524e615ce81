import Anodizer.Changelog.Subsection

/-! # Reading a refreshed root again

A refresh moves blank lines and loses carriage returns. The parts of the root
are the same for all of its readers.
-/

namespace Anodizer.Changelog

open Template (Text)
open Cuts

variable {line line' : Text} {ls ls' : List Text} {crateName : Text}

/-! ### Blank lines -/

def nonblank (ls : List Text) : List Text := ls.filter fun line => !isBlank line

theorem nonblank_append (ls ls' : List Text) :
    nonblank (ls ++ ls') = nonblank ls ++ nonblank ls' := List.filter_append ..

theorem trimEnd_of_blank (h : isBlank line) : trimEnd line = [] :=
  List.rdropWhile_eq_nil_iff.mpr (isBlank_iff.mp h)

theorem blank_opens (h : isBlank line) :
    isUnreleasedHeading line = false ∧ opensCrate crateName line = false := by
  constructor
  · rw [isUnreleasedHeading, trimEnd_of_blank h]
    rfl
  · rw [opensCrate, isSubsectionHeading, trimEnd_of_blank h]
    rfl

theorem blank_ends (h : isBlank line) :
    endsBlock line = false ∧ endsSubsection line = false := by
  have hsection : isSectionHeading line = false := by
    rw [← Bool.not_eq_true, isSectionHeading, List.isPrefixOf_iff_prefix]
    rintro ⟨s, rfl⟩
    have hws := isBlank_iff.mp h '#' (by simp)
    exact absurd hws (by decide)
  have htrim : Template.trim line = [] := List.isEmpty_iff.mp h
  have hblock : endsBlock line = false := by
    rw [endsBlock, hsection, parseUnreleasedFooter, htrim]
    rfl
  refine ⟨hblock, ?_⟩
  rw [endsSubsection, hblock, isSubsectionHeading, trimEnd_of_blank h]
  rfl

/-- The unreleased changes of a root. -/
def block (ls : List Text) : Option (List Text) := part isUnreleasedHeading endsBlock ls

/-- The subsection of a crate in them. -/
def sub (crateName : Text) (ls : List Text) : Option (List Text) :=
  part (opensCrate crateName) endsSubsection ls

theorem block_nonblank (ls : List Text) : block (nonblank ls) = (block ls).map nonblank :=
  part_filter (fun line h => (@blank_opens _ [] (by simpa using h)).1)
    (fun line h => (blank_ends (by simpa using h)).1) ls

theorem sub_nonblank (ls : List Text) : sub crateName (nonblank ls) =
    (sub crateName ls).map nonblank :=
  part_filter (fun line h => (blank_opens (by simpa using h)).2)
    (fun line h => (blank_ends (by simpa using h)).2) ls

/-! ### Carriage returns -/

/-- The line as it is read again: a carriage return at its end may be lost. -/
def Reread (line line' : Text) : Prop := line' = line ∨ line' = Lines.stripCr line

theorem stripCr_cases (line : Text) :
    Lines.stripCr line = line ∨ line = Lines.stripCr line ++ ['\r'] := by
  rw [Lines.stripCr]
  split
  · next h => exact .inr (List.dropLast_append_getLast? '\r' h).symm
  · exact .inl rfl

theorem trimEnd_cr (s : Text) : trimEnd (s ++ ['\r']) = trimEnd s :=
  List.rdropWhile_concat_pos _ _ _ (by decide)

theorem trim_cr (s : Text) : Template.trim (s ++ ['\r']) = Template.trim s := by
  change trimEnd (Template.trimStart (s ++ ['\r'])) = trimEnd (Template.trimStart s)
  rw [Template.trimStart, Template.trimStart, List.dropWhile_append]
  split
  · next h =>
    rw [List.isEmpty_iff.mp h]
    rfl
  · exact trimEnd_cr _

theorem isPrefixOf_cr {mark : Text} (hmark : mark.getLast? ≠ some '\r') (s : Text) :
    mark.isPrefixOf (s ++ ['\r']) = mark.isPrefixOf s := by
  rw [Bool.eq_iff_iff, List.isPrefixOf_iff_prefix, List.isPrefixOf_iff_prefix]
  constructor
  · intro h
    rcases List.prefix_concat_iff.mp h with heq | hpre
    · have hlast := congrArg List.getLast? heq
      rw [List.getLast?_concat] at hlast
      exact absurd hlast hmark
    · exact hpre
  · exact fun h => h.trans (List.prefix_append _ _)

theorem isSectionHeading_cr (s : Text) : isSectionHeading (s ++ ['\r']) = isSectionHeading s :=
  isPrefixOf_cr (by decide) s

theorem Reread.same (h : Reread line line') : trimEnd line = trimEnd line' ∧
    Template.trim line = Template.trim line' ∧ isSectionHeading line = isSectionHeading line' := by
  rcases h with rfl | rfl
  · exact ⟨rfl, rfl, rfl⟩
  · rcases stripCr_cases line with h | h
    · rw [h]
      exact ⟨rfl, rfl, rfl⟩
    · generalize Lines.stripCr line = s at h
      rw [h]
      exact ⟨trimEnd_cr s, trim_cr s, isSectionHeading_cr s⟩

theorem Reread.opens (h : Reread line line') :
    isUnreleasedHeading line = isUnreleasedHeading line' ∧
      opensCrate crateName line = opensCrate crateName line' := by
  obtain ⟨hend, -, -⟩ := h.same
  rw [isUnreleasedHeading, isUnreleasedHeading, opensCrate, opensCrate, isSubsectionHeading,
    isSubsectionHeading, hend]
  exact ⟨rfl, rfl⟩

theorem Reread.ends (h : Reread line line') :
    endsBlock line = endsBlock line' ∧ endsSubsection line = endsSubsection line' := by
  obtain ⟨hend, htrim, hsection⟩ := h.same
  rw [endsSubsection, endsSubsection, endsBlock, endsBlock, parseUnreleasedFooter,
    parseUnreleasedFooter, isSubsectionHeading, isSubsectionHeading, hend, htrim, hsection]
  exact ⟨rfl, rfl⟩

theorem Reread.isBlank (h : Reread line line') : isBlank line = isBlank line' := by
  rw [Changelog.isBlank, Changelog.isBlank, h.same.2.1]

theorem Reread.eq_of_clean (h : Reread line line') (hclean : Lines.Clean line) : line' = line :=
  h.elim id fun h => h.trans (Lines.stripCr_of_clean hclean)

theorem eq_of_clean (h : List.Forall₂ Reread ls ls') (hclean : ∀ line ∈ ls, Lines.Clean line) :
    ls' = ls := by
  induction h with
  | nil => rfl
  | cons hline _ ih =>
    obtain ⟨hc, hcs⟩ := List.forall_mem_cons.mp hclean
    rw [hline.eq_of_clean hc, ih hcs]

/-- Related lines are blank alike. -/
theorem nonblank_forall₂ (h : List.Forall₂ Reread ls ls') :
    List.Forall₂ Reread (nonblank ls) (nonblank ls') := by
  induction h with
  | nil => exact .nil
  | cons hline _ ih =>
    rw [nonblank, nonblank, List.filter_cons, List.filter_cons, hline.isBlank]
    split
    · exact .cons hline ih
    · exact ih

/-! ### The end of the file -/

theorem nonblank_push (s : Collapse) (line : Text) :
    nonblank (s.push line).out = nonblank s.out ++ nonblank [line] := by
  rw [Collapse.push]
  split
  · exact nonblank_append ..
  split
  · next hb =>
    have hblank : isBlank line := (Bool.and_eq_true_iff.mp hb).2
    have hline : nonblank [line] = [] := by simp [nonblank, hblank]
    rw [hline, List.append_nil]
    dsimp only
    split
    · rfl
    · rw [nonblank_append]
      exact List.append_nil _
  · exact nonblank_append ..

theorem nonblank_rdropBlank (ls : List Text) : nonblank (ls.rdropWhile isBlank) = nonblank ls := by
  induction ls using List.reverseRecOn with
  | nil => rfl
  | append_singleton ls line ih =>
    by_cases hb : isBlank line
    · rw [List.rdropWhile_concat_pos _ _ _ hb, ih, nonblank_append]
      simp [nonblank, hb]
    · rw [List.rdropWhile_concat_neg _ _ _ hb]

/-- Collapsing drops blank lines only. -/
theorem nonblank_collapsed (ls : List Text) : nonblank (collapsed ls) = nonblank ls := by
  have hfold : ∀ (ls : List Text) (s : Collapse),
      nonblank (ls.foldl Collapse.push s).out = nonblank s.out ++ nonblank ls := by
    intro ls
    induction ls with
    | nil => exact fun s => (List.append_nil _).symm
    | cons line ls ih =>
      intro s
      rw [List.foldl_cons, ih, nonblank_push, List.append_assoc, ← nonblank_append]
      rfl
  rw [collapsed]
  split
  · exact hfold ls _
  · rw [nonblank_rdropBlank]
    exact hfold ls _

theorem reread_map (ls : List Text) : List.Forall₂ Reread ls (ls.map Lines.stripCr) := by
  induction ls with
  | nil => exact .nil
  | cons line ls ih => exact .cons (.inr rfl) ih

/-- The lines that are read are those that were written, up to blank ones. -/
theorem nonblank_joinLines (h : ∀ line ∈ ls, '\n' ∉ line) (trailing : Bool) :
    List.Forall₂ Reread (nonblank ls)
      (nonblank (Lines.lines (joinLines ls ++ if trailing then ['\n'] else []))) := by
  rcases List.eq_nil_or_concat ls with rfl | ⟨init, last, rfl⟩
  · cases trailing <;> exact .nil
  rw [List.concat_eq_append] at h ⊢
  have hend : nonblank (([last] : List Text).filter (· ≠ [])) = nonblank [last] := by
    cases last <;> rfl
  cases trailing with
  | true =>
    have hsplit := Lines.splitOn_intercalate (by simp) h []
    simp only [Lines.lines, joinLines, if_true, hsplit, List.splitOn_nil, List.dropLast_concat,
      List.getLast?_concat, Option.toList_some]
    have hnil : (([[]] : List Text).filter (· ≠ [])) = [] := rfl
    rw [hnil, List.append_nil]
    exact nonblank_forall₂ (reread_map _)
  | false =>
    have hsplit : (joinLines (init ++ [last])).splitOn '\n' = init ++ [last] :=
      List.splitOn_intercalate _ h (by simp)
    simp only [Lines.lines, Bool.false_eq_true, if_false, List.append_nil, hsplit,
      List.dropLast_concat, List.getLast?_concat, Option.toList_some]
    rw [nonblank_append, nonblank_append, hend]
    refine List.rel_append (nonblank_forall₂ (reread_map _)) (nonblank_forall₂ ?_)
    exact .cons (.inl rfl) .nil

theorem lines_finish (h : ∀ line ∈ ls, '\n' ∉ line) (trailing : Bool) :
    List.Forall₂ Reread (nonblank ls) (nonblank (Lines.lines (finish ls trailing))) := by
  have hcollapsed : ∀ line ∈ collapsed ls, '\n' ∉ line := by
    intro line hline
    rcases mem_collapsed hline with rfl | hline
    · simp
    · exact h line hline
  rw [← nonblank_collapsed ls]
  exact nonblank_joinLines hcollapsed trailing

end Anodizer.Changelog
