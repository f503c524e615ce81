import Anodizer.Changelog.Reread

/-! # What a text says

The lines of a text that are not blank, without the carriage returns of their endings. They are the
same however the lines are written.
-/

namespace Anodizer.Changelog

open Template (Text)

variable {line : Text} {ls ls' : List Text}

def chomp (line : Text) : Text := line.rdropWhile (· = '\r')

def contents (text : Text) : List Text := nonblank ((Lines.lines text).map chomp)

/-- What some lines say, when each is written on its own. -/
def written (ls : List Text) : List Text := ls.flatMap contents

theorem written_append (ls ls' : List Text) : written (ls ++ ls') = written ls ++ written ls' :=
  List.flatMap_append ..

theorem chomp_cr (s : Text) : chomp (s ++ ['\r']) = chomp s :=
  List.rdropWhile_concat_pos _ _ _ (by decide)

theorem chomp_stripCr (s : Text) : chomp (Lines.stripCr s) = chomp s := by
  rcases stripCr_cases s with h | h
  · rw [h]
  · conv_rhs => rw [h, chomp_cr]

/-- Only carriage returns are lost. -/
theorem exists_chomp (s : Text) : ∃ n, s = chomp s ++ List.replicate n '\r' := by
  refine ⟨(s.rtakeWhile (· = '\r')).length, ?_⟩
  have hall : ∀ c ∈ s.rtakeWhile (· = '\r'), c = '\r' := fun c hc => by
    simpa using List.mem_rtakeWhile_imp hc
  rw [← List.eq_replicate_of_mem hall]
  exact List.rdropWhile_append_rtakeWhile.symm

theorem trim_chomp (s : Text) : Template.trim (chomp s) = Template.trim s := by
  obtain ⟨n, hn⟩ := exists_chomp s
  conv_rhs => rw [hn]
  clear hn
  induction n with
  | zero => rw [List.replicate_zero, List.append_nil]
  | succ n ih => rw [List.replicate_succ', ← List.append_assoc, trim_cr, ih]

theorem isBlank_chomp (s : Text) : isBlank (chomp s) = isBlank s := by
  rw [isBlank, isBlank, trim_chomp]

theorem notFooter_chomp (s : Text) : notFooter (chomp s) = notFooter s := by
  rw [notFooter, notFooter, parseUnreleasedFooter, parseUnreleasedFooter, trim_chomp]

theorem nonblank_map_chomp (ls : List Text) :
    nonblank (ls.map chomp) = (nonblank ls).map chomp := by
  rw [nonblank, nonblank, List.filter_map]
  simp only [Function.comp_def, isBlank_chomp]

/-! ### Writing lines -/

/-- Carriage returns and an empty last line say nothing. -/
theorem contents_eq (s : Text) : contents s = nonblank ((s.splitOn '\n').map chomp) := by
  have hlast : ∀ l : Text, nonblank ([l].filter fun x => decide (x ≠ [])) = nonblank [l] := by
    intro l
    by_cases hl : l = []
    · rw [hl]
      rfl
    · rw [List.filter_eq_self.mpr (by simpa using hl)]
  obtain ⟨parts, l, hparts⟩ := (List.eq_nil_or_concat (s.splitOn '\n')).resolve_left
    (List.splitOn_ne_nil _ _)
  have hlines : Lines.lines s = parts.map Lines.stripCr ++ [l].filter fun x => decide (x ≠ []) := by
    rw [Lines.lines, hparts]
    simp
  rw [contents, hlines, hparts, List.concat_eq_append, List.map_append, List.map_append,
    List.map_map, nonblank_append, nonblank_append, nonblank_map_chomp (List.filter _ _), hlast,
    nonblank_map_chomp [l]]
  simp only [Function.comp_def, chomp_stripCr]

theorem contents_nil : contents [] = [] := rfl

theorem contents_append (s t : Text) : contents (s ++ '\n' :: t) = contents s ++ contents t := by
  rw [contents_eq, contents_eq, contents_eq, List.splitOn_append_cons_self, List.map_append,
    nonblank_append]

/-- Joined lines say what the lines do. -/
theorem contents_joinLines (ls : List Text) : contents (joinLines ls) = written ls := by
  induction ls with
  | nil => rfl
  | cons l ls ih =>
    cases ls with
    | nil => simp [joinLines, written]
    | cons l' ls =>
      have hcut : joinLines (l :: l' :: ls) = l ++ '\n' :: joinLines (l' :: ls) := by
        simp [joinLines, List.intercalate_cons_cons]
      rw [hcut, contents_append, ih]
      rfl

theorem contents_newline (s : Text) (p : Prop) [Decidable p] :
    contents (s ++ if p then ['\n'] else []) = contents s := by
  split
  · rw [contents_append, contents_nil, List.append_nil]
  · rw [List.append_nil]

/-- A line is its own text. -/
theorem contents_of_line (h : '\n' ∉ line) : contents line = nonblank [chomp line] := by
  rw [contents_eq, List.splitOn_eq_singleton h]
  rfl

theorem written_of_lines (h : ∀ line ∈ ls, '\n' ∉ line) :
    written ls = nonblank (ls.map chomp) := by
  induction ls with
  | nil => rfl
  | cons l ls ih =>
    obtain ⟨hl, hls⟩ := List.forall_mem_cons.mp h
    have hcons : written (l :: ls) = contents l ++ written ls := List.flatMap_cons
    rw [hcons, contents_of_line hl, ih hls, ← nonblank_append]
    rfl

theorem written_lines (s : Text) : written (Lines.lines s) = contents s :=
  written_of_lines fun _ => Lines.newline_not_mem

/-- A blank text says nothing. -/
theorem contents_of_blank (h : isBlank line) : contents line = [] := by
  rw [contents_eq, nonblank_map_chomp, List.map_eq_nil_iff, nonblank, List.filter_eq_nil_iff]
  intro l hl
  have hblank : isBlank l := isBlank_iff.mpr fun c hc =>
    isBlank_iff.mp h c (Lines.mem_of_mem_splitOn hl hc)
  rw [hblank]
  decide

theorem written_rdropWhile (ls : List Text) : written (ls.rdropWhile isBlank) = written ls := by
  have htail : written (ls.rtakeWhile isBlank) = [] :=
    List.flatMap_eq_nil_iff.mpr fun line hline =>
      contents_of_blank (List.mem_rtakeWhile_imp hline)
  conv_rhs =>
    rw [← @List.rdropWhile_append_rtakeWhile _ isBlank ls, written_append, htail, List.append_nil]

theorem filter_written (h : ∀ line ∈ ls, '\n' ∉ line) :
    (written ls).filter notFooter = written (ls.filter notFooter) := by
  rw [written_of_lines h, written_of_lines fun line hline => h line (List.mem_of_mem_filter hline),
    nonblank_map_chomp, nonblank_map_chomp, List.filter_map, nonblank, nonblank, List.filter_filter,
    List.filter_filter]
  simp only [Function.comp_def, notFooter_chomp, Bool.and_comm]

end Anodizer.Changelog
