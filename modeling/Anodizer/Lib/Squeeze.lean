import Mathlib.Data.List.DropRight

/-! # Runs of gaps

A list is read up to the length of its runs of gaps: every run counts as one,
and a run at the end does not count.
-/

namespace Squeeze

variable {α : Type*} {isGap : α → Bool} {gap a b : α} {l l' : List α}

/-- What stands after an element that is kept is dropped on its own. -/
theorem rdropWhile_append_cons (ha : isGap a = false) (s t : List α) :
    (s ++ a :: t).rdropWhile isGap = s ++ a :: t.rdropWhile isGap := by
  induction t using List.reverseRecOn with
  | nil =>
    rw [List.rdropWhile_concat_neg _ _ _ (by simp [ha])]
    rfl
  | append_singleton t b ih =>
    have hassoc : s ++ a :: (t ++ [b]) = (s ++ a :: t) ++ [b] := by simp
    rw [hassoc]
    by_cases hb : isGap b
    · rw [List.rdropWhile_concat_pos _ _ _ hb, List.rdropWhile_concat_pos _ _ _ hb]
      exact ih
    · rw [List.rdropWhile_concat_neg _ _ _ hb, List.rdropWhile_concat_neg _ _ _ hb]
      simp

variable (isGap gap) in
/-- Make every run of gaps one, and drop the last run. -/
@[grind =] def squeeze : List α → List α
  | [] => []
  | a :: l =>
    if isGap a then
      match squeeze l with
      | [] => []
      | b :: rest => if isGap b then b :: rest else gap :: b :: rest
    else a :: squeeze l

/-- All gaps are the same. -/
theorem squeeze_gap (ha : isGap a) (hb : isGap b) (l : List α) :
    squeeze isGap gap (a :: l) = squeeze isGap gap (b :: l) := by
  rw [squeeze, squeeze, if_pos ha, if_pos hb]

/-- Two gaps count as one. -/
theorem squeeze_gap_gap (hgap : isGap gap) (ha : isGap a) (hb : isGap b) (l : List α) :
    squeeze isGap gap (a :: b :: l) = squeeze isGap gap (a :: l) := by
  rw [squeeze, squeeze, if_pos ha, if_pos hb, squeeze, if_pos ha]
  cases squeeze isGap gap l with
  | nil => rfl
  | cons c rest => by_cases hc : isGap c <;> simp [hc, hgap]

theorem squeeze_congr (s : List α) (h : squeeze isGap gap l = squeeze isGap gap l') :
    squeeze isGap gap (s ++ l) = squeeze isGap gap (s ++ l') := by
  induction s with
  | nil => exact h
  | cons a s ih => rw [List.cons_append, List.cons_append, squeeze, squeeze, ih]

theorem squeeze_gaps (h : ∀ a ∈ l, isGap a) : squeeze isGap gap l = [] := by
  induction l with
  | nil => rfl
  | cons a l ih =>
    obtain ⟨ha, hl⟩ := List.forall_mem_cons.mp h
    rw [squeeze, if_pos ha, ih hl]

/-- Gaps at the end do not count. -/
theorem squeeze_append_gaps (s : List α) (h : ∀ a ∈ l, isGap a) :
    squeeze isGap gap (s ++ l) = squeeze isGap gap s := by
  have hnil : squeeze isGap gap l = squeeze isGap gap [] := squeeze_gaps h
  rw [squeeze_congr s hnil, List.append_nil]

theorem squeeze_rdropWhile (l : List α) :
    squeeze isGap gap (l.rdropWhile isGap) = squeeze isGap gap l := by
  induction l using List.reverseRecOn with
  | nil => rfl
  | append_singleton l a ih =>
    by_cases ha : isGap a
    · rw [List.rdropWhile_concat_pos _ _ _ ha, ih, squeeze_append_gaps l (by simpa using ha)]
    · rw [List.rdropWhile_concat_neg _ _ _ ha]

/-- What is no gap stays. -/
theorem mem_squeeze (ha : isGap a = false) (h : a ∈ l) : a ∈ squeeze isGap gap l := by
  induction l with
  | nil => cases h
  | cons b l ih =>
    rw [squeeze]
    rcases List.mem_cons.mp h with rfl | h
    · rw [ha, if_neg Bool.false_ne_true]
      exact List.mem_cons_self
    · split
      · have hmem := ih h
        cases hs : squeeze isGap gap l with
        | nil =>
          rw [hs] at hmem
          cases hmem
        | cons c rest =>
          rw [hs] at hmem
          dsimp only
          split
          · exact hmem
          · exact List.mem_cons_of_mem _ hmem
      · exact List.mem_cons_of_mem _ (ih h)

/-- Squeezing adds only gaps. -/
theorem mem_of_mem_squeeze (h : a ∈ squeeze isGap gap l) : a = gap ∨ a ∈ l := by
  induction l with
  | nil => cases h
  | cons b l ih =>
    rw [squeeze] at h
    split at h
    · cases hs : squeeze isGap gap l with
      | nil =>
        rw [hs] at h
        cases h
      | cons c rest =>
        rw [hs] at h ih
        dsimp only at h
        split at h
        · exact (ih h).imp_right (List.mem_cons_of_mem _)
        · rcases List.mem_cons.mp h with rfl | h
          · exact .inl rfl
          · exact (ih h).imp_right (List.mem_cons_of_mem _)
    · rcases List.mem_cons.mp h with rfl | h
      · exact .inr List.mem_cons_self
      · exact (ih h).imp_right (List.mem_cons_of_mem _)

end Squeeze
