import Mathlib.Data.List.DropRight
import Mathlib.Data.List.TakeWhile

/-! # Words

The words of a list are the runs between its separators. They do not change when separators are
added or removed at the ends, and the words of a list put together from parts with separators
between them are the words of the parts.
-/

namespace Words

variable {α : Type*} {sep : α → Bool} {c : α} {s t w : List α} {ls : List (List α)}

def IsWord (sep : α → Bool) (t w : List α) : Prop := w ≠ [] ∧ w ∈ t.splitOnP sep

theorem isWord_append_cons (hc : sep c) :
    IsWord sep (s ++ c :: t) w ↔ IsWord sep s w ∨ IsWord sep t w := by
  unfold IsWord
  rw [List.splitOnP_append_cons s t hc, List.mem_append]
  tauto

theorem not_isWord_nil : ¬IsWord sep [] w := by
  rintro ⟨hne, hw⟩
  exact hne (by simpa using hw)

theorem isWord_cons (hc : sep c) : IsWord sep (c :: t) w ↔ IsWord sep t w := by
  have h := isWord_append_cons (s := []) (t := t) (w := w) hc
  simpa [not_isWord_nil] using h

theorem not_isWord_of_all (hs : ∀ c ∈ s, sep c) : ¬IsWord sep s w := by
  induction s with
  | nil => exact not_isWord_nil
  | cons c s ih =>
    obtain ⟨hc, hs⟩ := List.forall_mem_cons.mp hs
    rw [isWord_cons hc]
    exact ih hs

theorem isWord_append_right (hs : ∀ c ∈ s, sep c) :
    IsWord sep (t ++ s) w ↔ IsWord sep t w := by
  cases s with
  | nil => simp
  | cons c s =>
    obtain ⟨hc, hs⟩ := List.forall_mem_cons.mp hs
    rw [isWord_append_cons hc, or_iff_left (not_isWord_of_all hs)]

theorem isWord_append_left (hs : ∀ c ∈ s, sep c) :
    IsWord sep (s ++ t) w ↔ IsWord sep t w := by
  induction s with
  | nil => rfl
  | cons c s ih =>
    obtain ⟨hc, hs⟩ := List.forall_mem_cons.mp hs
    rw [List.cons_append, isWord_cons hc, ih hs]

theorem isWord_dropWhile : IsWord sep (t.dropWhile sep) w ↔ IsWord sep t w := by
  have hall : ∀ c ∈ t.takeWhile sep, sep c := fun c hc => List.mem_takeWhile_imp hc
  have h := isWord_append_left (t := t.dropWhile sep) (w := w) hall
  rw [List.takeWhile_append_dropWhile] at h
  exact h.symm

theorem isWord_rdropWhile : IsWord sep (t.rdropWhile sep) w ↔ IsWord sep t w := by
  have hall : ∀ c ∈ t.rtakeWhile sep, sep c := fun c hc => List.mem_rtakeWhile_imp hc
  have h := isWord_append_right (t := t.rdropWhile sep) (w := w) hall
  rw [List.rdropWhile_append_rtakeWhile] at h
  exact h.symm

theorem isWord_intercalate (hc : sep c) :
    IsWord sep ([c].intercalate ls) w ↔ ∃ l ∈ ls, IsWord sep l w := by
  induction ls with
  | nil => simp [not_isWord_nil]
  | cons l ls ih =>
    cases ls with
    | nil => simp
    | cons l' ls =>
      have hcut : [c].intercalate (l :: l' :: ls) = l ++ c :: [c].intercalate (l' :: ls) := by
        simp [List.intercalate_cons_cons]
      rw [hcut, isWord_append_cons hc, ih]
      simp

theorem isWord_splitOn [DecidableEq α] (hc : sep c) :
    IsWord sep t w ↔ ∃ l ∈ t.splitOn c, IsWord sep l w := by
  rw [← isWord_intercalate hc, List.intercalate_splitOn]

end Words
