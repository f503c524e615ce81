import Mathlib.Data.List.Basic

/-! # Splitting once

A list is split around the first or the last element that equals a separator.
-/

namespace SplitOnce

variable {α : Type*} [DecidableEq α] {sep : α} {s l r l' r' : List α}

/-- The parts before and after the first separator. -/
def first (sep : α) (s : List α) : Option (List α × List α) :=
  if sep ∈ s then some (s.takeWhile (· ≠ sep), (s.dropWhile (· ≠ sep)).tail) else none

/-- The parts before and after the last separator. -/
def last (sep : α) (s : List α) : Option (List α × List α) :=
  (first sep s.reverse).map fun (r, l) => (l.reverse, r.reverse)

theorem first_append (h : sep ∉ l) (r : List α) : first sep (l ++ sep :: r) = some (l, r) := by
  have hne : ∀ a ∈ l, decide (a ≠ sep) = true := fun a ha =>
    decide_eq_true fun heq => h (heq ▸ ha)
  rw [first, if_pos (by simp), List.takeWhile_append_of_pos hne, List.dropWhile_append_of_pos hne]
  simp

theorem first_eq_none : first sep s = none ↔ sep ∉ s := by
  rw [first]
  split <;> simp_all

theorem first_eq_some : first sep s = some (l, r) ↔ s = l ++ sep :: r ∧ sep ∉ l := by
  constructor
  · intro h
    by_cases hmem : sep ∈ s
    · obtain ⟨l', r', rfl, hl'⟩ := List.eq_append_cons_of_mem hmem
      rw [first_append hl'] at h
      obtain ⟨rfl, rfl⟩ := Prod.mk.inj (Option.some.inj h)
      exact ⟨rfl, hl'⟩
    · rw [first_eq_none.mpr hmem] at h
      cases h
  · rintro ⟨rfl, hl⟩
    exact first_append hl r

/-- Prefixes align at the first separator. -/
theorem prefix_iff (hl : sep ∉ l) (hl' : sep ∉ l') :
    l ++ sep :: r <+: l' ++ sep :: r' ↔ l = l' ∧ r <+: r' := by
  constructor
  · rintro ⟨t, ht⟩
    rw [List.append_assoc, List.cons_append] at ht
    have hfirst := first_append hl (r ++ t)
    rw [ht, first_append hl'] at hfirst
    obtain ⟨heq, hrest⟩ := Prod.mk.inj (Option.some.inj hfirst)
    exact ⟨heq.symm, t, hrest.symm⟩
  · rintro ⟨rfl, t, rfl⟩
    exact ⟨t, by simp⟩

omit [DecidableEq α] in
/-- A suffix without a separator lies behind the last one. -/
theorem suffix_of_suffix (hs : sep ∉ s) (h : s <:+ l ++ sep :: r) : s <:+ r := by
  rcases List.suffix_or_suffix_of_suffix h (List.suffix_append l (sep :: r)) with hin | hin
  · rcases List.suffix_cons_iff.mp hin with rfl | hin
    · exact absurd List.mem_cons_self hs
    · exact hin
  · exact absurd (hin.subset List.mem_cons_self) hs

theorem last_append (h : sep ∉ r) (l : List α) : last sep (l ++ sep :: r) = some (l, r) := by
  have hrev : (l ++ sep :: r).reverse = r.reverse ++ sep :: l.reverse := by simp
  rw [last, hrev, first_append (by simpa using h)]
  simp

theorem last_eq_none : last sep s = none ↔ sep ∉ s := by
  rw [last, Option.map_eq_none_iff, first_eq_none, List.mem_reverse]

theorem last_eq_some : last sep s = some (l, r) ↔ s = l ++ sep :: r ∧ sep ∉ r := by
  constructor
  · intro h
    rw [last, Option.map_eq_some_iff] at h
    obtain ⟨⟨r', l'⟩, hfirst, heq⟩ := h
    obtain ⟨rfl, rfl⟩ := Prod.mk.inj heq
    obtain ⟨hs, hr'⟩ := first_eq_some.mp hfirst
    refine ⟨?_, by simpa using hr'⟩
    rw [← List.reverse_reverse s, hs]
    simp
  · rintro ⟨rfl, hr⟩
    exact last_append hr l

end SplitOnce
