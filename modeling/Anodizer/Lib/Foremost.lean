import Mathlib.Data.List.Basic
import Mathlib.Data.List.Nodup

/-! # The first of a kind

A search through a sorted list finds the first of a kind in the order of the list. Sorting with a
stable sort breaks ties by the order in which the entries were listed before.
-/

namespace Foremost

variable {α : Type*} {P : α → Prop} {le : α → α → Prop} {l m : List α} {o o' : Option α}

/-- The entry of a kind that precedes all others of its kind, if there is one of the kind. -/
def IsFirst (P : α → Prop) (le : α → α → Prop) (l : List α) : Option α → Prop
  | none => ∀ a ∈ l, ¬P a
  | some a => a ∈ l ∧ P a ∧ ∀ b ∈ l, P b → le a b

theorem IsFirst.unique (hanti : ∀ a ∈ l, ∀ b ∈ l, P a → P b → le a b → le b a → a = b)
    (h : IsFirst P le l o) (h' : IsFirst P le l o') : o = o' := by
  cases o with
  | none =>
    cases o' with
    | none => rfl
    | some b => exact absurd h'.2.1 (h b h'.1)
  | some a =>
    cases o' with
    | none => exact absurd h.2.1 (h' a h.1)
    | some b =>
      obtain ⟨ha, hPa, hfirst⟩ := h
      obtain ⟨hb, hPb, hfirst'⟩ := h'
      rw [hanti a ha b hb hPa hPb (hfirst b hb hPb) (hfirst' a ha hPa)]

theorem isFirst_find? {p : α → Bool} (hrefl : ∀ a, le a a) (hsorted : m.Pairwise le)
    (hmem : ∀ a, p a → (a ∈ m ↔ a ∈ l)) : IsFirst (p · = true) le l (m.find? p) := by
  cases hfind : m.find? p with
  | none =>
    intro a ha hp
    exact List.find?_eq_none.mp hfind a ((hmem a hp).mpr ha) hp
  | some a =>
    obtain ⟨hp, as, bs, rfl, hbefore⟩ := List.find?_eq_some_iff_append.mp hfind
    refine ⟨(hmem a hp).mp (by simp), hp, ?_⟩
    intro b hb hpb
    rcases List.mem_append.mp ((hmem b hpb).mpr hb) with hb | hb
    · have := hbefore b hb
      simp [hpb] at this
    · rcases List.mem_cons.mp hb with rfl | hb
      · exact hrefl b
      · exact List.rel_of_pairwise_cons (List.pairwise_append.mp hsorted).2.1 hb

/-- Two entries of a list stand in one of the two orders. -/
theorem pair_sublist {a b : α} (ha : a ∈ l) (hb : b ∈ l) (hne : a ≠ b) :
    [a, b].Sublist l ∨ [b, a].Sublist l := by
  obtain ⟨s, t, rfl⟩ := List.append_of_mem ha
  rcases List.mem_append.mp hb with hb | hb
  · right
    exact (List.singleton_sublist.mpr hb).append (List.singleton_sublist.mpr List.mem_cons_self)
  · left
    have hbt : b ∈ t := (List.mem_cons.mp hb).resolve_left (Ne.symm hne)
    exact ((List.singleton_sublist.mpr hbt).cons_cons a).trans (List.sublist_append_right s _)

theorem isFirst_head?_mergeSort {le : α → α → Bool} {before : α → α → Prop}
    (htrans : ∀ a b c, le a b → le b c → le a c) (htotal : ∀ a b, le a b || le b a)
    (hirrefl : ∀ a, ¬before a a) (hl : l.Pairwise before) :
    IsFirst (fun _ => True) (fun a b => le a b ∧ (le b a → a = b ∨ before a b)) l
      (l.mergeSort le).head? := by
  have hrefl : ∀ a, le a a := fun a => by simpa using htotal a a
  have hnodup : l.Nodup := by
    refine hl.imp fun {a b} hab => ?_
    rintro rfl
    exact hirrefl a hab
  cases hsort : l.mergeSort le with
  | nil =>
    intro a ha
    have hnil : a ∈ l.mergeSort le := List.mem_mergeSort.mpr ha
    simp [hsort] at hnil
  | cons x rest =>
    have hsorted := List.pairwise_mergeSort htrans htotal l
    have hperm := List.mergeSort_perm l le
    rw [hsort] at hsorted hperm
    have hx : x ∈ l := hperm.mem_iff.mp List.mem_cons_self
    have hxrest : x ∉ rest := (List.nodup_cons.mp (hperm.nodup_iff.mpr hnodup)).1
    refine ⟨hx, trivial, fun b hb _ => ?_⟩
    by_cases hbx : b = x
    · subst hbx
      exact ⟨hrefl b, fun _ => .inl rfl⟩
    · have hbrest : b ∈ rest :=
        (List.mem_cons.mp (hperm.mem_iff.mpr hb)).resolve_left hbx
      refine ⟨List.rel_of_pairwise_cons hsorted hbrest, fun hle => .inr ?_⟩
      rcases pair_sublist hx hb (Ne.symm hbx) with hsub | hsub
      · simpa using hl.sublist hsub
      · -- a tie keeps its order, so `b` would stand before the head
        have hkept := List.pair_sublist_mergeSort htrans htotal hle hsub
        rw [hsort] at hkept
        have htail : [b, x].Sublist rest := by
          cases hkept with
          | cons _ h => exact h
          | cons_cons _ h => exact absurd rfl hbx
        exact absurd (htail.subset (by simp)) hxrest

end Foremost
