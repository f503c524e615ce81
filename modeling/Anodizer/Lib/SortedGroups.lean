import Mathlib.Data.List.Induction
import Mathlib.Data.List.Sort
import Mathlib.Order.Defs.LinearOrder

/-! # Groups sorted by key

The elements of a list are collected into groups, one for each key, in ascending order of the keys.
A group holds the elements of its key in the order of the list.
-/

namespace SortedGroups

variable {α κ : Type*} [LinearOrder κ] (key : α → κ)

/-- Put an element in the group of its key, or in a new group at the place of the key. -/
def push (a : α) : List (κ × List α) → List (κ × List α)
  | [] => [(key a, [a])]
  | (k, g) :: gs =>
    if key a < k then (key a, [a]) :: (k, g) :: gs
    else if key a = k then (k, g ++ [a]) :: gs
    else (k, g) :: push a gs

def groups (l : List α) : List (κ × List α) := l.foldl (fun gs a => push key a gs) []

variable {key} {gs : List (κ × List α)} {a : α} {k : κ}

theorem mem_keys_push : k ∈ (push key a gs).map Prod.fst ↔ k = key a ∨ k ∈ gs.map Prod.fst := by
  induction gs with
  | nil => simp [push]
  | cons p gs ih =>
    obtain ⟨k', g⟩ := p
    rw [push]
    split
    · simp
    · split
      · next heq => simp [heq]
      · simp only [List.map_cons, List.mem_cons, ih]
        tauto

theorem sorted_push (h : gs.Pairwise fun p q => p.1 < q.1) :
    (push key a gs).Pairwise fun p q => p.1 < q.1 := by
  induction gs with
  | nil => exact List.pairwise_singleton _ _
  | cons p gs ih =>
    obtain ⟨hhead, htail⟩ := List.pairwise_cons.mp h
    obtain ⟨k', g⟩ := p
    rw [push]
    split
    · next hlt =>
      refine List.pairwise_cons.mpr ⟨fun q hq => ?_, h⟩
      rcases List.mem_cons.mp hq with rfl | hq
      · exact hlt
      · exact hlt.trans (hhead q hq)
    · next hlt =>
      split
      · exact List.pairwise_cons.mpr ⟨hhead, htail⟩
      · next hne =>
        refine List.pairwise_cons.mpr ⟨fun q hq => ?_, ih htail⟩
        rcases mem_keys_push.mp (List.mem_map_of_mem hq) with heq | hmem
        · exact heq ▸ lt_of_le_of_ne (not_lt.mp hlt) (Ne.symm hne)
        · obtain ⟨q', hq', heq⟩ := List.mem_map.mp hmem
          exact heq ▸ hhead q' hq'

/-- A group is an old one of another key, or that of the key with the element at its end. -/
theorem mem_push (h : gs.Pairwise fun p q => p.1 < q.1) {p : κ × List α} (hp : p ∈ push key a gs) :
    p ∈ gs ∧ p.1 ≠ key a ∨ (∃ g, (key a, g) ∈ gs ∧ p = (key a, g ++ [a])) ∨
      key a ∉ gs.map Prod.fst ∧ p = (key a, [a]) := by
  induction gs with
  | nil => exact .inr (.inr ⟨by simp, List.mem_singleton.mp hp⟩)
  | cons q gs ih =>
    obtain ⟨hhead, htail⟩ := List.pairwise_cons.mp h
    obtain ⟨k', g⟩ := q
    rw [push] at hp
    split at hp
    · next hlt =>
      have hnew : key a ∉ ((k', g) :: gs).map Prod.fst := by
        intro hmem
        rcases List.mem_cons.mp hmem with heq | hmem
        · exact hlt.ne heq
        · obtain ⟨q', hq', heq⟩ := List.mem_map.mp hmem
          exact (hlt.trans (hhead q' hq')).ne heq.symm
      rcases List.mem_cons.mp hp with rfl | hp
      · exact .inr (.inr ⟨hnew, rfl⟩)
      · exact .inl ⟨hp, fun heq => hnew (heq ▸ List.mem_map_of_mem hp)⟩
    · split at hp
      · next heq =>
        rcases List.mem_cons.mp hp with rfl | hp
        · exact .inr (.inl ⟨g, by simp [heq], by rw [heq]⟩)
        · exact .inl ⟨List.mem_cons_of_mem _ hp, fun hk => (hhead p hp).ne (heq ▸ hk.symm)⟩
      · next hne =>
        rcases List.mem_cons.mp hp with rfl | hp
        · exact .inl ⟨List.mem_cons_self, Ne.symm hne⟩
        · rcases ih htail hp with ⟨hp, hk⟩ | ⟨g', hg', rfl⟩ | ⟨hnew, rfl⟩
          · exact .inl ⟨List.mem_cons_of_mem _ hp, hk⟩
          · exact .inr (.inl ⟨g', List.mem_cons_of_mem _ hg', rfl⟩)
          · refine .inr (.inr ⟨?_, rfl⟩)
            rw [List.map_cons, List.mem_cons]
            exact fun hmem => hmem.elim hne hnew

variable [DecidableEq κ]

/-- The keys ascend, and each group holds the elements of its key. -/
structure Grouped (key : α → κ) (l : List α) (gs : List (κ × List α)) : Prop where
  sorted : gs.Pairwise fun p q => p.1 < q.1
  group : ∀ p ∈ gs, p.2 = l.filter (key · = p.1)
  mem_keys : ∀ k, k ∈ gs.map Prod.fst ↔ k ∈ l.map key

variable {l l' : List α} {gs' : List (κ × List α)}

theorem Grouped.push (h : Grouped key l gs) (a : α) :
    Grouped key (l ++ [a]) (push key a gs) where
  sorted := sorted_push h.sorted
  group p hp := by
    rw [List.filter_append]
    rcases mem_push h.sorted hp with ⟨hp, hk⟩ | ⟨g, hg, rfl⟩ | ⟨hnew, rfl⟩
    · simp [← h.group p hp, Ne.symm hk]
    · have hgroup : g = l.filter (key · = key a) := h.group _ hg
      simp [hgroup]
    · rw [h.mem_keys] at hnew
      have hnone : l.filter (key · = key a) = [] := by
        rw [List.filter_eq_nil_iff]
        intro b hb heq
        exact hnew ((decide_eq_true_eq.mp heq) ▸ List.mem_map_of_mem hb)
      simp [hnone]
  mem_keys k := by
    rw [mem_keys_push, h.mem_keys, List.map_append, List.mem_append, or_comm]
    simp

theorem grouped (key : α → κ) (l : List α) : Grouped key l (groups key l) := by
  induction l using List.reverseRecOn with
  | nil => exact ⟨.nil, by simp [groups], by simp [groups]⟩
  | append_singleton l a ih =>
    rw [groups, List.foldl_append]
    exact ih.push a

/-- The groups are given by the keys. -/
theorem Grouped.eq_map (h : Grouped key l gs) :
    gs = (gs.map Prod.fst).map fun k => (k, l.filter (key · = k)) := by
  rw [List.map_map]
  conv_lhs => rw [← List.map_id gs]
  exact List.map_congr_left fun p hp => Prod.ext rfl (h.group p hp)

/-- A list in another order has the same groups in other orders. -/
theorem Grouped.perm (h : Grouped key l gs) (h' : Grouped key l' gs') (hl : l.Perm l') :
    List.Forall₂ (fun p q => p.1 = q.1 ∧ p.2.Perm q.2) gs gs' := by
  have hkeys : gs.map Prod.fst = gs'.map Prod.fst := by
    refine List.Pairwise.eq_of_mem_iff (r := (· < ·)) (List.pairwise_map.mpr h.sorted)
      (List.pairwise_map.mpr h'.sorted) fun k => ?_
    rw [h.mem_keys, h'.mem_keys, (hl.map key).mem_iff]
  rw [h.eq_map, h'.eq_map, hkeys]
  rw [List.forall₂_map_left_iff, List.forall₂_map_right_iff]
  exact List.forall₂_same.mpr fun k _ => ⟨rfl, hl.filter _⟩

end SortedGroups
