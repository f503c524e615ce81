import Mathlib.Data.List.Sort
import Mathlib.Order.Defs.LinearOrder

/-! # Stable sorting by a key

A stable sort keeps the entries of each key in their order, and does nothing else that could be
told from its result: two lists have the same sort when they have the same entries of each key.
-/

namespace StableSort

variable {α κ : Type*} [LinearOrder κ] {key : α → κ} {k : κ} {a : α} {l m : List α}

def sortBy (key : α → κ) (l : List α) : List α := l.insertionSort fun a b => key a ≤ key b

theorem perm_sortBy (key : α → κ) (l : List α) : (sortBy key l).Perm l :=
  List.perm_insertionSort _ _

theorem pairwise_sortBy (key : α → κ) (l : List α) :
    (sortBy key l).Pairwise fun a b => key a ≤ key b := by
  have : Std.Total fun a b : α => key a ≤ key b := ⟨fun a b => le_total _ _⟩
  have : IsTrans α fun a b => key a ≤ key b := ⟨fun _ _ _ h h' => h.trans h'⟩
  exact List.pairwise_insertionSort _ _

variable [DecidableEq κ]

theorem filter_orderedInsert (key : α → κ) (k : κ) (a : α) (l : List α) :
    (l.orderedInsert (fun a b => key a ≤ key b) a).filter (key · = k) =
      (a :: l).filter (key · = k) := by
  induction l with
  | nil => rfl
  | cons b l ih =>
    rw [List.orderedInsert]
    split
    · rfl
    · rename_i hlt
      have hba : key b < key a := not_le.mp hlt
      rw [List.filter_cons, ih, List.filter_cons, List.filter_cons, List.filter_cons]
      by_cases ha : key a = k
      · have hb : key b ≠ k := fun h => absurd (h.trans ha.symm) hba.ne
        simp [ha, hb]
      · simp [ha]

theorem filter_sortBy (key : α → κ) (k : κ) (l : List α) :
    (sortBy key l).filter (key · = k) = l.filter (key · = k) := by
  induction l with
  | nil => rfl
  | cons a l ih =>
    have hstep : sortBy key (a :: l) =
        (sortBy key l).orderedInsert (fun a b => key a ≤ key b) a := rfl
    rw [hstep, filter_orderedInsert, List.filter_cons, List.filter_cons, ih]

/-- No entry of a sorted list has a key before that of its head. -/
theorem filter_eq_nil_of_lt (h : (a :: l).Pairwise fun a b => key a ≤ key b) (hk : k < key a) :
    (a :: l).filter (key · = k) = [] := by
  rw [List.filter_eq_nil_iff]
  intro b hb
  have hab : key a ≤ key b := by
    rcases List.mem_cons.mp hb with rfl | hb
    · exact le_refl _
    · exact List.rel_of_pairwise_cons h hb
  simpa using (hk.trans_le hab).ne'

theorem eq_of_pairwise (hl : l.Pairwise fun a b => key a ≤ key b)
    (hm : m.Pairwise fun a b => key a ≤ key b)
    (h : ∀ k, l.filter (key · = k) = m.filter (key · = k)) : l = m := by
  induction l generalizing m with
  | nil =>
    cases m with
    | nil => rfl
    | cons b m => have := h (key b); simp at this
  | cons a l ih =>
    cases m with
    | nil => have := h (key a); simp at this
    | cons b m =>
      have hkey : key a = key b := by
        rcases lt_trichotomy (key a) (key b) with hlt | heq | hlt
        · have := h (key a); rw [filter_eq_nil_of_lt hm hlt] at this; simp at this
        · exact heq
        · have := h (key b); rw [filter_eq_nil_of_lt hl hlt] at this; simp at this
      have hhead : a = b := by
        have := h (key a)
        simp only [List.filter_cons, hkey, decide_true, if_true, List.cons.injEq] at this
        exact this.1
      subst hhead
      congr 1
      apply ih hl.of_cons hm.of_cons
      intro k
      have := h k
      simp only [List.filter_cons] at this
      split at this
      · exact List.tail_eq_of_cons_eq this
      · exact this

theorem sortBy_eq_sortBy : sortBy key l = sortBy key m ↔
    ∀ k, l.filter (key · = k) = m.filter (key · = k) := by
  constructor
  · intro h k
    rw [← filter_sortBy key k l, h, filter_sortBy]
  · intro h
    apply eq_of_pairwise (pairwise_sortBy key l) (pairwise_sortBy key m)
    intro k
    rw [filter_sortBy, filter_sortBy, h]

end StableSort
