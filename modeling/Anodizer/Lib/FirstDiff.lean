import Anodizer.Lib.Checked
import Mathlib.Data.List.Basic
import Mathlib.Tactic.Common

/-! # The first difference

Two lists are compared index by index, up to the end of the shorter one.
-/

namespace FirstDiff

open Checked

variable {α : Type} [DecidableEq α] {l m : List α} {a b : α} {i n : ℕ}

/-- The first index of both lists at which they differ. -/
@[grind =] def firstDiff : List α → List α → Option ℕ
  | a :: l, b :: m => if a = b then (firstDiff l m).map (· + 1) else some 0
  | _, _ => none

theorem firstDiff_nil (m : List α) : firstDiff [] m = none := by
  simp [firstDiff]

theorem firstDiff_eq_some : firstDiff l m = some i ↔
    (∃ a b, l[i]? = some a ∧ m[i]? = some b ∧ a ≠ b) ∧ ∀ j < i, l[j]? = m[j]? := by
  induction l generalizing m i with
  | nil => simp [firstDiff]
  | cons a l ih =>
    cases m with
    | nil => simp [firstDiff]
    | cons b m =>
      rw [firstDiff]
      by_cases hab : a = b
      · subst hab
        rw [if_pos rfl]
        cases i with
        | zero => simp
        | succ i =>
          have hall : (∀ j < i + 1, (a :: l)[j]? = (a :: m)[j]?) ↔ ∀ j < i, l[j]? = m[j]? := by
            constructor
            · intro h j hj
              simpa using h (j + 1) (by omega)
            · rintro h (_ | j) hj
              · rfl
              · simpa using h j (by omega)
          simp only [Option.map_eq_some_iff, Nat.add_right_cancel_iff, exists_eq_right, ih, hall,
            List.getElem?_cons_succ]
      · rw [if_neg hab]
        constructor
        · rintro h
          obtain rfl := Option.some.inj h
          exact ⟨⟨a, b, rfl, rfl, hab⟩, by simp⟩
        · rintro ⟨-, hall⟩
          cases i with
          | zero => rfl
          | succ i => exact absurd (by simpa using hall 0 (Nat.succ_pos i)) hab

theorem firstDiff_eq_none :
    firstDiff l m = none ↔ ∀ (i : ℕ) (a b : α), l[i]? = some a → m[i]? = some b → a = b := by
  induction l generalizing m with
  | nil => simp [firstDiff]
  | cons a l ih =>
    cases m with
    | nil => simp [firstDiff]
    | cons b m =>
      rw [firstDiff]
      constructor
      · intro h i
        split at h
        · next hab =>
          subst hab
          cases i with
          | zero => simp
          | succ i => simpa using ih.mp (Option.map_eq_none_iff.mp h) i
        · cases h
      · intro h
        rw [if_pos (h 0 a b rfl rfl), Option.map_eq_none_iff, ih]
        intro i c d hc hd
        exact h (i + 1) c d (by simpa using hc) (by simpa using hd)

theorem firstDiff_self (l : List α) : firstDiff l l = none := by
  rw [firstDiff_eq_none]
  intro i a b ha hb
  exact Option.some.inj (ha.symm.trans hb)

theorem firstDiff_append (p l m : List α) :
    firstDiff (p ++ l) (p ++ m) = (firstDiff l m).map (p.length + ·) := by
  induction p with
  | nil => simp
  | cons a p ih =>
    rw [List.cons_append, List.cons_append, firstDiff, if_pos rfl, ih, Option.map_map]
    refine congrArg (Option.map · _) (funext fun i => ?_)
    rw [Function.comp, List.length_cons]
    omega

/-- Lists of one length that do not differ are equal. -/
theorem eq_of_firstDiff_eq_none (h : firstDiff l m = none) (hlen : l.length = m.length) : l = m := by
  refine List.ext_getElem hlen fun i hl hm => ?_
  exact firstDiff_eq_none.mp h i _ _ (List.getElem?_eq_getElem hl) (List.getElem?_eq_getElem hm)

/-- A difference in the first elements is the first one of all. -/
theorem firstDiff_of_take (h : firstDiff (l.take n) (m.take n) = some i) :
    firstDiff l m = some i := by
  rw [firstDiff_eq_some] at h ⊢
  obtain ⟨⟨a, b, ha, hb, hab⟩, hall⟩ := h
  have hlt : i < n := by
    by_contra hge
    rw [List.getElem?_take, if_neg hge] at ha
    cases ha
  have htake : ∀ j ≤ i, ∀ k : List α, (k.take n)[j]? = k[j]? := by
    intro j hj k
    rw [List.getElem?_take, if_pos (by omega)]
  rw [htake i (Nat.le_refl i)] at ha hb
  refine ⟨⟨a, b, ha, hb, hab⟩, fun j hj => ?_⟩
  rw [← htake j (by omega) l, ← htake j (by omega) m, hall j hj]

theorem lt_of_firstDiff (h : firstDiff l m = some i) : i < l.length ∧ i < m.length := by
  obtain ⟨⟨a, b, ha, hb, -⟩, -⟩ := firstDiff_eq_some.mp h
  exact ⟨(List.getElem?_eq_some_iff.mp ha).1, (List.getElem?_eq_some_iff.mp hb).1⟩

/-! ### Searches that could fault -/

/-- The first of some indices at which two slices differ. -/
def findDiff (l m : List α) (indices : List ℕ) : Result (Option ℕ) :=
  indices.findM? fun i => do return decide ((← index l i) ≠ (← index m i))

theorem findDiff_range' (p q l m : List α) (hpq : p.length = q.length) :
    findDiff (p ++ l) (q ++ m) (List.range' p.length (min l.length m.length)) =
      .ok ((firstDiff l m).map (p.length + ·)) := by
  induction l generalizing p q m with
  | nil => simp [findDiff, firstDiff]; rfl
  | cons a l ih =>
    cases m with
    | nil => simp [findDiff, firstDiff]; rfl
    | cons b m =>
      have ha : index (p ++ a :: l) p.length = .ok a := by
        simp [index, orFault]
      have hb : index (q ++ b :: m) p.length = .ok b := by
        simp [index, orFault, hpq]
      have hmin : min (a :: l).length (b :: m).length = min l.length m.length + 1 := by
        rw [List.length_cons, List.length_cons]
        omega
      rw [findDiff, hmin, List.range'_succ, List.findM?, ha, hb]
      by_cases hab : a = b
      · have hrest := ih (p ++ [a]) (q ++ [b]) m (by simp [hpq])
        simp only [List.append_assoc, List.singleton_append, List.length_append,
          List.length_singleton] at hrest
        have hmap : (firstDiff (a :: l) (b :: m)).map (p.length + ·) =
            (firstDiff l m).map (p.length + 1 + ·) := by
          rw [firstDiff, if_pos hab, Option.map_map]
          refine congrArg (Option.map · _) (funext fun i => ?_)
          rw [Function.comp]
          omega
        rw [hmap, ← hrest]
        simp [hab, findDiff, Bind.bind, Except.bind, Pure.pure, Except.pure]
      · rw [firstDiff, if_neg hab]
        simp [hab, Bind.bind, Except.bind, Pure.pure, Except.pure]

theorem findDiff_range (l m : List α) :
    findDiff l m (List.range (min l.length m.length)) = .ok (firstDiff l m) := by
  have h := findDiff_range' [] [] l m rfl
  simpa [List.range_eq_range'] using h

end FirstDiff
