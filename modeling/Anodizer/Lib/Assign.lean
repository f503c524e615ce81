import Mathlib.Data.List.Basic
import Mathlib.Logic.Function.Basic

/-! # Sequences of assignments

A map from keys to optional values is changed one key after another. The last
assignment of a key decides its value, and a key that is not assigned keeps the
value it had. A list of keys with the values of an earlier map brings the
earlier values of these keys back.
-/

namespace Assign

variable {K V : Type*} [DecidableEq K]

/-- Carry out the assignments in order. No value erases the key. -/
def assignAll (m : K → Option V) (l : List (K × Option V)) : K → Option V :=
  l.foldl (fun m e => Function.update m e.1 e.2) m

/-- The keys with the values that a map has at them. -/
def save (m : K → Option V) (keys : List K) : List (K × Option V) := keys.map fun k => (k, m k)

variable {m m' : K → Option V} {l : List (K × Option V)} {k : K} {o : Option V}

@[simp]
theorem assignAll_nil : assignAll m [] = m := rfl

@[simp]
theorem assignAll_cons {e : K × Option V} :
    assignAll m (e :: l) = assignAll (Function.update m e.1 e.2) l := rfl

/-- A loop whose every step assigns one key. -/
theorem foldl_eq_assignAll {β : Type*} {f : (K → Option V) → β → K → Option V} {g : β → K × Option V}
    {bs : List β} (h : ∀ b ∈ bs, ∀ m, f m b = Function.update m (g b).1 (g b).2) :
    bs.foldl f m = assignAll m (bs.map g) := by
  induction bs generalizing m with
  | nil => rfl
  | cons b bs ih =>
    rw [List.foldl_cons, h b List.mem_cons_self, List.map_cons, assignAll_cons]
    exact ih fun b' hb' => h b' (List.mem_cons_of_mem _ hb')

theorem assignAll_of_notMem (h : k ∉ l.map Prod.fst) : assignAll m l k = m k := by
  induction l generalizing m with
  | nil => rfl
  | cons e l ih =>
    rw [List.map_cons, List.mem_cons, not_or] at h
    rw [assignAll_cons, ih h.2, Function.update_of_ne h.1]

/-- What an assigned key holds does not depend on what it held. -/
theorem assignAll_congr (h : k ∈ l.map Prod.fst) : assignAll m l k = assignAll m' l k := by
  induction l generalizing m m' with
  | nil => exact absurd h List.not_mem_nil
  | cons e l ih =>
    by_cases hl : k ∈ l.map Prod.fst
    · exact ih hl
    · obtain rfl : k = e.1 := by
        rw [List.map_cons, List.mem_cons] at h
        exact h.resolve_right hl
      rw [assignAll_cons, assignAll_cons, assignAll_of_notMem hl, assignAll_of_notMem hl,
        Function.update_self, Function.update_self]

theorem assignAll_of_mem (hl : (l.map Prod.fst).Nodup) (h : (k, o) ∈ l) : assignAll m l k = o := by
  induction l generalizing m with
  | nil => exact absurd h List.not_mem_nil
  | cons e l ih =>
    rw [List.map_cons, List.nodup_cons] at hl
    rcases List.mem_cons.mp h with rfl | h
    · rw [assignAll_cons, assignAll_of_notMem hl.1, Function.update_self]
    · exact ih hl.2 h

omit [DecidableEq K] in
theorem map_fst_save (m : K → Option V) (keys : List K) : (save m keys).map Prod.fst = keys := by
  rw [save, List.map_map]
  exact List.map_id keys

theorem assignAll_save_self {keys : List K} : assignAll m (save m keys) = m := by
  induction keys with
  | nil => rfl
  | cons a keys ih => rwa [save, List.map_cons, assignAll_cons, Function.update_eq_self]

/-- The saved keys get their earlier values back. -/
theorem assignAll_save_of_mem {keys : List K} (h : k ∈ keys) :
    assignAll m' (save m keys) k = m k := by
  rw [assignAll_congr (by rwa [map_fst_save]), assignAll_save_self]

theorem assignAll_save_of_notMem {keys : List K} (h : k ∉ keys) :
    assignAll m' (save m keys) k = m' k :=
  assignAll_of_notMem (by rwa [map_fst_save])

end Assign
