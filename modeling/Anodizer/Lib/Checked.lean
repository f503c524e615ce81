import Mathlib.Algebra.Group.Nat.Defs
import Mathlib.Data.List.Basic
import Mathlib.Tactic.Common

/-! # Checked slices and arithmetic

An index past the end of a slice and a result past the width of its type are faults. The checked
operations return nothing instead.
-/

namespace Checked

/-- Why a computation is aborted. -/
inductive Fault
  | outOfBounds
  | overflow
  deriving DecidableEq, Repr

abbrev Result (α : Type*) := Except Fault α

variable {α : Type*} {w a b start stop : ℕ} {l l' : List α}

def checkedAdd (w a b : ℕ) : Option ℕ := if a + b < 2 ^ w then some (a + b) else none

def checkedMul (w a b : ℕ) : Option ℕ := if a * b < 2 ^ w then some (a * b) else none

/-- The elements from one place up to another. -/
def range (l : List α) (start stop : ℕ) : Option (List α) :=
  if start ≤ stop ∧ stop ≤ l.length then some ((l.drop start).take (stop - start)) else none

def orFault (f : Fault) : Option α → Result α
  | some a => .ok a
  | none => .error f

def add (w a b : ℕ) : Result ℕ := orFault .overflow (checkedAdd w a b)

def mul (w a b : ℕ) : Result ℕ := orFault .overflow (checkedMul w a b)

def slice (l : List α) (start stop : ℕ) : Result (List α) :=
  orFault .outOfBounds (range l start stop)

def index (l : List α) (i : ℕ) : Result α := orFault .outOfBounds l[i]?

theorem checkedAdd_of_lt (h : a + b < 2 ^ w) : checkedAdd w a b = some (a + b) := if_pos h

theorem checkedMul_of_lt (h : a * b < 2 ^ w) : checkedMul w a b = some (a * b) := if_pos h

theorem add_of_lt (h : a + b < 2 ^ w) : add w a b = .ok (a + b) := by
  rw [add, checkedAdd_of_lt h, orFault]

theorem mul_of_lt (h : a * b < 2 ^ w) : mul w a b = .ok (a * b) := by
  rw [mul, checkedMul_of_lt h, orFault]

theorem eq_of_checkedAdd {c : ℕ} (h : checkedAdd w a b = some c) : c = a + b :=
  (Option.some.inj (Option.ite_none_right_eq_some.mp h).2).symm

theorem eq_of_checkedMul {c : ℕ} (h : checkedMul w a b = some c) : c = a * b :=
  (Option.some.inj (Option.ite_none_right_eq_some.mp h).2).symm

theorem eq_of_add {c : ℕ} (h : add w a b = .ok c) : c = a + b := by
  cases hsum : checkedAdd w a b with
  | none => simp [add, hsum, orFault] at h
  | some d =>
    simp only [add, hsum, orFault, Except.ok.injEq] at h
    rw [← h, eq_of_checkedAdd hsum]

theorem range_of_le (hle : start ≤ stop) (h : stop ≤ l.length) :
    range l start stop = some ((l.drop start).take (stop - start)) := if_pos ⟨hle, h⟩

theorem range_of_lt (h : l.length < stop) : range l start stop = none :=
  if_neg fun hin => absurd hin.2 (Nat.not_le.mpr h)

theorem le_of_range (h : range l start stop = some l') : stop ≤ l.length :=
  (Option.ite_none_right_eq_some.mp h).1.2

theorem slice_of_le (hle : start ≤ stop) (h : stop ≤ l.length) :
    slice l start stop = .ok ((l.drop start).take (stop - start)) := by
  rw [slice, range_of_le hle h, orFault]

theorem slice_of_lt (h : l.length < stop) : slice l start stop = .error .outOfBounds := by
  rw [slice, range_of_lt h, orFault]

/-- The part of a slice behind a part of a known length. -/
theorem range_of_append {p m q : List α} (h : l = p ++ (m ++ q)) (hstart : p.length = start)
    (hstop : start + m.length = stop) : range l start stop = some m := by
  have hle : stop ≤ l.length := by
    rw [h, List.length_append, List.length_append]
    omega
  rw [range_of_le (by omega) hle, h, ← hstart, List.drop_left]
  exact congrArg some (List.take_left' (by omega))

theorem slice_of_append {p m q : List α} (h : l = p ++ (m ++ q)) (hstart : p.length = start)
    (hstop : start + m.length = stop) : slice l start stop = .ok m := by
  rw [slice, range_of_append h hstart hstop, orFault]

theorem index_of_lt (h : a < l.length) : index l a = .ok l[a] := by
  rw [index, List.getElem?_eq_getElem h, orFault]

/-- Two slices that start alike are alike up to there. -/
theorem range_congr {n : ℕ} (h : l.take n = l'.take n) (hn : stop ≤ n) :
    range l start stop = range l' start stop := by
  have htake : ∀ k ≤ n, l.take k = l'.take k := by
    intro k hk
    rw [← Nat.min_eq_left hk, ← List.take_take, h, List.take_take]
  have hlen : stop ≤ l.length ↔ stop ≤ l'.length := by
    have := congrArg List.length (htake stop hn)
    rw [List.length_take, List.length_take] at this
    omega
  simp only [range, hlen, ← List.drop_take, htake stop hn]

/-- A slice of a slice. -/
theorem range_slice {offset len : ℕ} (h : stop ≤ len) (hin : offset + len ≤ l.length) :
    range ((l.drop offset).take len) start stop = range l (offset + start) (offset + stop) := by
  have hlen : ((l.drop offset).take len).length = len := by
    rw [List.length_take, List.length_drop]
    omega
  by_cases hle : start ≤ stop
  · rw [range_of_le hle (hlen.symm ▸ h), range_of_le (by omega) (by omega), List.drop_take,
      List.take_take, List.drop_drop]
    congr 2
    omega
  · rw [range, range, if_neg (by omega), if_neg (by omega)]

/-- The first elements, one by one. -/
theorem mapM_index (h : a ≤ l.length) : (List.range a).mapM (index l) = .ok (l.take a) := by
  induction a with
  | zero => rfl
  | succ n ih =>
    rw [List.range_succ, List.mapM_append, ih (by omega), List.take_succ_eq_append_getElem (by omega)]
    simp only [List.mapM_cons, index_of_lt (show n < l.length by omega)]
    rfl

end Checked
