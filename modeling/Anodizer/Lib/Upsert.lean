import Mathlib.Data.List.Nodup
import Mathlib.Data.List.Induction

/-! # Lists updated by key

An update replaces the first element of its key, or adds one at the end. A list all of whose
own elements are folded into an earlier version of it comes out unchanged, when no key is
repeated or the key is the element.
-/

namespace Upsert

variable {α κ : Type*} [DecidableEq κ] (key : α → κ)

/-- Put `x` in the place of the first element of its key, or at the end. -/
@[grind =] def upsert (x : α) : List α → List α
  | [] => [x]
  | y :: ys => if key y = key x then x :: ys else y :: upsert x ys

def upsertAll (xs : List α) (l : List α) : List α := xs.foldl (fun acc x => upsert key x acc) l

variable {key} {x y : α} {k : κ} {l l' xs ys : List α}

@[simp] theorem upsertAll_nil : upsertAll key [] l = l := rfl

theorem upsertAll_cons : upsertAll key (x :: xs) l = upsertAll key xs (upsert key x l) := rfl

theorem upsertAll_append : upsertAll key (xs ++ ys) l = upsertAll key ys (upsertAll key xs l) :=
  List.foldl_append

theorem keys_upsert (l : List α) : (upsert key x l).map key =
    if key x ∈ l.map key then l.map key else l.map key ++ [key x] := by
  induction l with
  | nil => simp [upsert]
  | cons y ys ih =>
    rw [upsert]
    by_cases hy : key y = key x
    · simp [hy]
    · rw [if_neg hy, List.map_cons, ih, List.map_cons]
      by_cases hx : key x ∈ ys.map key
      · rw [if_pos hx, if_pos (List.mem_cons_of_mem _ hx)]
      · rw [if_neg hx, if_neg (List.not_mem_cons_of_ne_of_not_mem (Ne.symm hy) hx),
          List.cons_append]

theorem nodup_upsert (h : (l.map key).Nodup) : ((upsert key x l).map key).Nodup := by
  rw [keys_upsert]
  split
  · exact h
  · next hx => exact h.append (List.nodup_singleton _) (by simpa using hx)

theorem nodup_upsertAll (h : (l.map key).Nodup) : ((upsertAll key xs l).map key).Nodup := by
  induction xs generalizing l with
  | nil => exact h
  | cons x xs ih => exact ih (nodup_upsert h)

theorem upsert_of_notMem (h : key x ∉ l.map key) : upsert key x l = l ++ [x] := by
  induction l with
  | nil => rfl
  | cons y ys ih =>
    rw [List.map_cons, List.mem_cons, not_or] at h
    rw [upsert, if_neg (Ne.symm h.1), ih h.2, List.cons_append]

theorem upsert_append_cons (hx : key y = key x) (hl : key x ∉ l.map key) :
    upsert key x (l ++ y :: l') = l ++ x :: l' := by
  induction l with
  | nil => rw [List.nil_append, upsert, if_pos hx, List.nil_append]
  | cons z l ih =>
    rw [List.map_cons, List.mem_cons, not_or] at hl
    rw [List.cons_append, upsert, if_neg (Ne.symm hl.1), ih hl.2, List.cons_append]

/-- The first element of a key, and where it stands. -/
theorem exists_first (h : k ∈ l.map key) :
    ∃ init y rest, l = init ++ y :: rest ∧ key y = k ∧ k ∉ init.map key := by
  induction l with
  | nil => cases h
  | cons z l ih =>
    by_cases hz : key z = k
    · exact ⟨[], z, l, rfl, hz, by simp⟩
    · rw [List.map_cons, List.mem_cons] at h
      obtain ⟨init, y, rest, rfl, hy, hinit⟩ := ih (h.resolve_left (Ne.symm hz))
      exact ⟨z :: init, y, rest, rfl, hy, List.not_mem_cons_of_ne_of_not_mem (Ne.symm hz) hinit⟩

/-- The later of two updates of one key stands. -/
theorem upsert_upsert (h : key y = key x) : upsert key x (upsert key y l) = upsert key x l := by
  induction l with
  | nil => simp [upsert, h]
  | cons z l ih =>
    by_cases hz : key z = key x
    · rw [upsert, if_pos (hz.trans h.symm), upsert, if_pos h, upsert, if_pos hz]
    · rw [upsert, if_neg (h ▸ hz), upsert, if_neg hz, ih, upsert, if_neg hz]

/-- Updates of two keys commute, when the first is there. -/
theorem upsert_comm (h : key y ≠ key x) (hx : key x ∈ l.map key) :
    upsert key y (upsert key x l) = upsert key x (upsert key y l) := by
  induction l with
  | nil => cases hx
  | cons z l ih =>
    rw [List.map_cons, List.mem_cons] at hx
    by_cases hzx : key z = key x
    · have hzy : key z ≠ key y := fun he => h (he.symm.trans hzx)
      rw [upsert, if_pos hzx, upsert, if_neg (Ne.symm h), upsert.eq_def key y (z :: l)]
      dsimp only
      rw [if_neg hzy, upsert, if_pos hzx]
    · have hl := hx.resolve_left (Ne.symm hzx)
      by_cases hzy : key z = key y
      · rw [upsert, if_neg hzx, upsert, if_pos hzy, upsert.eq_def key y (z :: l)]
        dsimp only
        rw [if_pos hzy, upsert, if_neg h]
      · rw [upsert, if_neg hzx, upsert, if_neg hzy, ih hl, upsert.eq_def key y (z :: l)]
        dsimp only
        rw [if_neg hzy, upsert, if_neg hzx]

theorem upsertAll_upsert_comm (h : key x ∉ xs.map key) (hx : key x ∈ l.map key) :
    upsertAll key xs (upsert key x l) = upsert key x (upsertAll key xs l) := by
  induction xs generalizing l with
  | nil => rfl
  | cons y ys ih =>
    rw [List.map_cons, List.mem_cons, not_or] at h
    rw [upsertAll_cons, upsert_comm (Ne.symm h.1) hx, ih h.2, upsertAll_cons]
    rw [keys_upsert]
    split
    · exact hx
    · exact List.mem_append_left _ hx

/-- Updating with what an earlier version has become gives what it has become. -/
theorem upsertAll_fixed_upsert (hl : (l.map key).Nodup) (h : upsertAll key l' l = l') (x : α) :
    upsertAll key (upsert key x l') l = upsert key x l' := by
  have hl' : (l'.map key).Nodup := h ▸ nodup_upsertAll hl
  by_cases hx : key x ∈ l'.map key
  · obtain ⟨init, y, rest, rfl, hy, hinit⟩ := exists_first hx
    rw [upsert_append_cons hy hinit]
    rw [upsertAll_append, upsertAll_cons] at h ⊢
    have hrest : key x ∉ rest.map key := by
      rw [List.map_append, List.map_cons] at hl'
      have hnodup := (List.nodup_append.mp hl').2.1
      exact hy ▸ (List.nodup_cons.mp hnodup).1
    have hmem : key x ∈ (upsert key y (upsertAll key init l)).map key := by
      rw [keys_upsert]
      split
      · next hmem => exact hy ▸ hmem
      · exact List.mem_append_right _ (by rw [hy, List.mem_singleton])
    calc upsertAll key rest (upsert key x (upsertAll key init l))
        = upsertAll key rest (upsert key x (upsert key y (upsertAll key init l))) := by
          rw [upsert_upsert hy]
      _ = upsert key x (init ++ y :: rest) := by rw [upsertAll_upsert_comm hrest hmem, h]
      _ = init ++ x :: rest := upsert_append_cons hy hinit
  · rw [upsert_of_notMem hx, upsertAll_append, h, upsertAll_cons, upsert_of_notMem hx,
      upsertAll_nil]

theorem upsertAll_fixed (hl : (l.map key).Nodup) (h : upsertAll key l' l = l') (xs : List α) :
    upsertAll key (upsertAll key xs l') l = upsertAll key xs l' := by
  induction xs generalizing l' with
  | nil => exact h
  | cons x xs ih => exact ih (upsertAll_fixed_upsert hl h x)

theorem upsert_self (h : (l.map key).Nodup) (hx : x ∈ l) : upsert key x l = l := by
  obtain ⟨init, rest, rfl⟩ := List.append_of_mem hx
  rw [List.map_append, List.map_cons] at h
  have hdisjoint := (List.nodup_append.mp h).2.2
  refine upsert_append_cons rfl fun hmem => ?_
  exact hdisjoint _ hmem _ List.mem_cons_self rfl

theorem upsertAll_of_subset (h : (l.map key).Nodup) (hxs : xs ⊆ l) : upsertAll key xs l = l := by
  induction xs with
  | nil => rfl
  | cons x xs ih =>
    rw [upsertAll_cons, upsert_self h (hxs List.mem_cons_self)]
    exact ih fun y hy => hxs (List.mem_cons_of_mem _ hy)

/-- The first element of a key after the updates: the last update of it, else the old one. -/
theorem find?_upsertAll (k : κ) : (upsertAll key xs l).find? (fun y => key y = k) =
    (xs.reverse ++ l).find? fun y => key y = k := by
  have hone : ∀ (x : α) (l : List α), (upsert key x l).find? (fun y => key y = k) =
      (x :: l).find? fun y => key y = k := by
    intro x l
    induction l with
    | nil => rfl
    | cons z l ih =>
      rw [upsert]
      by_cases hz : key z = key x
      · rw [if_pos hz]
        by_cases hx : key x = k
        · simp [hx]
        · simp [hx, hz]
      · rw [if_neg hz, List.find?_cons, ih]
        by_cases hx : key x = k
        · have hzk : key z ≠ k := fun h => hz (h.trans hx.symm)
          simp [hx, hzk]
        · simp [hx, List.find?_cons]
  induction xs generalizing l with
  | nil => rfl
  | cons x xs ih =>
    rw [upsertAll_cons, ih, List.find?_append, hone, List.reverse_cons, List.append_assoc,
      List.find?_append, List.singleton_append]

theorem exists_repeated (h : ¬ (l.map key).Nodup) :
    ∃ init y rest, l = init ++ y :: rest ∧ key y ∉ init.map key ∧ key y ∈ rest.map key := by
  induction l with
  | nil => exact absurd List.nodup_nil h
  | cons z l ih =>
    by_cases hz : key z ∈ l.map key
    · exact ⟨[], z, l, rfl, by simp, hz⟩
    · rw [List.map_cons, List.nodup_cons, not_and] at h
      obtain ⟨init, y, rest, rfl, hinit, hrest⟩ := ih (h hz)
      refine ⟨z :: init, y, rest, rfl, List.not_mem_cons_of_ne_of_not_mem ?_ hinit, hrest⟩
      intro hyz
      exact hz (hyz ▸ List.mem_map_of_mem (by simp))

theorem exists_last (h : k ∈ l.map key) :
    ∃ z, key z = k ∧ l.reverse.find? (fun y => key y = k) = some z := by
  obtain ⟨y, hy, hk⟩ := List.mem_map.mp h
  have hsome : (l.reverse.find? fun y => key y = k).isSome :=
    List.find?_isSome.mpr ⟨y, List.mem_reverse.mpr hy, decide_eq_true hk⟩
  obtain ⟨z, hz⟩ := Option.isSome_iff_exists.mp hsome
  exact ⟨z, by simpa using List.find?_some hz, hz⟩

/-- Where a key is repeated, an update leaves its last element. -/
theorem exists_last_of_not_nodup {us : List α} (h : ¬ ((l ++ us).map key).Nodup) :
    ∃ z, ∀ y, key y = key z →
      (upsert key y l ++ us).reverse.find? (fun x => key x = key z) = some z := by
  cases us with
  | nil =>
    rw [List.append_nil] at h
    obtain ⟨init, t, rest, rfl, hinit, hrest⟩ := exists_repeated h
    obtain ⟨z, hz, hlast⟩ := exists_last hrest
    refine ⟨z, fun y hy => ?_⟩
    rw [upsert_append_cons (hz.symm.trans hy.symm) (by rwa [hy, hz]), List.append_nil,
      List.reverse_append, List.reverse_cons, List.append_assoc, List.find?_append, hz, hlast,
      Option.some_or]
  | cons u us =>
    have hu : key u ∈ (u :: us).map key := List.mem_map_of_mem List.mem_cons_self
    obtain ⟨z, hz, hlast⟩ := exists_last hu
    refine ⟨z, fun y hy => ?_⟩
    rw [List.reverse_append, List.find?_append, hz, hlast, Option.some_or]

end Upsert
