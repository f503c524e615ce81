import Mathlib.Data.List.Forall2
import Mathlib.Data.List.Perm.Subperm

/-! # Buckets

The elements of a list go into buckets, each into the one it is assigned or into none. The buckets
hold no more than the list, and all of it when every element is assigned.
-/

namespace Partition

variable {α ι : Type*} [DecidableEq ι] {f : α → Option ι} {l : List α} {is : List ι}

/-- The elements that are assigned to a bucket. -/
def bucket (f : α → Option ι) (l : List α) (i : ι) : List α := l.filter fun a => f a = some i

/-- The elements of some buckets are those assigned to them. -/
theorem flatMap_bucket_perm (h : is.Nodup) (l : List α) :
    (is.flatMap (bucket f l)).Perm (l.filter fun a => (f a).any (· ∈ is)) := by
  induction is with
  | nil => simp
  | cons i is ih =>
    obtain ⟨hi, his⟩ := List.nodup_cons.mp h
    have hsplit := List.filter_append_perm (fun a => decide (f a = some i))
      (l.filter fun a => (f a).any (· ∈ i :: is))
    have hfirst : (l.filter fun a => (f a).any (· ∈ i :: is)).filter
        (fun a => decide (f a = some i)) = bucket f l i := by
      rw [List.filter_filter, bucket]
      refine List.filter_congr fun a _ => ?_
      by_cases ha : f a = some i <;> simp [ha]
    have hrest : (l.filter fun a => (f a).any (· ∈ i :: is)).filter
        (fun a => !decide (f a = some i)) = l.filter fun a => (f a).any (· ∈ is) := by
      rw [List.filter_filter]
      refine List.filter_congr fun a _ => ?_
      cases ha : f a with
      | none => simp
      | some j =>
        by_cases hj : j = i
        · simp [hj, hi]
        · simp [hj]
    rw [hfirst, hrest] at hsplit
    rw [List.flatMap_cons]
    exact ((ih his).append_left _).trans hsplit

/-- All the buckets together hold the elements that are assigned. -/
theorem flatMap_bucket_perm_of_mem (h : is.Nodup) (hmem : ∀ a ∈ l, ∀ i ∈ f a, i ∈ is) :
    (is.flatMap (bucket f l)).Perm (l.filter fun a => (f a).isSome) := by
  have hany : (l.filter fun a => (f a).any (· ∈ is)) = l.filter fun a => (f a).isSome := by
    refine List.filter_congr fun a ha => ?_
    cases hf : f a with
    | none => rfl
    | some i => simpa using hmem a ha i hf
  exact hany ▸ flatMap_bucket_perm h l

/-! ### Filling buckets -/

variable {xs ys : List (List α)}

theorem subperm_flatten (h : List.Forall₂ List.Subperm xs ys) : xs.flatten.Subperm ys.flatten := by
  induction h with
  | nil => exact List.nil_subperm
  | cons hx _ ih =>
    rw [List.flatten_cons, List.flatten_cons]
    exact hx.append ih

/-- Buckets that hold as much as they can together are full. -/
theorem forall₂_perm_of_length_le (h : List.Forall₂ List.Subperm xs ys)
    (hlen : ys.flatten.length ≤ xs.flatten.length) : List.Forall₂ List.Perm xs ys := by
  induction h with
  | nil => exact .nil
  | cons hx hxs ih =>
    have hle := hx.length_le
    have hle' := (subperm_flatten hxs).length_le
    rw [List.flatten_cons, List.flatten_cons, List.length_append, List.length_append] at hlen
    exact .cons (hx.perm_of_length_le (by omega)) (ih (by omega))

theorem flatten_perm (h : List.Forall₂ List.Perm xs ys) : xs.flatten.Perm ys.flatten := by
  induction h with
  | nil => exact .refl _
  | cons hx _ ih =>
    rw [List.flatten_cons, List.flatten_cons]
    exact hx.append ih

end Partition
