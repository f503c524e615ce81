import Mathlib.Data.List.Forall2
import Mathlib.Data.Option.Basic

/-! # Parts of a list

A part opens after the first element of one kind and goes up to the next
element of another. It does not depend on elements of neither kind.
-/

namespace Cuts

variable {α : Type*} {opens ends keep : α → Bool} {R : α → α → Prop} {l l' s t : List α} {a : α}

/-- What follows the first element of a kind. -/
@[grind =] def after (opens : α → Bool) : List α → Option (List α)
  | [] => none
  | a :: l => if opens a then some l else after opens l

/-- What follows the first element that opens, up to the first one that ends. -/
@[grind =] def part (opens ends : α → Bool) (l : List α) : Option (List α) :=
  (after opens l).map fun l => l.takeWhile fun a => !ends a

theorem after_append (l l' : List α) :
    after opens (l ++ l') = ((after opens l).map (· ++ l')).or (after opens l') := by
  induction l with
  | nil => rfl
  | cons a l ih =>
    by_cases ha : opens a
    · simp [after, ha]
    · simp [after, ha, ih]

theorem after_eq_none : after opens l = none ↔ ∀ a ∈ l, opens a = false := by
  induction l with
  | nil => simp [after]
  | cons a l ih =>
    by_cases ha : opens a
    · simp [after, ha]
    · simp [after, ha, ih]

theorem after_append_of_none (h : ∀ a ∈ s, opens a = false) (t : List α) :
    after opens (s ++ t) = after opens t := by
  rw [after_append, after_eq_none.mpr h]
  rfl

theorem after_filter (hopens : ∀ a, keep a = false → opens a = false) (l : List α) :
    after opens (l.filter keep) = (after opens l).map (·.filter keep) := by
  induction l with
  | nil => rfl
  | cons a l ih =>
    cases hk : keep a with
    | false => rw [List.filter_cons_of_neg (by simp [hk]), ih, after, hopens a hk]; rfl
    | true =>
      rw [List.filter_cons_of_pos hk]
      by_cases ha : opens a
      · simp [after, ha]
      · simp [after, ha, ih]

theorem takeWhile_filter (hends : ∀ a, keep a = false → ends a = false) (l : List α) :
    (l.filter keep).takeWhile (fun a => !ends a) =
      (l.takeWhile fun a => !ends a).filter keep := by
  rw [List.takeWhile_filter]
  congr 2
  funext a
  cases hk : keep a with
  | false => simp [hends a hk]
  | true => simp

theorem dropWhile_filter (hends : ∀ a, keep a = false → ends a = false) (l : List α) :
    (l.filter keep).dropWhile (fun a => !ends a) =
      (l.dropWhile fun a => !ends a).filter keep := by
  rw [List.dropWhile_filter]
  congr 2
  funext a
  cases hk : keep a with
  | false => simp [hends a hk]
  | true => simp

/-- The elements that are filtered out take no part in the cut. -/
theorem part_filter (hopens : ∀ a, keep a = false → opens a = false)
    (hends : ∀ a, keep a = false → ends a = false) (l : List α) :
    part opens ends (l.filter keep) = (part opens ends l).map (·.filter keep) := by
  rw [part, part, after_filter hopens, Option.map_map, Option.map_map]
  congr 1
  funext l
  exact takeWhile_filter hends l

theorem after_forall₂ (hopens : ∀ a b, R a b → opens a = opens b) (h : List.Forall₂ R l l') :
    Option.Rel (List.Forall₂ R) (after opens l) (after opens l') := by
  induction h with
  | nil => exact .none
  | cons hab htail ih =>
    rw [after, after, hopens _ _ hab]
    split
    · exact .some htail
    · exact ih

theorem takeWhile_forall₂ {p : α → Bool} (hp : ∀ a b, R a b → p a = p b)
    (h : List.Forall₂ R l l') : List.Forall₂ R (l.takeWhile p) (l'.takeWhile p) := by
  induction h with
  | nil => exact .nil
  | cons hab htail ih =>
    rw [List.takeWhile_cons, List.takeWhile_cons, hp _ _ hab]
    split
    · exact .cons hab ih
    · exact .nil

theorem dropWhile_forall₂ {p : α → Bool} (hp : ∀ a b, R a b → p a = p b)
    (h : List.Forall₂ R l l') : List.Forall₂ R (l.dropWhile p) (l'.dropWhile p) := by
  induction h with
  | nil => exact .nil
  | cons hab htail ih =>
    rw [List.dropWhile_cons, List.dropWhile_cons, hp _ _ hab]
    split
    · exact ih
    · exact .cons hab htail

theorem tail_forall₂ (h : List.Forall₂ R l l') : List.Forall₂ R l.tail l'.tail := by
  cases h with
  | nil => exact .nil
  | cons _ htail => exact htail

/-- Related lists have related parts. -/
theorem part_forall₂ (hopens : ∀ a b, R a b → opens a = opens b)
    (hends : ∀ a b, R a b → ends a = ends b) (h : List.Forall₂ R l l') :
    Option.Rel (List.Forall₂ R) (part opens ends l) (part opens ends l') := by
  have hafter := after_forall₂ hopens h
  rw [part, part]
  generalize after opens l = tail at hafter
  generalize after opens l' = tail' at hafter
  cases hafter with
  | none => exact .none
  | some htail =>
    exact .some (takeWhile_forall₂ (fun a b hab => congrArg _ (hends a b hab)) htail)

theorem part_eq_none : part opens ends l = none ↔ ∀ a ∈ l, opens a = false := by
  rw [part, Option.map_eq_none_iff, after_eq_none]

theorem part_append_of_none (h : ∀ a ∈ s, opens a = false) (t : List α) :
    part opens ends (s ++ t) = part opens ends t := by
  rw [part, part, after_append_of_none h]

/-- An element that ends cuts the list in two. -/
theorem part_append_ends (hends : ends a) (s t : List α) :
    part opens ends (s ++ a :: t) = (part opens ends s).or (part opens ends (a :: t)) := by
  rw [part, part, part, after_append]
  cases hs : after opens s with
  | none => simp
  | some r =>
    rw [Option.map_some, Option.some_or, Option.map_some, Option.map_some, Option.some_or,
      List.takeWhile_append]
    split
    · next hlength =>
      rw [List.takeWhile_cons_of_neg (by simp [hends]), List.append_nil]
      rw [(List.takeWhile_prefix _).eq_of_length hlength]
    · rfl

/-- Where the list is over or an element ends. -/
def Closed (ends : α → Bool) (t : List α) : Prop := ∀ a ∈ t.head?, ends a

theorem takeWhile_append_closed (hs : ∀ a ∈ s, ends a = false) (ht : Closed ends t) :
    (s ++ t).takeWhile (fun a => !ends a) = s := by
  rw [List.takeWhile_append_of_pos fun a ha => by simp [hs a ha]]
  cases t with
  | nil => simp
  | cons a t =>
    have ha : ends a := ht a rfl
    rw [List.takeWhile_cons_of_neg (by simp [ha]), List.append_nil]

theorem part_cons (ha : opens a) (hs : ∀ a ∈ s, ends a = false) (ht : Closed ends t) :
    part opens ends (a :: (s ++ t)) = some s := by
  rw [part, after, if_pos ha, Option.map_some, takeWhile_append_closed hs ht]

theorem closed_dropWhile (l : List α) : Closed ends (l.dropWhile fun a => !ends a) := by
  intro a ha
  have hnot := List.head?_dropWhile_not (fun a => !ends a) l
  rw [Option.mem_def.mp ha] at hnot
  simpa using hnot

end Cuts
