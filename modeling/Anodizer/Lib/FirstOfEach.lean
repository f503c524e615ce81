import Mathlib.Data.List.Basic

/-! # The first of each key

A pass over a list that skips every element whose key it has seen already.
-/

namespace FirstOfEach

variable {α κ : Type*} [DecidableEq κ] (key : α → κ)

/-- Skip the elements of a key seen before. -/
@[grind =] def firstOfEach : List κ → List α → List α
  | _, [] => []
  | seen, a :: l =>
    if key a ∈ seen then firstOfEach seen l else a :: firstOfEach (key a :: seen) l

variable {key} {seen : List κ} {l : List α} {a : α}

/-- An element stays when it is the first of its key, and the key is fresh. -/
theorem mem_firstOfEach : a ∈ firstOfEach key seen l ↔
    key a ∉ seen ∧ l.find? (key · = key a) = some a := by
  induction l generalizing seen with
  | nil => simp [firstOfEach]
  | cons b l ih =>
    rw [firstOfEach, List.find?_cons]
    by_cases hb : key b = key a
    · simp only [hb, decide_true, Option.some.injEq]
      split
      · next hseen => simp [ih, hseen]
      · next hseen =>
        rw [List.mem_cons, ih]
        simp [hseen, eq_comm]
    · simp only [hb, decide_false]
      have hab : a ≠ b := fun h => hb (h ▸ rfl)
      split
      · exact ih
      · simp [ih, hab, Ne.symm hb]

theorem subset_firstOfEach : firstOfEach key seen l ⊆ l := fun _ ha =>
  List.mem_of_find?_eq_some (mem_firstOfEach.mp ha).2

variable (key) in
/-- No key is kept twice. -/
theorem nodup_firstOfEach : ((firstOfEach key seen l).map key).Nodup := by
  induction l generalizing seen with
  | nil => exact List.nodup_nil
  | cons a l ih =>
    rw [firstOfEach]
    split
    · exact ih
    · rw [List.map_cons, List.nodup_cons]
      refine ⟨fun hmem => ?_, ih⟩
      obtain ⟨b, hb, heq⟩ := List.mem_map.mp hmem
      exact (mem_firstOfEach.mp hb).1 (heq ▸ List.mem_cons_self)

variable (key) in
/-- Every key of the list is kept. -/
theorem exists_firstOfEach (ha : a ∈ l) : ∃ b ∈ firstOfEach key [] l, key b = key a := by
  obtain ⟨b, hb⟩ := Option.isSome_iff_exists.mp
    (List.find?_isSome.mpr ⟨a, ha, decide_eq_true rfl⟩ : (l.find? (key · = key a)).isSome)
  have heq : key b = key a := by simpa using List.find?_some hb
  exact ⟨b, mem_firstOfEach.mpr ⟨by simp, by rw [heq]; exact hb⟩, heq⟩

end FirstOfEach
