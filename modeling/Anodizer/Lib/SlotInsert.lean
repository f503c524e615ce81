import Mathlib.Data.List.Sort

/-! # Insertion by slot

An element is inserted before the first element that it must precede. When the
other elements must not follow it, the order of the list is kept, ties included.
-/

namespace SlotInsert

variable {α κ : Type*} {r R : α → α → Prop} [DecidableRel r] {a : α} {l : List α}

/-- Insertion keeps an order that its slots respect. -/
theorem pairwise_orderedInsert [IsTrans α R] (h : l.Pairwise R) (hbefore : ∀ b ∈ l, r a b → R a b)
    (hafter : ∀ b ∈ l, ¬ r a b → R b a) : (l.orderedInsert r a).Pairwise R := by
  induction l with
  | nil => exact List.pairwise_singleton _ _
  | cons b l ih =>
    obtain ⟨hhead, htail⟩ := List.pairwise_cons.mp h
    obtain ⟨hb, hbefore⟩ := List.forall_mem_cons.mp hbefore
    obtain ⟨hb', hafter⟩ := List.forall_mem_cons.mp hafter
    rw [List.orderedInsert_cons]
    split
    · next hr =>
      refine List.pairwise_cons.mpr ⟨fun c hc => ?_, h⟩
      rcases List.mem_cons.mp hc with rfl | hc
      · exact hb hr
      · exact IsTrans.trans _ _ _ (hb hr) (hhead c hc)
    · next hr =>
      refine List.pairwise_cons.mpr ⟨fun c hc => ?_, ih htail hbefore hafter⟩
      rcases (List.mem_orderedInsert r).mp hc with rfl | hc
      · exact hb' hr
      · exact hhead c hc

/-- Between two elements of one class an ordered list has elements of that class only. -/
theorem class_contiguous [PartialOrder κ] {kind : α → κ} {x y : α} {before between after : List α}
    (h : l.Pairwise fun s t => kind s ≤ kind t) (hl : l = before ++ x :: (between ++ y :: after))
    (hxy : kind x = kind y) : ∀ z ∈ between, kind z = kind x := by
  intro z hz
  subst hl
  obtain ⟨-, hrest, -⟩ := List.pairwise_append.mp h
  obtain ⟨hx, hrest⟩ := List.pairwise_cons.mp hrest
  obtain ⟨-, -, hzy⟩ := List.pairwise_append.mp hrest
  exact le_antisymm ((hzy z hz y List.mem_cons_self).trans hxy.ge)
    (hx z (List.mem_append_left _ hz))

end SlotInsert
