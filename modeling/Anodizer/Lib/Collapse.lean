import Mathlib.Data.List.Basic
import Mathlib.Data.List.Count
import Mathlib.Data.List.Induction
import Mathlib.Data.List.Perm.Basic

/-! # Lists that collapse by class

An element of a class is merged into the element of its class that the list has
already. An element without a class is always added. Every class ends up with
one element, merged from all that were added in it, in their order.
-/

namespace Collapse

variable {α κ : Type*} [DecidableEq κ] (cls : α → Option κ) (merge : α → α → α)

/-- Merge `a` into the first element of the class, or add it. -/
def mergeFirst (k : κ) (a : α) : List α → List α
  | [] => [a]
  | b :: l => if cls b = some k then merge b a :: l else b :: mergeFirst k a l

def add (l : List α) (a : α) : List α :=
  match cls a with
  | none => l ++ [a]
  | some k => mergeFirst cls merge k a l

/-- Add the elements in order. -/
def collapse (l : List α) : List α := l.foldl (add cls merge) []

/-- What the elements of one class are merged into. -/
def mergeAll : List α → Option α
  | [] => none
  | a :: l => some (l.foldl merge a)

variable {cls merge} {k : κ} {a : α} {l l' : List α} {c : Option κ}

theorem mergeAll_concat (l : List α) (a : α) :
    mergeAll merge (l ++ [a]) = some (((mergeAll merge l).map (merge · a)).getD a) := by
  cases l with
  | nil => rfl
  | cons b l => rw [List.cons_append, mergeAll, List.foldl_append]; rfl

theorem filter_mergeFirst_of_ne (hmerge : ∀ b, cls (merge b a) = cls b) (ha : cls a = some k)
    (hc : c ≠ some k) : (mergeFirst cls merge k a l).filter (cls · = c) =
      l.filter (cls · = c) := by
  induction l with
  | nil => simp [mergeFirst, ha, Ne.symm hc]
  | cons b l ih =>
    rw [mergeFirst]
    split
    · next hb =>
      have hne : cls b ≠ c := hb ▸ Ne.symm hc
      rw [List.filter_cons_of_neg (by simpa [hmerge] using hne),
        List.filter_cons_of_neg (by simpa using hne)]
    · rw [List.filter_cons, List.filter_cons, ih]

theorem filter_mergeFirst_self (hmerge : ∀ b, cls (merge b a) = cls b) (ha : cls a = some k)
    {o : Option α} (h : l.filter (cls · = some k) = o.toList) :
    (mergeFirst cls merge k a l).filter (cls · = some k) = [(o.map (merge · a)).getD a] := by
  induction l with
  | nil =>
    cases o with
    | none => simp [mergeFirst, ha]
    | some b => cases h
  | cons b l ih =>
    rw [mergeFirst]
    split
    · next hb =>
      rw [List.filter_cons_of_pos (by simpa using hb)] at h
      rw [List.filter_cons_of_pos (by simpa [hmerge] using hb)]
      cases o with
      | none => cases h
      | some b' =>
        obtain ⟨rfl, hl⟩ := List.cons.inj h
        rw [hl]
        rfl
    · next hb =>
      rw [List.filter_cons_of_neg (by simpa using hb)] at h ⊢
      exact ih h

theorem collapse_concat : collapse cls merge (l ++ [a]) = add cls merge (collapse cls merge l) a :=
  List.foldl_concat ..

/-- What holds of all elements, and of what they are merged into, holds of the collapsed list. -/
theorem forall_mem_collapse {P : α → Prop} (hl : ∀ a ∈ l, P a)
    (hmerge : ∀ a b, P b → P a → P (merge b a)) : ∀ a ∈ collapse cls merge l, P a := by
  have hfirst : ∀ (k : κ) (a : α), P a → ∀ l : List α, (∀ b ∈ l, P b) →
      ∀ b ∈ mergeFirst cls merge k a l, P b := by
    intro k a ha l hl
    induction l with
    | nil => simpa [mergeFirst] using ha
    | cons b l ih =>
      obtain ⟨hb, hl⟩ := List.forall_mem_cons.mp hl
      rw [mergeFirst]
      split
      · exact List.forall_mem_cons.mpr ⟨hmerge a b hb ha, hl⟩
      · exact List.forall_mem_cons.mpr ⟨hb, ih hl⟩
  induction l using List.reverseRecOn with
  | nil => exact List.forall_mem_nil _
  | append_singleton l a ih =>
    rw [List.forall_mem_append, List.forall_mem_singleton] at hl
    rw [collapse_concat, add]
    cases cls a with
    | none => exact List.forall_mem_append.mpr ⟨ih hl.1, List.forall_mem_singleton.mpr hl.2⟩
    | some k => exact hfirst k a hl.2 _ (ih hl.1)

/-- Elements without a class are added as they come. -/
theorem filter_collapse_none (hmerge : ∀ a b, cls (merge b a) = cls b) (l : List α) :
    (collapse cls merge l).filter (cls · = none) = l.filter (cls · = none) := by
  induction l using List.reverseRecOn with
  | nil => rfl
  | append_singleton l a ih =>
    rw [collapse_concat, List.filter_append, add]
    cases ha : cls a with
    | none => rw [List.filter_append, ih]
    | some k =>
      dsimp only
      rw [filter_mergeFirst_of_ne (hmerge a) ha (by simp), ih]
      simp [ha]

/-- Every class has the one element that its elements are merged into. -/
theorem filter_collapse_some (hmerge : ∀ a b, cls (merge b a) = cls b) (l : List α) (k : κ) :
    (collapse cls merge l).filter (cls · = some k) =
      (mergeAll merge (l.filter (cls · = some k))).toList := by
  induction l using List.reverseRecOn with
  | nil => rfl
  | append_singleton l a ih =>
    rw [collapse_concat, List.filter_append, add]
    cases ha : cls a with
    | none => simp [ha, ih]
    | some k' =>
      dsimp only
      by_cases hk : k' = k
      · subst hk
        rw [filter_mergeFirst_self (hmerge a) ha ih, List.filter_cons_of_pos (by simpa using ha),
          List.filter_nil, mergeAll_concat]
        rfl
      · rw [filter_mergeFirst_of_ne (hmerge a) ha (by simpa using Ne.symm hk), ih,
          List.filter_cons_of_neg (by simpa [ha] using hk), List.filter_nil, List.append_nil]

/-! ### Elements that others are merged into -/

/-- An element that is added: one without a class, or the first one of its class. -/
def Leader (cls : α → Option κ) (l : List α) (a : α) : Prop :=
  a ∈ l ∧ ∀ k, cls a = some k → l.find? (cls · = some k) = some a

theorem forall_mem_class (cls : α → Option κ) {P : α → Prop} :
    (∀ a ∈ l, P a) ↔ ∀ c, ∀ a ∈ l.filter (cls · = c), P a := by
  constructor
  · exact fun h c a ha => h a (List.mem_of_mem_filter ha)
  · exact fun h a ha => h (cls a) a (List.mem_filter.mpr ⟨ha, decide_eq_true rfl⟩)

/-- What merging does not change holds of the collapsed list if it holds of the elements that the
others are merged into. -/
theorem forall_mem_collapse_iff (hmerge : ∀ a b, cls (merge b a) = cls b) {P : α → Prop}
    (hP : ∀ a b, P (merge b a) ↔ P b) :
    (∀ a ∈ collapse cls merge l, P a) ↔ ∀ a, Leader cls l a → P a := by
  have hfold : ∀ (l : List α) (a : α), P (l.foldl merge a) ↔ P a := by
    intro l
    induction l with
    | nil => exact fun a => Iff.rfl
    | cons b l ih => exact fun a => (ih _).trans (hP b a)
  have hleads : (∀ a, Leader cls l a → P a) ↔ (∀ a ∈ l.filter (cls · = none), P a) ∧
      ∀ k, ∀ a ∈ (l.filter (cls · = some k)).head?, P a := by
    constructor
    · intro h
      refine ⟨fun a ha => ?_, fun k a ha => ?_⟩
      · rw [List.mem_filter, decide_eq_true_eq] at ha
        exact h a ⟨ha.1, fun k hk => absurd (ha.2.symm.trans hk) nofun⟩
      · rw [List.head?_filter, Option.mem_def] at ha
        refine h a ⟨List.mem_of_find?_eq_some ha, fun k' hk' => ?_⟩
        have hk := List.find?_some ha
        rw [decide_eq_true_eq] at hk
        rwa [Option.some.inj (hk'.symm.trans hk)]
    · rintro ⟨hnone, hsome⟩ a ⟨ha, hfirst⟩
      cases hk : cls a with
      | none => exact hnone a (List.mem_filter.mpr ⟨ha, decide_eq_true hk⟩)
      | some k => exact hsome k a (List.head?_filter ▸ hfirst k hk)
  rw [hleads, forall_mem_class cls, Option.forall, filter_collapse_none hmerge]
  refine and_congr_right fun _ => forall_congr' fun k => ?_
  rw [filter_collapse_some hmerge]
  cases l.filter (cls · = some k) with
  | nil => simp [mergeAll]
  | cons a l => simp [mergeAll, hfold]

/-! ### Lists that do not collapse -/

theorem mergeFirst_of_notMem (h : ∀ b ∈ l, cls b ≠ some k) :
    mergeFirst cls merge k a l = l ++ [a] := by
  induction l with
  | nil => rfl
  | cons b l ih =>
    obtain ⟨hb, hl⟩ := List.forall_mem_cons.mp h
    rw [mergeFirst, if_neg hb, ih hl]
    rfl

theorem length_mergeFirst_of_mem {b : α} (hb : b ∈ l) (hk : cls b = some k) :
    (mergeFirst cls merge k a l).length = l.length := by
  induction l with
  | nil => cases hb
  | cons c l ih =>
    rw [mergeFirst]
    split
    · rfl
    · next hc =>
      rcases List.mem_cons.mp hb with rfl | hb
      · exact absurd hk hc
      · rw [List.length_cons, List.length_cons, ih hb]

variable (cls merge)

/-- An element is added at the end, unless it is merged into another one. -/
theorem add_cases (l : List α) (a : α) :
    add cls merge l a = l ++ [a] ∨ (add cls merge l a).length = l.length := by
  rw [add]
  cases cls a with
  | none => exact .inl rfl
  | some k =>
    by_cases h : ∃ b ∈ l, cls b = some k
    · obtain ⟨b, hb, hk⟩ := h
      exact .inr (length_mergeFirst_of_mem hb hk)
    · push Not at h
      exact .inl (mergeFirst_of_notMem h)

theorem length_collapse_le (l : List α) : (collapse cls merge l).length ≤ l.length := by
  induction l using List.reverseRecOn with
  | nil => exact Nat.le_refl _
  | append_singleton l a ih =>
    rw [collapse_concat, List.length_append, List.length_singleton]
    rcases add_cases cls merge (collapse cls merge l) a with h | h
    · rw [h, List.length_append, List.length_singleton]
      omega
    · omega

variable {cls merge}

/-- A list that loses no element does not collapse. -/
theorem collapse_eq_of_length (h : (collapse cls merge l).length = l.length) :
    collapse cls merge l = l := by
  induction l using List.reverseRecOn with
  | nil => rfl
  | append_singleton l a ih =>
    have hle := length_collapse_le cls merge l
    rw [collapse_concat, List.length_append, List.length_singleton] at h
    rw [collapse_concat]
    rcases add_cases cls merge (collapse cls merge l) a with hadd | hadd
    · rw [hadd, List.length_append, List.length_singleton] at h
      rw [hadd, ih (by omega)]
    · omega

/-- A list with one element of each class does not collapse. -/
theorem collapse_eq_self (h : ∀ k, (l.filter (cls · = some k)).length ≤ 1) :
    collapse cls merge l = l := by
  induction l using List.reverseRecOn with
  | nil => rfl
  | append_singleton l a ih =>
    simp only [List.filter_append, List.length_append] at h
    rw [collapse_concat, ih fun k => Nat.le_trans (Nat.le_add_right _ _) (h k), add]
    cases hk : cls a with
    | none => rfl
    | some k =>
      have hlength := h k
      rw [List.filter_cons_of_pos (by simpa using hk), List.filter_nil,
        List.length_singleton] at hlength
      have hnil : l.filter (cls · = some k) = [] := List.eq_nil_of_length_eq_zero (by omega)
      refine mergeFirst_of_notMem fun b hb hbk => ?_
      exact List.filter_eq_nil_iff.mp hnil b hb (decide_eq_true hbk)

theorem perm_of_filter {β : Type*} [DecidableEq α] [DecidableEq β] {f : α → β}
    (h : ∀ b, (l.filter (f · = b)).Perm (l'.filter (f · = b))) : l.Perm l' := by
  rw [List.perm_iff_count]
  intro a
  have hcount : ∀ l : List α, (l.filter (f · = f a)).count a = l.count a := fun l =>
    List.count_filter (by simp)
  rw [← hcount l, ← hcount l', (h (f a)).count_eq]

end Collapse
