import Anodizer.Lib.Scan
import Mathlib.Data.List.Infix

/-! # Replacing a text and putting it back

Every occurrence of a needle is replaced from left to right. A mark that stands for the
needle is replaced back exactly, unless the text in front of a needle completes the mark.
-/

namespace Replace

variable {α : Type*} [DecidableEq α]

def step (needle new : List α) (_ : Unit) (a : α) (as : List α) : Scan.Step Unit α α :=
  if needle <+: a :: as then ⟨new, (), as.drop (needle.length - 1)⟩ else ⟨[a], (), as⟩

/-- Replace every occurrence of `needle`, from left to right. -/
def replace (needle new s : List α) : List α := Scan.scan (step needle new) () s

variable {needle new s t : List α} {a : α}

theorem step_shrinks : Scan.Shrinks (step needle new) := by
  intro _ a as
  unfold step
  split
  · simp
  · exact le_rfl

@[simp] theorem replace_nil : replace needle new [] = [] := rfl

theorem replace_needle (h : needle ≠ []) :
    replace needle new (needle ++ s) = new ++ replace needle new s := by
  obtain ⟨a, needle, rfl⟩ := List.exists_cons_of_ne_nil h
  rw [replace, List.cons_append, Scan.scan_cons step_shrinks]
  have hstep : step (a :: needle) new () a (needle ++ s) = ⟨new, (), s⟩ := by
    have hpre : a :: needle <+: a :: (needle ++ s) := List.prefix_append (a :: needle) s
    rw [step, if_pos hpre]
    simp
  rw [hstep, replace]

theorem replace_cons (h : ¬ needle <+: a :: s) :
    replace needle new (a :: s) = a :: replace needle new s := by
  rw [replace, Scan.scan_cons step_shrinks, step, if_neg h]
  rfl

/-- A replacement takes a needle or one element. -/
theorem induction_replace {P : List α → Prop} (h : needle ≠ []) (nil : P [])
    (hit : ∀ s, P s → P (needle ++ s))
    (skip : ∀ a s, ¬ needle <+: a :: s → P s → P (a :: s)) (s : List α) : P s := by
  induction hn : s.length using Nat.strong_induction_on generalizing s with
  | _ n ih =>
    subst hn
    cases s with
    | nil => exact nil
    | cons a s =>
      by_cases hpre : needle <+: a :: s
      · obtain ⟨t, ht⟩ := hpre
        have hlen := congrArg List.length ht
        have hpos := List.length_pos_iff.mpr h
        simp only [List.length_append] at hlen
        exact ht ▸ hit t (ih t.length (by omega) t rfl)
      · exact skip a s hpre (ih s.length (by simp) s rfl)

/-! ### Putting it back -/

/-- A mark that stands for a needle: its first element is its last one, and stands nowhere else in
the mark or the needle. -/
structure Mark (needle : List α) where
  edge : α
  inner : List α
  edge_not_mem_inner : edge ∉ inner
  edge_not_mem_needle : edge ∉ needle
  needle_ne_nil : needle ≠ []
  /-- No needle starts in the mark. -/
  head_not_mem_inner : ∀ a ∈ needle.head?, a ∉ inner

namespace Mark

variable (m : Mark needle)

def text : List α := m.edge :: (m.inner ++ [m.edge])

/-- What a needle completes to a mark. -/
def half : List α := m.edge :: m.inner

omit [DecidableEq α] in
theorem text_ne_nil : m.text ≠ [] := List.cons_ne_nil _ _

/-- A replaced text that starts with the inner part of the mark copied it. -/
theorem inner_prefix {w : List α} (hw : m.edge ∉ w)
    (h : w ++ [m.edge] <+: replace needle m.text s) :
    w ++ [m.edge] <+: s ∨ w ++ needle <+: s := by
  induction w generalizing s with
  | nil =>
    by_cases hpre : needle <+: s
    · exact .inr hpre
    · cases s with
      | nil => simp at h
      | cons a s =>
        rw [replace_cons hpre, List.nil_append, List.cons_prefix_cons] at h
        rw [List.nil_append, List.cons_prefix_cons]
        exact .inl ⟨h.1, List.nil_prefix⟩
  | cons c w ih =>
    rw [List.mem_cons, not_or] at hw
    obtain ⟨hc, hw⟩ := hw
    by_cases hpre : needle <+: s
    · obtain ⟨t, rfl⟩ := hpre
      rw [replace_needle m.needle_ne_nil, text, List.cons_append, List.cons_append,
        List.cons_prefix_cons] at h
      exact absurd h.1.symm hc
    · cases s with
      | nil => simp at h
      | cons a s =>
        rw [replace_cons hpre, List.cons_append, List.cons_prefix_cons] at h
        obtain ⟨rfl, h⟩ := h
        simp only [List.cons_append, List.cons_prefix_cons, true_and]
        exact ih hw h

theorem replace_inner {w : List α} (hw : ∀ a ∈ needle.head?, a ∉ w) :
    replace needle m.text (w ++ s) = w ++ replace needle m.text s := by
  induction w with
  | nil => rfl
  | cons c w ih =>
    have hpre : ¬ needle <+: c :: (w ++ s) := by
      obtain ⟨d, n, hn⟩ := List.exists_cons_of_ne_nil m.needle_ne_nil
      rw [hn, List.cons_prefix_cons]
      rintro ⟨rfl, -⟩
      exact hw d (by rw [hn]; rfl) List.mem_cons_self
    rw [List.cons_append, replace_cons hpre, ih fun a ha hmem =>
      hw a ha (List.mem_cons_of_mem _ hmem)]
    rfl

omit [DecidableEq α] in
theorem half_infix_needle : m.half ++ needle <:+: needle ++ s ↔ m.half ++ needle <:+: s := by
  have hskip : ∀ x : List α, m.edge ∉ x →
      (m.half ++ needle <:+: x ++ s ↔ m.half ++ needle <:+: s) := by
    intro x hx
    induction x with
    | nil => exact Iff.rfl
    | cons a x ih =>
      rw [List.mem_cons, not_or] at hx
      rw [List.cons_append, List.infix_cons_iff, ih hx.2, half, List.cons_append,
        List.cons_prefix_cons]
      exact or_iff_right fun h => hx.1 h.1
  exact hskip needle m.edge_not_mem_needle

/-- A mark is in the replaced text where a needle completes it. -/
theorem half_prefix (hmark : ¬ m.text <+: a :: s) (hpre : ¬ needle <+: a :: s) :
    m.text <+: a :: replace needle m.text s ↔ m.half ++ needle <+: a :: s := by
  have htext : ∀ {t : List α}, m.text <+: a :: t ↔ m.edge = a ∧ m.inner ++ [m.edge] <+: t :=
    List.cons_prefix_cons
  rw [htext, half, List.cons_append, List.cons_prefix_cons]
  refine and_congr_right fun ha => ⟨fun h => ?_, ?_⟩
  · refine (m.inner_prefix m.edge_not_mem_inner h).resolve_left fun hs => hmark ?_
    exact htext.mpr ⟨ha, hs⟩
  · rintro ⟨t, rfl⟩
    rw [List.append_assoc, m.replace_inner m.head_not_mem_inner, replace_needle m.needle_ne_nil,
      List.prefix_append_right_inj, text, List.cons_append, List.cons_prefix_cons]
    exact ⟨rfl, List.nil_prefix⟩

/-- In a text without the mark, putting the needles back gives the text exactly when no needle
completes a mark. -/
theorem restore_iff (hmark : ¬ m.text <:+: s) :
    replace m.text needle (replace needle m.text s) = s ↔ ¬ m.half ++ needle <:+: s := by
  induction s using induction_replace m.needle_ne_nil with
  | nil => simp [half]
  | hit s ih =>
    have hs : ¬ m.text <:+: s := fun h => hmark (h.trans (List.suffix_append _ _).isInfix)
    rw [replace_needle m.needle_ne_nil, replace_needle m.text_ne_nil, List.append_right_inj,
      ih hs, m.half_infix_needle]
  | skip a s hpre ih =>
    have hs : ¬ m.text <:+: s := fun h => hmark (h.trans (List.suffix_cons _ _).isInfix)
    have hhead : ¬ m.text <+: a :: s := fun h => hmark h.isInfix
    rw [replace_cons hpre, List.infix_cons_iff]
    by_cases hhalf : m.half ++ needle <+: a :: s
    · have htext := (m.half_prefix hhead hpre).mpr hhalf
      obtain ⟨t, ht⟩ := htext
      rw [← ht, replace_needle m.text_ne_nil]
      refine iff_of_false (fun heq => hpre ⟨_, heq⟩) fun h => h (.inl hhalf)
    · rw [replace_cons fun h => hhalf ((m.half_prefix hhead hpre).mp h), List.cons_inj_right,
        ih hs]
      simp [hhalf]

end Mark

end Replace
