import Mathlib.Data.List.Perm.Basic
import Mathlib.Order.Basic

/-! # Claims

Candidates are taken one after the other, and one that clashes with a taken one
is passed over. Candidates of one rank that clash only when they are equal may
be listed in any order.
-/

namespace Claims

variable {α ι κ : Type*} {clash : α → α → Prop} {a b : α} {s t l l' : List α}

variable (clash) in
/-- Candidates of two lists clash only when they are equal. -/
def Compatible (l l' : List α) : Prop := ∀ a ∈ l, ∀ b ∈ l', clash a b → a = b

theorem Compatible.symm (hsymm : ∀ a b, clash a b → clash b a) (h : Compatible clash l l') :
    Compatible clash l' l := fun b hb a ha hclash => (h a ha b hb (hsymm _ _ hclash)).symm

theorem compatible_flatMap {i : ι} {js : List ι} {cands : ι → List α} (h : ∀ j ∈ js, Compatible clash (cands j) (cands i)) :
    Compatible clash (js.flatMap cands) (cands i) := by
  intro a ha b hb
  obtain ⟨j, hj, ha⟩ := List.mem_flatMap.mp ha
  exact h j hj a ha b hb

variable [DecidableRel clash]

variable (clash) in
def claim (taken : List α) (a : α) : List α :=
  if ∃ b ∈ taken, clash a b then taken else taken ++ [a]

variable (clash) in
/-- Take the candidates of a list, first come first served. -/
def claimAll (taken l : List α) : List α := l.foldl (claim clash) taken

theorem claimAll_append (t l l' : List α) :
    claimAll clash t (l ++ l') = claimAll clash (claimAll clash t l) l' := List.foldl_append

theorem mem_claim : a ∈ claim clash t b ↔ a ∈ t ∨ a = b ∧ ∀ c ∈ t, ¬ clash b c := by
  unfold claim
  split
  · next h =>
    obtain ⟨c, hc, hclash⟩ := h
    exact ⟨.inl, fun h => h.elim id fun h => absurd hclash (h.2 c hc)⟩
  · next h =>
    rw [List.mem_append, List.mem_singleton]
    exact or_congr_right (iff_self_and.mpr fun _ c hc hclash => h ⟨c, hc, hclash⟩)

theorem mem_of_mem_claimAll (h : a ∈ claimAll clash t l) : a ∈ t ∨ a ∈ l := by
  induction l generalizing t with
  | nil => exact .inl h
  | cons b l ih =>
    rcases ih h with h | h
    · rcases mem_claim.mp h with h | ⟨rfl, -⟩
      · exact .inl h
      · exact .inr List.mem_cons_self
    · exact .inr (List.mem_cons_of_mem _ h)

/-- What is taken does not clash. -/
theorem pairwise_claimAll (hsymm : ∀ a b, clash a b → clash b a)
    (h : t.Pairwise fun a b => ¬ clash a b) :
    (claimAll clash t l).Pairwise fun a b => ¬ clash a b := by
  induction l generalizing t with
  | nil => exact h
  | cons b l ih =>
    refine ih ?_
    unfold claim
    split
    · exact h
    · next hnone =>
      refine List.pairwise_append.mpr ⟨h, List.pairwise_singleton _ _, fun c hc d hd hclash => ?_⟩
      rw [List.mem_singleton.mp hd] at hclash
      exact hnone ⟨c, hc, hsymm _ _ hclash⟩

/-- Elements that clash with a candidate only when it is one of them do not change what else is
taken. -/
theorem mem_claimAll_union {X : α → Prop} (ht : ∀ a, a ∈ t ↔ a ∈ s ∨ X a)
    (hX : ∀ b ∈ l, ∀ x, X x → clash b x → b = x) (a : α) :
    a ∈ claimAll clash t l ↔ a ∈ claimAll clash s l ∨ X a := by
  induction l generalizing s t with
  | nil => exact ht a
  | cons b l ih =>
    obtain ⟨hb, hl⟩ := List.forall_mem_cons.mp hX
    refine ih (fun c => ?_) hl
    rw [mem_claim, mem_claim, ht]
    by_cases hclash : ∃ x, X x ∧ clash b x
    · obtain ⟨x, hx, hbx⟩ := hclash
      obtain rfl := hb x hx hbx
      constructor
      · rintro ((h | h) | ⟨rfl, -⟩)
        · exact .inl (.inl h)
        · exact .inr h
        · exact .inr hx
      · rintro ((h | ⟨rfl, -⟩) | h)
        · exact .inl (.inl h)
        · exact .inl (.inr hx)
        · exact .inl (.inr h)
    · have hfree : (∀ c ∈ t, ¬ clash b c) ↔ ∀ c ∈ s, ¬ clash b c := by
        constructor
        · exact fun h c hc => h c ((ht c).mpr (.inl hc))
        · rintro h c hc hbc
          rcases (ht c).mp hc with hc | hc
          · exact h c hc hbc
          · exact hclash ⟨c, hc, hbc⟩
      rw [hfree]
      tauto

theorem mem_claimAll_congr (ht : ∀ a, a ∈ t ↔ a ∈ s) (a : α) :
    a ∈ claimAll clash t l ↔ a ∈ claimAll clash s l := by
  have h : a ∈ claimAll clash t l ↔ a ∈ claimAll clash s l ∨ False :=
    mem_claimAll_union (X := fun _ => False) (by simpa using ht) (fun _ _ _ h => h.elim) a
  simpa using h

theorem mem_claimAll_of_mem (h : a ∈ t) : a ∈ claimAll clash t l := by
  induction l generalizing t with
  | nil => exact h
  | cons b l ih => exact ih (mem_claim.mpr (.inl h))

/-- What two compatible lists take is what each takes on its own. -/
theorem mem_claimAll_compatible (hsymm : ∀ a b, clash a b → clash b a)
    (h : Compatible clash l l') (t : List α) (a : α) : a ∈ claimAll clash t (l ++ l') ↔
      a ∈ claimAll clash t l ∨ a ∈ claimAll clash t l' := by
  have hsplit : ∀ c, c ∈ claimAll clash t l ↔ c ∈ t ∨ c ∈ claimAll clash t l ∧ c ∈ l := by
    intro c
    constructor
    · exact fun hc => (mem_of_mem_claimAll hc).imp_right fun hl => ⟨hc, hl⟩
    · exact fun hc => hc.elim mem_claimAll_of_mem And.left
  have hX : ∀ b ∈ l', ∀ x, x ∈ claimAll clash t l ∧ x ∈ l → clash b x → b = x := by
    rintro b hb x ⟨-, hx⟩ hclash
    exact (h x hx b hb (hsymm _ _ hclash)).symm
  rw [claimAll_append, mem_claimAll_union hsplit hX, or_comm]
  constructor
  · exact fun hc => hc.imp_left And.left
  · rintro (hc | hc)
    · exact ((hsplit a).mp hc).elim (fun ht => .inr (mem_claimAll_of_mem ht)) .inl
    · exact .inr hc

/-- Compatible lists may be listed in either order. -/
theorem mem_claimAll_swap (hsymm : ∀ a b, clash a b → clash b a) (h : Compatible clash l l')
    (t : List α) (a : α) :
    a ∈ claimAll clash t (l ++ l') ↔ a ∈ claimAll clash t (l' ++ l) := by
  rw [mem_claimAll_compatible hsymm h, mem_claimAll_compatible hsymm (h.symm hsymm), or_comm]

/-! ### Ranks -/

variable [PartialOrder κ] {cands : ι → List α} {rank : ι → κ} {is js : List ι}

/-- In whichever order the claimants of one rank come, the same candidates are taken. -/
theorem mem_claimAll_of_perm (hsymm : ∀ a b, clash a b → clash b a) (hperm : is.Perm js)
    (hnodup : is.Nodup) (his : is.Pairwise fun i j => rank i ≤ rank j)
    (hjs : js.Pairwise fun i j => rank i ≤ rank j)
    (hcompat : ∀ i ∈ is, ∀ j ∈ is, i ≠ j → rank i = rank j →
      Compatible clash (cands i) (cands j))
    (ht : ∀ a, a ∈ t ↔ a ∈ s) (a : α) :
    a ∈ claimAll clash t (is.flatMap cands) ↔ a ∈ claimAll clash s (js.flatMap cands) := by
  induction is generalizing js s t with
  | nil =>
    rw [List.nil_perm.mp hperm]
    exact ht a
  | cons i is ih =>
    obtain ⟨hi, hnodup'⟩ := List.nodup_cons.mp hnodup
    obtain ⟨hrank, his'⟩ := List.pairwise_cons.mp his
    obtain ⟨pre, post, rfl⟩ := List.append_of_mem (hperm.subset List.mem_cons_self)
    have hperm' : is.Perm (pre ++ post) :=
      (hperm.trans List.perm_middle).cons_inv
    have hsub : (pre ++ post).Sublist (pre ++ i :: post) :=
      List.Sublist.append_left (List.sublist_cons_self _ _) _
    have hpre : Compatible clash (pre.flatMap cands) (cands i) := by
      refine compatible_flatMap fun j hj => ?_
      have hmem : j ∈ is := hperm'.mem_iff.mpr (List.mem_append_left _ hj)
      have hne : j ≠ i := fun h => hi (h ▸ hmem)
      obtain ⟨-, -, hcross⟩ := List.pairwise_append.mp hjs
      have heq : rank j = rank i := le_antisymm (hcross j hj i List.mem_cons_self) (hrank j hmem)
      exact hcompat j (List.mem_cons_of_mem _ hmem) i List.mem_cons_self hne heq
    have hstart : ∀ c, c ∈ claimAll clash s (cands i ++ pre.flatMap cands) ↔
        c ∈ claimAll clash s (pre.flatMap cands ++ cands i) :=
      fun c => (mem_claimAll_swap hsymm hpre s c).symm
    calc a ∈ claimAll clash t ((i :: is).flatMap cands)
        ↔ a ∈ claimAll clash (claimAll clash t (cands i)) (is.flatMap cands) := by
          rw [List.flatMap_cons, claimAll_append]
      _ ↔ a ∈ claimAll clash (claimAll clash s (cands i)) ((pre ++ post).flatMap cands) :=
          ih hperm' hnodup' his' (hjs.sublist hsub)
            (fun j hj k hk => hcompat j (List.mem_cons_of_mem _ hj) k (List.mem_cons_of_mem _ hk))
            fun c => mem_claimAll_congr ht c
      _ ↔ a ∈ claimAll clash (claimAll clash s (cands i ++ pre.flatMap cands))
            (post.flatMap cands) := by
          rw [List.flatMap_append, claimAll_append, claimAll_append]
      _ ↔ a ∈ claimAll clash (claimAll clash s (pre.flatMap cands ++ cands i))
            (post.flatMap cands) := mem_claimAll_congr hstart a
      _ ↔ a ∈ claimAll clash s ((pre ++ i :: post).flatMap cands) := by
          rw [← claimAll_append, List.flatMap_append, List.flatMap_cons, List.append_assoc]

end Claims
