import Anodizer.Lib.Scan

/-! # The states of a scan

A scan comes to a state and an end of its input before each of its steps. A scan that steps over
no place of its input comes to every such place, and a scan of marked input is, without the marks,
the scan of the input.
-/

namespace Scan

variable {σ α β : Type*}

/-- The states that a scan of at most as many steps as its argument comes to, each with the input
that is left there. -/
def statesFor (step : σ → α → List α → Step σ α β) : ℕ → σ → List α → List (σ × List α)
  | 0, _, _ => []
  | _ + 1, _, [] => []
  | n + 1, s, a :: as =>
    (s, a :: as) :: statesFor step n (step s a as).state (step s a as).rest

/-- The states before the steps of the whole scan. -/
def states (step : σ → α → List α → Step σ α β) (s : σ) (as : List α) : List (σ × List α) :=
  statesFor step as.length s as

variable {step : σ → α → List α → Step σ α β} {s : σ} {a : α} {as pre r : List α}
  {t t' : σ × List α}

@[simp] theorem states_nil : states step s [] = [] := rfl

theorem statesFor_congr (h : Shrinks step) {n k : ℕ} (hn : as.length ≤ n) (hk : as.length ≤ k) :
    statesFor step n s as = statesFor step k s as := by
  induction n generalizing s as k with
  | zero =>
    obtain rfl := List.length_eq_zero_iff.mp (Nat.le_zero.mp hn)
    cases k <;> rfl
  | succ n ih =>
    cases as with
    | nil => cases k <;> rfl
    | cons a as =>
      cases k with
      | zero => simp at hk
      | succ k =>
        have hlen := h s a as
        simp only [List.length_cons] at hn hk
        exact congrArg ((s, a :: as) :: ·) (ih (by omega) (by omega))

theorem states_cons (h : Shrinks step) : states step s (a :: as) =
    (s, a :: as) :: states step (step s a as).state (step s a as).rest :=
  congrArg _ (statesFor_congr h (h s a as) (Nat.le_refl _))

theorem self_mem_states (h : Shrinks step) : (s, a :: as) ∈ states step s (a :: as) := by
  rw [states_cons h]
  exact List.mem_cons_self

/-- The states after the first step are states of the scan. -/
theorem states_step_subset (h : Shrinks step) :
    states step (step s a as).state (step s a as).rest ⊆ states step s (a :: as) := by
  rw [states_cons h]
  exact List.subset_cons_self _ _

/-- What the steps preserve holds of every state. -/
theorem forall_states (h : Shrinks step) {I : σ → List α → Prop}
    (hstep : ∀ s a as, I s (a :: as) → I (step s a as).state (step s a as).rest) (hI : I s as) :
    ∀ t ∈ states step s as, I t.1 t.2 := by
  induction s, as using induction h with
  | nil s => simp
  | cons s a as ih =>
    rw [states_cons h]
    intro t ht
    rcases List.mem_cons.mp ht with rfl | ht
    · exact hI
    · exact ih (hstep s a as hI) t ht

/-! ### What was read and what was emitted -/

/-- A relation of what a scan reads to what it emits, that every step keeps. -/
structure Tracks (step : σ → α → List α → Step σ α β) (R : List α → List β → Prop) : Prop where
  nil : R [] []
  append : ∀ {as as' bs bs'}, R as bs → R as' bs' → R (as ++ as') (bs ++ bs')
  step : ∀ s a as, ∃ read, a :: as = read ++ (step s a as).rest ∧ R read (step s a as).emit

namespace Tracks

variable {R : List α → List β → Prop}

theorem leavesSuffix (h : Tracks step R) (hshrinks : Shrinks step) : LeavesSuffix step := by
  intro s a as
  obtain ⟨read, hread, -⟩ := h.step s a as
  rcases List.suffix_cons_iff.mp ⟨read, hread.symm⟩ with heq | hsuffix
  · have hlen := hshrinks s a as
    rw [heq, List.length_cons] at hlen
    omega
  · exact hsuffix

theorem scan (h : Tracks step R) (hshrinks : Shrinks step) (s : σ) (as : List α) :
    R as (Scan.scan step s as) := by
  induction s, as using induction hshrinks with
  | nil s => exact h.nil
  | cons s a as ih =>
    obtain ⟨read, hread, hR⟩ := h.step s a as
    rw [scan_cons hshrinks, hread]
    exact h.append hR ih

/-- The scan up to one of its states, and from there. -/
theorem scan_state (h : Tracks step R) (hshrinks : Shrinks step) (ht : t ∈ states step s as) :
    ∃ read out, as = read ++ t.2 ∧ R read out ∧
      Scan.scan step s as = out ++ Scan.scan step t.1 t.2 := by
  induction s, as using induction hshrinks with
  | nil s => cases ht
  | cons s a as ih =>
    rw [states_cons hshrinks] at ht
    rcases List.mem_cons.mp ht with rfl | ht
    · exact ⟨[], [], rfl, h.nil, rfl⟩
    · obtain ⟨first, hfirst, hR⟩ := h.step s a as
      obtain ⟨read, out, hread, hR', hscan⟩ := ih ht
      refine ⟨first ++ read, (step s a as).emit ++ out, ?_, h.append hR hR', ?_⟩
      · rw [List.append_assoc, ← hread, ← hfirst]
      · rw [scan_cons hshrinks, hscan, List.append_assoc]

/-- A scan that does not step over a place of its input comes there. -/
theorem reaches (h : Tracks step R) (hshrinks : Shrinks step)
    (hover : ∀ s' a as, (s', a :: as) ∈ states step s (pre ++ r) → r <:+ as →
      r <:+ (step s' a as).rest) :
    ∃ s' out, R pre out ∧ Scan.scan step s (pre ++ r) = out ++ Scan.scan step s' r ∧
      states step s' r ⊆ states step s (pre ++ r) := by
  induction hn : pre.length using Nat.strongRecOn generalizing s pre with
  | _ n ih =>
    cases pre with
    | nil => exact ⟨s, [], h.nil, rfl, List.Subset.refl _⟩
    | cons a pre =>
      obtain ⟨read, hread, hR⟩ := h.step s a (pre ++ r)
      have hself : (s, a :: (pre ++ r)) ∈ states step s (a :: pre ++ r) := self_mem_states hshrinks
      obtain ⟨mid, hmid⟩ := hover s a (pre ++ r) hself (List.suffix_append pre r)
      have hsub : states step (step s a (pre ++ r)).state (mid ++ r) ⊆
          states step s (a :: pre ++ r) := hmid ▸ states_step_subset hshrinks
      have hlen := hshrinks s a (pre ++ r)
      rw [← hmid, List.length_append, List.length_append] at hlen
      rw [List.length_cons] at hn
      obtain ⟨s', out, hR', hscan, hstates⟩ := ih mid.length (by omega)
        (fun s' b bs hb => hover s' b bs (hsub hb)) rfl
      have hpre : a :: pre = read ++ mid := by
        rw [← hmid, ← List.append_assoc, ← List.cons_append] at hread
        exact List.append_cancel_right hread
      refine ⟨s', (step s a (pre ++ r)).emit ++ out, hpre ▸ h.append hR hR', ?_,
        List.Subset.trans hstates hsub⟩
      rw [List.cons_append, scan_cons hshrinks, ← hmid, hscan, List.append_assoc]

end Tracks

/-! ### Marked input -/

/-- A step on marked input that is, without the marks, a step on the input. -/
def Forgets {α' β' : Type*} (marked : σ → α' → List α' → Step σ α' β')
    (step : σ → α → List α → Step σ α β) (f : α' → α) (g : β' → β) : Prop :=
  ∀ s a as, step s (f a) (as.map f) = ⟨(marked s a as).emit.map g, (marked s a as).state,
    (marked s a as).rest.map f⟩

namespace Forgets

variable {α' β' : Type*} {marked : σ → α' → List α' → Step σ α' β'} {f : α' → α} {g : β' → β}

theorem shrinks (h : Forgets marked step f g) (hshrinks : Shrinks step) : Shrinks marked := by
  intro s a as
  have hlen := hshrinks s (f a) (as.map f)
  rwa [h s a as, List.length_map, List.length_map] at hlen

theorem scan (h : Forgets marked step f g) (hshrinks : Shrinks step) (s : σ) (as : List α') :
    (Scan.scan marked s as).map g = Scan.scan step s (as.map f) := by
  induction s, as using induction (h.shrinks hshrinks) with
  | nil s => rfl
  | cons s a as ih =>
    rw [scan_cons (h.shrinks hshrinks), List.map_cons, scan_cons hshrinks, h s a as,
      List.map_append, ih]

theorem states (h : Forgets marked step f g) (hshrinks : Shrinks step) (s : σ) (as : List α') :
    (Scan.states marked s as).map (fun t => (t.1, t.2.map f)) = Scan.states step s (as.map f) := by
  induction s, as using induction (h.shrinks hshrinks) with
  | nil s => rfl
  | cons s a as ih =>
    rw [states_cons (h.shrinks hshrinks), List.map_cons, List.map_cons, states_cons hshrinks,
      h s a as, ih]

end Forgets

end Scan
