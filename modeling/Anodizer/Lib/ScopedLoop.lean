import Mathlib.Data.List.Basic

/-! # Loops that enter a scope

Every step of the loop first enters the scope of its item, then does anything
that a relation allows to the state. The loop stops at the first step that does
not succeed.
-/

namespace ScopedLoop

variable {σ ι : Type*}

inductive Exit
  | ok
  | error
  | unwind
  deriving DecidableEq, Repr

/-- The states at the beginning of the steps, and how the loop ends. -/
structure Outcome (σ ι : Type*) where
  entered : List (ι × σ)
  final : σ
  exit : Exit

variable (enter : ι → σ → σ)

def run : List (ι × (σ → σ × Exit)) → σ → Outcome σ ι
  | [], s => ⟨[], s, .ok⟩
  | (k, effect) :: steps, s =>
    let entered := enter k s
    match effect entered with
    | (s', .ok) =>
      let rest := run steps s'
      { rest with entered := (k, entered) :: rest.entered }
    | (s', exit) => ⟨[(k, entered)], s', exit⟩

/-- Every step only does what the relation allows. -/
def Allowed (r : σ → σ → Prop) (steps : List (ι × (σ → σ × Exit))) : Prop :=
  ∀ step ∈ steps, ∀ s, r (step.2 s).1 s

variable {enter} {r : σ → σ → Prop} {steps : List (ι × (σ → σ × Exit))} {order : List ι}
  {s s₀ : σ} {k : ι}

theorem Allowed.tail {step : ι × (σ → σ × Exit)} (h : Allowed r (step :: steps)) :
    Allowed r steps := fun e he => h e (List.mem_cons_of_mem _ he)

/-- The first scope is entered from the initial state, the others after the first step. -/
theorem mem_entered_cons (hr : Equivalence r) (henter : ∀ k s, r (enter k s) s)
    {step : ι × (σ → σ × Exit)} (hsteps : Allowed r (step :: steps)) {x : ι × σ}
    (hx : x ∈ (run enter (step :: steps) s).entered) :
    x = (step.1, enter step.1 s) ∨ ∃ s', r s' s ∧ x ∈ (run enter steps s').entered := by
  have hstep := hsteps step List.mem_cons_self (enter step.1 s)
  rw [run] at hx
  dsimp only at hx
  split at hx
  · next s' heq =>
    rw [heq] at hstep
    rcases List.mem_cons.mp hx with hx | hx
    · exact .inl hx
    · exact .inr ⟨s', hr.trans hstep (henter _ _), hx⟩
  · exact .inl (List.mem_singleton.mp hx)

/-- The scopes are entered from states that the relation allows. -/
theorem entered_of_mem (hr : Equivalence r) (henter : ∀ k s, r (enter k s) s)
    (hsteps : Allowed r steps) {x : ι × σ} (hx : x ∈ (run enter steps s).entered) :
    x.1 ∈ steps.map Prod.fst ∧ ∃ s', r s' s ∧ x.2 = enter x.1 s' := by
  induction steps generalizing s with
  | nil => exact absurd hx List.not_mem_nil
  | cons step steps ih =>
    rcases mem_entered_cons hr henter hsteps hx with rfl | ⟨s', hs', hx⟩
    · exact ⟨List.mem_cons_self, s, hr.refl s, rfl⟩
    · obtain ⟨hmem, s'', hs'', heq⟩ := ih hsteps.tail hx
      exact ⟨List.mem_cons_of_mem _ hmem, s'', hr.trans hs'' hs', heq⟩

/-- After a step, the scopes of the later steps are entered from any state of the relation. -/
theorem exists_entered (hr : Equivalence r) (hs : r s s₀) (henter : ∀ k s, r (enter k s) s)
    (hk : k ∈ order.tail) : ∃ steps, steps.map Prod.fst = order ∧ Allowed r steps ∧
      (k, enter k s) ∈ (run enter steps s₀).entered := by
  classical
  -- every step leaves the state `s` behind, where it may
  let effect : σ → σ × Exit := fun t => (if r t s then s else t, .ok)
  have hallowed : ∀ t, r (effect t).1 t := by
    intro t
    by_cases h : r t s
    · simpa [effect, h] using hr.symm h
    · simpa [effect, h] using hr.refl t
  have hrun : ∀ l : List ι, k ∈ l →
      (k, enter k s) ∈ (run enter (l.map fun i => (i, effect)) s).entered := by
    intro l hmem
    induction l with
    | nil => exact absurd hmem List.not_mem_nil
    | cons i l ih =>
      have heffect : effect (enter i s) = (s, .ok) := by simp [effect, henter i s]
      rw [List.map_cons, run, heffect]
      rcases List.mem_cons.mp hmem with rfl | hmem
      · exact List.mem_cons_self
      · exact List.mem_cons_of_mem _ (ih hmem)
  refine ⟨order.map fun i => (i, effect), by simp [Function.comp_def], ?_, ?_⟩
  · intro step hstep t
    obtain ⟨i, -, rfl⟩ := List.mem_map.mp hstep
    exact hallowed t
  · cases order with
    | nil => cases hk
    | cons i l =>
      have heffect : effect (enter i s₀) = (s, .ok) := by
        simp [effect, hr.trans (henter i s₀) (hr.symm hs)]
      rw [List.map_cons, run, heffect]
      exact List.mem_cons_of_mem _ (hrun l hk)

/-- The scopes do not depend on the steps before them exactly when no later item's scope
depends on the state it is entered from. -/
theorem independent_iff (hr : Equivalence r) (henter : ∀ k s, r (enter k s) s) :
    (∀ steps, steps.map Prod.fst = order → Allowed r steps →
      ∀ x ∈ (run enter steps s₀).entered, x.2 = enter x.1 s₀) ↔
    ∀ k ∈ order.tail, ∀ s, r s s₀ → enter k s = enter k s₀ := by
  constructor
  · intro h k hk s hs
    obtain ⟨steps, horder, hallowed, hmem⟩ := exists_entered hr hs henter hk
    exact h steps horder hallowed _ hmem
  · rintro h steps rfl hallowed x hx
    cases steps with
    | nil => exact absurd hx List.not_mem_nil
    | cons step steps =>
      rcases mem_entered_cons hr henter hallowed hx with rfl | ⟨s, hs, hx⟩
      · rfl
      · obtain ⟨hmem, s', hs', heq⟩ := entered_of_mem hr henter hallowed.tail hx
        rw [heq, h x.1 hmem s' (hr.trans hs' hs)]

/-- The loop ends in a state of the relation. -/
theorem final_allowed (hr : Equivalence r) (henter : ∀ k s, r (enter k s) s)
    (hsteps : Allowed r steps) : r (run enter steps s).final s := by
  induction steps generalizing s with
  | nil => exact hr.refl s
  | cons step steps ih =>
    have hstep := hsteps step List.mem_cons_self (enter step.1 s)
    rw [run]
    dsimp only
    split
    · next s' heq =>
      rw [heq] at hstep
      exact hr.trans (ih hsteps.tail) (hr.trans hstep (henter _ _))
    · next s' exit heq =>
      rw [heq] at hstep
      exact hr.trans hstep (henter _ _)

end ScopedLoop
