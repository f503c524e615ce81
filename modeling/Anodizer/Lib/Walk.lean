import Mathlib.Data.Nat.Notation
import Mathlib.Tactic.Common

/-! # Walks

A walk passes over a buffer from one place to a later one until a pass ends it, with a result or
an error.
-/

namespace Walk

/-- What a pass leaves: a place to go on from, or the result. -/
inductive Next (σ ρ : Type*)
  | on (pos : ℕ) (s : σ)
  | done (r : ρ)

variable {σ ρ ε : Type*} {step : ℕ → σ → Except ε (Next σ ρ)} {n m limit pos pos' : ℕ} {s s' : σ}

/-- A walk of at most as many passes as its first argument, if they suffice. -/
@[grind =] def run (step : ℕ → σ → Except ε (Next σ ρ)) : ℕ → ℕ → σ → Option (Except ε ρ)
  | 0, _, _ => none
  | n + 1, pos, s =>
    match step pos s with
    | .error e => some (.error e)
    | .ok (.done r) => some (.ok r)
    | .ok (.on pos' s') => run step n pos' s'

/-- A walk that cannot take more passes than the buffer has places. -/
@[grind =] def walk (step : ℕ → σ → Except ε (Next σ ρ)) (limit pos : ℕ) (s : σ) : Option (Except ε ρ) :=
  run step (limit + 2) pos s

theorem run_on (h : step pos s = .ok (.on pos' s')) : run step (n + 1) pos s = run step n pos' s' := by
  rw [run, h]

theorem run_done {r : ρ} (h : step pos s = .ok (.done r)) : run step (n + 1) pos s = some (.ok r) := by
  rw [run, h]

theorem run_error {e : ε} (h : step pos s = .error e) :
    run step (n + 1) pos s = some (.error e) := by
  rw [run, h]

/-- A pass that goes on starts in the buffer and ends later. -/
def Advances (step : ℕ → σ → Except ε (Next σ ρ)) (limit : ℕ) : Prop :=
  ∀ pos s pos' s', step pos s = .ok (.on pos' s') → pos < pos' ∧ pos ≤ limit

theorem run_isSome (h : Advances step limit) (hn : limit + 1 < n + pos) (hpos : 0 < n) :
    (run step n pos s).isSome := by
  induction n generalizing pos s with
  | zero => exact absurd hpos (Nat.lt_irrefl 0)
  | succ n ih =>
    cases hstep : step pos s with
    | error e => rw [run_error hstep]; rfl
    | ok next =>
      cases next with
      | done r => rw [run_done hstep]; rfl
      | on pos' s' =>
        obtain ⟨hlt, hle⟩ := h pos s pos' s' hstep
        rw [run_on hstep]
        by_cases hn' : n = 0
        · omega
        · exact ih (by omega) (by omega)

theorem walk_isSome (h : Advances step limit) (pos : ℕ) (s : σ) : (walk step limit pos s).isSome :=
  run_isSome h (by omega) (by omega)

/-- More passes than suffice change nothing. -/
theorem run_mono {r : Except ε ρ} (h : run step n pos s = some r) (hle : n ≤ m) :
    run step m pos s = some r := by
  induction n generalizing m pos s with
  | zero => cases h
  | succ n ih =>
    obtain ⟨m, rfl⟩ := Nat.exists_eq_add_of_le' (Nat.lt_of_lt_of_le (Nat.succ_pos n) hle)
    cases hstep : step pos s with
    | error e => rw [run_error hstep] at h ⊢; exact h
    | ok next =>
      cases next with
      | done r => rw [run_done hstep] at h ⊢; exact h
      | on pos' s' =>
        rw [run_on hstep] at h ⊢
        exact ih h (by omega)

/-- What a walk comes to in some number of passes. -/
theorem walk_eq (h : Advances step limit) {r : Except ε ρ} (hn : run step n pos s = some r) :
    walk step limit pos s = some r := by
  obtain ⟨r', hr'⟩ := Option.isSome_iff_exists.mp (walk_isSome h pos s)
  rcases Nat.le_total n (limit + 2) with hle | hle
  · exact run_mono hn hle
  · have hboth := run_mono hr' hle
    rw [hn] at hboth
    rw [hr', ← hboth]

/-- A walk goes on as from where its first pass leads. -/
theorem walk_on (h : Advances step limit) (hstep : step pos s = .ok (.on pos' s')) :
    walk step limit pos s = walk step limit pos' s' := by
  obtain ⟨r, hr⟩ := Option.isSome_iff_exists.mp (walk_isSome h pos' s')
  rw [hr]
  exact walk_eq h ((run_on hstep).trans hr)

theorem walk_done {r : ρ} (h : step pos s = .ok (.done r)) :
    walk step limit pos s = some (.ok r) := run_done h

/-- Errors and results have what each pass from a good place gives them. -/
theorem run_cases {I : ℕ → σ → Prop} {P : Except ε ρ → Prop}
    (herror : ∀ pos s e, I pos s → step pos s = .error e → P (.error e))
    (hdone : ∀ pos s r, I pos s → step pos s = .ok (.done r) → P (.ok r))
    (hon : ∀ pos s pos' s', I pos s → step pos s = .ok (.on pos' s') → I pos' s')
    {r : Except ε ρ} (hI : I pos s) (h : run step n pos s = some r) : P r := by
  induction n generalizing pos s with
  | zero => cases h
  | succ n ih =>
    cases hstep : step pos s with
    | error e =>
      rw [run_error hstep] at h
      exact Option.some.inj h ▸ herror pos s e hI hstep
    | ok next =>
      cases next with
      | done r =>
        rw [run_done hstep] at h
        exact Option.some.inj h ▸ hdone pos s r hI hstep
      | on pos' s' =>
        rw [run_on hstep] at h
        exact ih (hon pos s pos' s' hI hstep) h

end Walk
