import Mathlib.Tactic.Common

/-! # Bounded retry

An operation is tried again until it succeeds, fails for good, or has no attempt left. Each
attempt changes a state and leaves a record.
-/

namespace Attempts

/-- What an attempt decides. -/
inductive Step (β ε : Type*)
  | done (b : β)
  | fail (e : ε)
  | retry (e : ε) (giveUp : Bool)
  deriving DecidableEq, Repr

structure Run (σ γ β ε : Type*) where
  state : σ
  log : List γ
  result : Except ε β

variable {σ γ β ε : Type*} (op : ℕ → σ → σ × γ × Step β ε)

/-- The attempts from the given one on, with at most `left` more after it. -/
@[grind =] def run : ℕ → ℕ → σ → Run σ γ β ε
  | 0, attempt, s =>
    match op attempt s with
    | (s', c, .done b) => ⟨s', [c], .ok b⟩
    | (s', c, .fail e) => ⟨s', [c], .error e⟩
    | (s', c, .retry e _) => ⟨s', [c], .error e⟩
  | left + 1, attempt, s =>
    match op attempt s with
    | (s', c, .done b) => ⟨s', [c], .ok b⟩
    | (s', c, .fail e) => ⟨s', [c], .error e⟩
    | (s', c, .retry e giveUp) =>
      if giveUp then ⟨s', [c], .error e⟩
      else
        let rest := run left (attempt + 1) s'
        { rest with log := c :: rest.log }

/-- A run is one last attempt, or an attempt and the run after it. -/
theorem run_cases (left attempt : ℕ) (s : σ) :
    (∃ s' c step, op attempt s = (s', c, step) ∧
      (run op left attempt s).state = s' ∧ (run op left attempt s).log = [c] ∧
      ∀ b, (run op left attempt s).result = .ok b → step = .done b) ∨
    ∃ s' c e l, op attempt s = (s', c, .retry e false) ∧ left = l + 1 ∧
      (run op left attempt s).state = (run op l (attempt + 1) s').state ∧
      (run op left attempt s).log = c :: (run op l (attempt + 1) s').log ∧
      (run op left attempt s).result = (run op l (attempt + 1) s').result := by
  rcases hop : op attempt s with ⟨s', c, step⟩
  cases left with
  | zero =>
    left
    refine ⟨s', c, step, rfl, ?_⟩
    rw [run, hop]
    cases step <;> simp
  | succ left =>
    rw [run, hop]
    cases step with
    | done b =>
      left
      exact ⟨s', c, .done b, rfl, rfl, rfl, fun b' h => by rw [Except.ok.inj h]⟩
    | fail e =>
      left
      exact ⟨s', c, .fail e, rfl, rfl, rfl, fun b h => nomatch h⟩
    | retry e giveUp =>
      cases giveUp with
      | true =>
        left
        exact ⟨s', c, .retry e true, rfl, rfl, rfl, fun b h => nomatch h⟩
      | false =>
        right
        exact ⟨s', c, e, left, rfl, rfl, rfl, rfl, rfl⟩

/-- The attempts are bounded. -/
theorem length_log_le (left attempt : ℕ) (s : σ) :
    (run op left attempt s).log.length ≤ left + 1 := by
  induction left generalizing attempt s with
  | zero =>
    rcases run_cases op 0 attempt s with ⟨_, _, _, -, -, hlog, -⟩ | ⟨_, _, _, _, -, hleft, -⟩
    · simp [hlog]
    · omega
  | succ left ih =>
    rcases run_cases op (left + 1) attempt s with
      ⟨_, _, _, -, -, hlog, -⟩ | ⟨s', _, _, l, -, hleft, -, hlog, -⟩
    · rw [hlog, List.length_singleton]
      omega
    · obtain rfl : left = l := by omega
      have h := ih (attempt + 1) s'
      rw [hlog, List.length_cons]
      omega

/-- What every attempt's record satisfies, every record of a run does. -/
theorem forall_log {P : γ → Prop} (h : ∀ n s, P (op n s).2.1) (left attempt : ℕ) (s : σ) :
    ∀ c ∈ (run op left attempt s).log, P c := by
  induction left generalizing attempt s with
  | zero =>
    rcases run_cases op 0 attempt s with ⟨_, _, _, hop, -, hlog, -⟩ | ⟨_, _, _, _, -, hleft, -⟩
    · intro c hc
      rw [hlog, List.mem_singleton] at hc
      subst hc
      simpa [hop] using h attempt s
    · omega
  | succ left ih =>
    rcases run_cases op (left + 1) attempt s with
      ⟨_, _, _, hop, -, hlog, -⟩ | ⟨s', _, _, l, hop, hleft, -, hlog, -⟩
    · intro c hc
      rw [hlog, List.mem_singleton] at hc
      subst hc
      simpa [hop] using h attempt s
    · obtain rfl : left = l := by omega
      intro c hc
      rw [hlog, List.mem_cons] at hc
      rcases hc with rfl | hc
      · simpa [hop] using h attempt s
      · exact ih (attempt + 1) s' c hc

/-- A run that succeeds ends with an attempt that does. -/
theorem exists_done (left attempt : ℕ) (s : σ) {b : β}
    (h : (run op left attempt s).result = .ok b) :
    ∃ n s₀ c, c ∈ (run op left attempt s).log ∧
      op n s₀ = ((run op left attempt s).state, c, .done b) := by
  induction left generalizing attempt s with
  | zero =>
    rcases run_cases op 0 attempt s with
      ⟨s', c, step, hop, hstate, hlog, hdone⟩ | ⟨_, _, _, _, -, hleft, -⟩
    · refine ⟨attempt, s, c, by simp [hlog], ?_⟩
      rw [hop, hstate, hdone b h]
    · omega
  | succ left ih =>
    rcases run_cases op (left + 1) attempt s with
      ⟨s', c, step, hop, hstate, hlog, hdone⟩ | ⟨s', c, _, l, hop, hleft, hstate, hlog, hresult⟩
    · refine ⟨attempt, s, c, by simp [hlog], ?_⟩
      rw [hop, hstate, hdone b h]
    · obtain rfl : left = l := by omega
      obtain ⟨n, s₀, c', hc', hop'⟩ := ih (attempt + 1) s' (by rw [← hresult, h])
      refine ⟨n, s₀, c', ?_, by rw [hstate]; exact hop'⟩
      rw [hlog]
      exact List.mem_cons_of_mem _ hc'

/-! ### Attempts without a state -/

/-- Attempts that are recorded by their numbers. -/
def numbered (step : ℕ → Step β ε) (n : ℕ) (_ : Unit) : Unit × ℕ × Step β ε := ((), n, step n)

/-- Another attempt is asked for. -/
def Step.Continues (s : Step β ε) : Prop := ∃ e, s = .retry e false

/-- An attempt is made when every one before it asked for another. -/
theorem mem_log_numbered {step : ℕ → Step β ε} {left attempt m : ℕ} :
    m ∈ (run (numbered step) left attempt ()).log ↔
      attempt ≤ m ∧ m ≤ attempt + left ∧ ∀ k, attempt ≤ k → k < m → (step k).Continues := by
  induction left generalizing attempt with
  | zero =>
    have hlog : (run (numbered step) 0 attempt ()).log = [attempt] := by
      rw [run, numbered]
      cases step attempt <;> rfl
    rw [hlog, List.mem_singleton]
    constructor
    · rintro rfl
      exact ⟨Nat.le_refl _, Nat.le_refl _, by omega⟩
    · rintro ⟨h, h', -⟩
      omega
  | succ left ih =>
    rcases hstep : step attempt with b | e | ⟨e, _ | _⟩
    case retry.false =>
      have hlog : (run (numbered step) (left + 1) attempt ()).log =
          attempt :: (run (numbered step) left (attempt + 1) ()).log := by
        rw [run, numbered, hstep]
        rfl
      rw [hlog, List.mem_cons, ih]
      constructor
      · rintro (rfl | ⟨hge, hle, hall⟩)
        · exact ⟨Nat.le_refl _, by omega, by omega⟩
        · refine ⟨by omega, by omega, fun k hk hlt => ?_⟩
          rcases Nat.eq_or_lt_of_le hk with rfl | hk
          · exact ⟨e, hstep⟩
          · exact hall k hk hlt
      · rintro ⟨hge, hle, hall⟩
        rcases Nat.eq_or_lt_of_le hge with rfl | hge
        · exact .inl rfl
        · exact .inr ⟨hge, by omega, fun k hk => hall k (by omega)⟩
    all_goals
      have hlog : (run (numbered step) (left + 1) attempt ()).log = [attempt] := by
        simp [run, numbered, hstep]
      rw [hlog, List.mem_singleton]
      constructor
      · rintro rfl
        exact ⟨Nat.le_refl _, by omega, by omega⟩
      · rintro ⟨hge, -, hall⟩
        rcases Nat.eq_or_lt_of_le hge with rfl | hge
        · rfl
        · obtain ⟨e', he⟩ := hall attempt (Nat.le_refl _) hge
          rw [hstep] at he
          cases he

/-- After an attempt there is another when it asks for one and one is left. -/
theorem succ_mem_log_numbered {step : ℕ → Step β ε} {left attempt n : ℕ}
    (h : n ∈ (run (numbered step) left attempt ()).log) :
    n + 1 ∈ (run (numbered step) left attempt ()).log ↔
      (step n).Continues ∧ n < attempt + left := by
  obtain ⟨hge, hle, hall⟩ := mem_log_numbered.mp h
  rw [mem_log_numbered]
  constructor
  · rintro ⟨-, hlt, hall'⟩
    exact ⟨hall' n hge (Nat.lt_succ_self n), by omega⟩
  · rintro ⟨hcont, hlt⟩
    refine ⟨by omega, by omega, fun k hk hkn => ?_⟩
    rcases Nat.eq_or_lt_of_le (Nat.le_of_lt_succ hkn) with rfl | hkn
    · exact hcont
    · exact hall k hk hkn

end Attempts
