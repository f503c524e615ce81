import Mathlib.Tactic.Common

/-! # Traversals that may fail

A traversal of a list succeeds when each of its calls does, and its results are theirs.
-/

namespace Traverse

variable {β γ ε : Type} {f : β → Except ε γ} {l : List β} {r : List γ}

theorem mapM_eq_ok : l.mapM f = .ok r ↔ l.map f = r.map .ok := by
  induction l generalizing r with
  | nil => cases r <;> simp [pure, Except.pure]
  | cons b l ih =>
    rw [List.mapM_cons, List.map_cons]
    cases hb : f b with
    | error e => cases r <;> simp [bind, Except.bind]
    | ok c =>
      cases hl : l.mapM f with
      | error e =>
        cases r with
        | nil => simp [bind, Except.bind]
        | cons d r =>
          have hne : l.map f ≠ r.map .ok := fun h => by simp [hl] at ih; exact ih h
          simp [bind, Except.bind, hne]
      | ok r' =>
        have hr' := ih.mp hl
        cases r with
        | nil => simp [bind, Except.bind, pure, Except.pure]
        | cons d r =>
          simp only [bind, Except.bind, pure, Except.pure, Except.ok.injEq, List.cons.injEq,
            List.map_cons, hr']
          rw [List.map_inj_right fun _ _ h => Except.ok.inj h]

theorem exists_mapM_eq_ok : (∃ r, l.mapM f = .ok r) ↔ ∀ b ∈ l, ∃ c, f b = .ok c := by
  induction l with
  | nil => simp [pure, Except.pure]
  | cons b l ih =>
    rw [List.mapM_cons, List.forall_mem_cons, ← ih]
    cases hb : f b with
    | error e => simp [bind, Except.bind]
    | ok c => cases hl : l.mapM f <;> simp [bind, Except.bind, pure, Except.pure]

theorem mapM_ok_map {δ : Type} {g : β → Except ε δ} (k : γ → δ)
    (hg : ∀ b c, f b = .ok c → g b = .ok (k c)) (h : l.mapM f = .ok r) :
    l.mapM g = .ok (r.map k) := by
  rw [mapM_eq_ok] at h ⊢
  induction l generalizing r with
  | nil =>
    obtain rfl : r = [] := by simpa using h.symm
    rfl
  | cons b l ih =>
    cases r with
    | nil => simp at h
    | cons c r =>
      obtain ⟨hb, hl⟩ := List.cons.inj h
      rw [List.map_cons, List.map_cons, List.map_cons, hg b c hb, ih hl]

/-- Where each call can be undone, so can the traversal. -/
theorem map_eq_of_mapM {k : γ → β} (hk : ∀ b c, f b = .ok c → k c = b) (h : l.mapM f = .ok r) :
    r.map k = l := by
  have hsame : l.mapM (.ok : β → Except ε β) = .ok (r.map k) :=
    mapM_ok_map k (fun b c hb => by rw [hk b c hb]) h
  exact (Except.ok.inj ((mapM_eq_ok.mpr rfl).symm.trans hsame)).symm

/-- Every result is that of a call. -/
theorem exists_of_mem_mapM {c : γ} (h : l.mapM f = .ok r) (hc : c ∈ r) : ∃ b ∈ l, f b = .ok c := by
  have hmem : (Except.ok c : Except ε γ) ∈ l.map f :=
    mapM_eq_ok.mp h ▸ List.mem_map_of_mem hc
  exact List.mem_map.mp hmem

theorem bind_eq_ok {x : Except ε β} {g : β → Except ε γ} {c : γ} :
    (x >>= g) = .ok c ↔ ∃ b, x = .ok b ∧ g b = .ok c := by
  cases x <;> simp [bind, Except.bind]

end Traverse
