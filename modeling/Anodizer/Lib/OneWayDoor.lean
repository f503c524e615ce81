import Mathlib.Data.List.Infix
import Mathlib.Logic.Relation
import Mathlib.Tactic.Common

/-! # One-way doors

A log of rows, some of them bad, and irreversible steps that must not be taken
behind a bad row. Some steps also wait for a check that is made at most once.
The rules say which steps are allowed; the results hold for every run of them.
-/

namespace OneWayDoor

open Relation

/-- A call on the outside world, with the rows present when it was made. -/
inductive Call (δ ρ : Type*)
  | probe (door : δ) (rows : List ρ)
  | run (door : δ) (rows : List ρ)
  | check (passed : Bool)
  deriving DecidableEq, Repr

/-- Which rows close the doors, which steps are doors, and which of them wait for the check. -/
structure Policy (δ ρ : Type*) where
  bad : ρ → Prop
  door : δ → Prop
  checked : δ → Prop
  installed : Prop

structure State (δ ρ : Type*) where
  rows : List ρ
  evaluated : Bool
  blocked : Bool
  calls : List (Call δ ρ)

variable {δ ρ : Type*}

namespace State

def Open (P : Policy δ ρ) (s : State δ ρ) : Prop :=
  ∀ r ∈ s.rows, ¬ P.bad r

end State

/-- One allowed step. -/
inductive Move (P : Policy δ ρ) : State δ ρ → State δ ρ → Prop
  | record (s : State δ ρ) (rows : List ρ) : Move P s { s with rows }
  | probe (s : State δ ρ) (d : δ) (h : P.door d → s.Open P) :
      Move P s { s with calls := s.calls ++ [.probe d s.rows] }
  | run (s : State δ ρ) (d : δ) (h : P.door d → s.Open P)
      (hc : P.checked d → s.evaluated ∧ s.blocked = false) :
      Move P s { s with calls := s.calls ++ [.run d s.rows] }
  | waive (s : State δ ρ) (h : ¬ P.installed) : Move P s { s with evaluated := true }
  | check (s : State δ ρ) (passed : Bool) (h : P.installed) (he : s.evaluated = false) :
      Move P s { s with
        evaluated := true
        blocked := s.blocked || !passed
        calls := s.calls ++ [.check passed] }

/-- Any number of allowed steps. -/
abbrev Moves (P : Policy δ ρ) : State δ ρ → State δ ρ → Prop :=
  ReflTransGen (Move P)

/-- No call on a door was made while a bad row was present. -/
def BehindNoBadRow (P : Policy δ ρ) (calls : List (Call δ ρ)) : Prop :=
  ∀ d rows, P.door d → Call.probe d rows ∈ calls ∨ Call.run d rows ∈ calls → ∀ r ∈ rows, ¬ P.bad r

def Call.isCheck : Call δ ρ → Bool
  | .check _ => true
  | _ => false

/-- How often the check was made. -/
def checks (calls : List (Call δ ρ)) : ℕ :=
  calls.countP Call.isCheck

/-- Every checked step in the log has a passed check before it, unless `waived`. -/
def BehindCheck (P : Policy δ ρ) (waived : Prop) (calls : List (Call δ ρ)) : Prop :=
  ∀ before d rows, P.checked d → before ++ [Call.run d rows] <+: calls →
    waived ∨ Call.check true ∈ before

variable {P : Policy δ ρ} {s t : State δ ρ}

theorem behindNoBadRow_append {calls : List (Call δ ρ)} {c : Call δ ρ}
    (h : BehindNoBadRow P calls)
    (hc : ∀ d rows, P.door d → c = .probe d rows ∨ c = .run d rows → ∀ r ∈ rows, ¬ P.bad r) :
    BehindNoBadRow P (calls ++ [c]) := by
  intro d rows hd hm
  simp only [List.mem_append, List.mem_singleton] at hm
  rcases hm with (hm | hm) | (hm | hm)
  · exact h d rows hd (.inl hm)
  · exact hc d rows hd (.inl hm.symm)
  · exact h d rows hd (.inr hm)
  · exact hc d rows hd (.inr hm.symm)

theorem behindNoBadRow_move (step : Move P s t) (h : BehindNoBadRow P s.calls) :
    BehindNoBadRow P t.calls := by
  cases step with
  | record rows => exact h
  | probe d hd =>
    refine behindNoBadRow_append h fun d' rows hd' he => ?_
    rcases he with he | he <;> cases he
    exact hd hd'
  | run d hd _ =>
    refine behindNoBadRow_append h fun d' rows hd' he => ?_
    rcases he with he | he <;> cases he
    exact hd hd'
  | waive _ => exact h
  | check passed _ _ =>
    refine behindNoBadRow_append h fun d' rows _ he => ?_
    rcases he with he | he <;> cases he

/-- No run of the rules calls a door behind a bad row. -/
theorem behindNoBadRow_moves (run : Moves P s t) (h : BehindNoBadRow P s.calls) :
    BehindNoBadRow P t.calls := by
  induction run with
  | refl => exact h
  | tail _ step ih => exact behindNoBadRow_move step ih

/-- What ties the two bits to the log, for a run that started with `waived` true of its bits. -/
structure CheckHistory (P : Policy δ ρ) (waived : Prop) (s : State δ ρ) : Prop where
  once : checks s.calls ≤ if s.evaluated then 1 else 0
  cleared : P.installed → s.evaluated → s.blocked = false → waived ∨ Call.check true ∈ s.calls
  behind : P.installed → BehindCheck P waived s.calls

theorem behindCheck_append {waived : Prop} {calls : List (Call δ ρ)} {c : Call δ ρ}
    (h : BehindCheck P waived calls)
    (hc : ∀ d rows, P.checked d → c = .run d rows → waived ∨ Call.check true ∈ calls) :
    BehindCheck P waived (calls ++ [c]) := by
  intro before d rows hd hp
  rcases List.prefix_concat_iff.mp hp with he | hp
  · obtain ⟨hb, hr⟩ := List.append_inj' he rfl
    exact hb ▸ hc d rows hd (List.singleton_inj.mp hr).symm
  · exact h before d rows hd hp

theorem checkHistory_move {waived : Prop} (step : Move P s t) (h : CheckHistory P waived s) :
    CheckHistory P waived t := by
  cases step with
  | record rows => exact ⟨h.once, h.cleared, h.behind⟩
  | probe d hd =>
    refine ⟨?_, fun hi he hb => ?_, fun hi => ?_⟩
    · simpa [checks, Call.isCheck] using h.once
    · exact (h.cleared hi he hb).imp_right (List.mem_append_left _)
    · exact behindCheck_append (h.behind hi) fun _ _ _ he => by cases he
  | run d hd hc =>
    refine ⟨?_, fun hi he hb => ?_, fun hi => ?_⟩
    · simpa [checks, Call.isCheck] using h.once
    · exact (h.cleared hi he hb).imp_right (List.mem_append_left _)
    · refine behindCheck_append (h.behind hi) fun d' rows hd' he => ?_
      cases he
      exact h.cleared hi (hc hd').1 (hc hd').2
  | waive hn =>
    refine ⟨h.once.trans ?_, fun hi => absurd hi hn, fun hi => absurd hi hn⟩
    simp only [if_true]
    split <;> omega
  | check passed hi he =>
    have h0 := h.once
    simp only [he, Bool.false_eq_true, if_false, Nat.le_zero] at h0
    refine ⟨?_, fun _ _ hb => ?_, fun hi => ?_⟩
    · simp only [checks, List.countP_append] at h0 ⊢
      simp [h0, Call.isCheck]
    · obtain ⟨_, hp⟩ := Bool.or_eq_false_iff.mp hb
      rw [Bool.not_eq_false'] at hp
      subst hp
      exact .inr (List.mem_append_right _ (List.mem_singleton_self _))
    · exact behindCheck_append (h.behind hi) fun _ _ _ he => by cases he

theorem checkHistory_moves {waived : Prop} (run : Moves P s t) (h : CheckHistory P waived s) :
    CheckHistory P waived t := by
  induction run with
  | refl => exact h
  | tail _ step ih => exact checkHistory_move step ih

/-- Once evaluated, a report stays evaluated and the check is never made again. -/
theorem evaluated_moves (run : Moves P s t) (h : s.evaluated) :
    t.evaluated ∧ checks t.calls = checks s.calls := by
  induction run with
  | refl => exact ⟨h, rfl⟩
  | tail _ step ih =>
    cases step with
    | record rows => exact ih
    | probe d _ => simpa [checks, Call.isCheck] using ih
    | run d _ _ => simpa [checks, Call.isCheck] using ih
    | waive _ => exact ⟨rfl, ih.2⟩
    | check passed _ he => simp [ih.1] at he

/-- Over a whole run from an empty log the check is made at most once, and not at all when
it had been evaluated before; every checked step comes after a passed check. -/
theorem check_once_and_first (run : Moves P s t) (h0 : s.calls = []) :
    checks t.calls ≤ (if s.evaluated then 0 else 1) ∧
      (P.installed → BehindCheck P (s.evaluated ∧ s.blocked = false) t.calls) := by
  have hist : CheckHistory P (s.evaluated ∧ s.blocked = false) t := by
    refine checkHistory_moves run ⟨?_, fun _ he hb => .inl ⟨he, hb⟩, fun _ before d rows _ hp => ?_⟩
    · simp [h0, checks]
    · simp [h0] at hp
  refine ⟨?_, hist.behind⟩
  by_cases he : s.evaluated
  · have hc := (evaluated_moves run he).2
    rw [hc, h0, if_pos he]
    rfl
  · have ho := hist.once
    simp only [he, Bool.false_eq_true, if_false]
    split at ho <;> omega

end OneWayDoor
