import Mathlib.Data.List.Basic
import Mathlib.Tactic.Common

/-! # Loops with an early exit

The body of a `for` loop either goes on with a new state or leaves the loop.
A nested loop whose body leaves both levels is one loop over the concatenation.
-/

namespace Loop

/-- What one pass through a loop body does. -/
inductive Flow (σ ε : Type*)
  | next (s : σ)
  | stop (e : ε)
  deriving DecidableEq, Repr

variable {α β σ ε : Type*}

/-- Run a loop body over a list, from the state `s`, until it leaves the loop. -/
@[grind =] def run (body : α → σ → Flow σ ε) : List α → σ → Flow σ ε
  | [], s => .next s
  | a :: as, s =>
    match body a s with
    | .next s' => run body as s'
    | .stop e => .stop e

namespace Flow

/-- The state a loop ends in when leaving it early also carries a state. -/
def exit : Flow σ σ → σ
  | .next s => s
  | .stop s => s

@[simp] theorem exit_next (s : σ) : (Flow.next s : Flow σ σ).exit = s := rfl

@[simp] theorem exit_stop (s : σ) : (Flow.stop s : Flow σ σ).exit = s := rfl

/-- A postcondition of each way out of a body. -/
def Holds (P : σ → Prop) (Q : ε → Prop) : Flow σ ε → Prop
  | .next s => P s
  | .stop e => Q e

@[simp] theorem holds_next {P : σ → Prop} {Q : ε → Prop} {s : σ} :
    (Flow.next s : Flow σ ε).Holds P Q ↔ P s := .rfl

@[simp] theorem holds_stop {P : σ → Prop} {Q : ε → Prop} {e : ε} :
    (Flow.stop e : Flow σ ε).Holds P Q ↔ Q e := .rfl

theorem Holds.mono {P P' : σ → Prop} {Q Q' : ε → Prop} {f : Flow σ ε} (h : f.Holds P Q)
    (hP : ∀ s, P s → P' s) (hQ : ∀ e, Q e → Q' e) : f.Holds P' Q' := by
  cases f with
  | next s => exact hP s h
  | stop e => exact hQ e h

theorem Holds.exit {P : σ → Prop} {f : Flow σ σ} (h : f.Holds P P) : P f.exit := by
  cases f <;> exact h

end Flow

variable {body : α → σ → Flow σ ε}

@[simp] theorem run_nil (s : σ) : run body [] s = .next s := rfl

theorem run_cons_next {a : α} {as : List α} {s s' : σ} (h : body a s = .next s') :
    run body (a :: as) s = run body as s' := by
  simp only [run, h]

theorem run_cons_stop {a : α} {as : List α} {s : σ} {e : ε} (h : body a s = .stop e) :
    run body (a :: as) s = .stop e := by
  simp only [run, h]

theorem run_append_next {xs ys : List α} {s s' : σ} (h : run body xs s = .next s') :
    run body (xs ++ ys) s = run body ys s' := by
  induction xs generalizing s with
  | nil => cases h; rfl
  | cons a xs ih =>
    cases hb : body a s with
    | next t =>
      rw [run_cons_next hb] at h
      rw [List.cons_append, run_cons_next hb, ih h]
    | stop e =>
      rw [run_cons_stop hb] at h
      cases h

theorem run_append_stop {xs ys : List α} {s : σ} {e : ε} (h : run body xs s = .stop e) :
    run body (xs ++ ys) s = .stop e := by
  induction xs generalizing s with
  | nil => cases h
  | cons a xs ih =>
    cases hb : body a s with
    | next t =>
      rw [run_cons_next hb] at h
      rw [List.cons_append, run_cons_next hb, ih h]
    | stop e' =>
      rw [run_cons_stop hb] at h
      cases h
      rw [List.cons_append, run_cons_stop hb]

/-- Leaving the inner loop leaves the outer one too: the two are one loop. -/
theorem run_nested {f : β → List α} {bs : List β} {s : σ} :
    run (fun b t => run body (f b) t) bs s = run body (bs.flatMap f) s := by
  induction bs generalizing s with
  | nil => rfl
  | cons b bs ih =>
    rw [List.flatMap_cons]
    cases h : run body (f b) s with
    | next t =>
      rw [run_append_next h, ← ih]
      exact run_cons_next h
    | stop e =>
      rw [run_append_stop h]
      exact run_cons_stop h

/-- The loop reaches `a`, after `pre`, in the state `t`. -/
def Reaches (body : α → σ → Flow σ ε) (xs : List α) (s : σ) (pre : List α) (a : α) (t : σ) :
    Prop :=
  ∃ post, xs = pre ++ a :: post ∧ run body pre s = .next t

/-- The invariant rule, with the elements visited so far in view. -/
theorem run_visited {I : List α → σ → Prop} {Q : ε → Prop} {xs : List α} {s : σ} (h0 : I [] s)
    (step : ∀ pre a t, Reaches body xs s pre a t → I pre t → (body a t).Holds (I (pre ++ [a])) Q) :
    (run body xs s).Holds (I xs) Q := by
  suffices key : ∀ post pre t, xs = pre ++ post → run body pre s = .next t → I pre t →
      (run body post t).Holds (I xs) Q from key xs [] s rfl rfl h0
  intro post
  induction post with
  | nil =>
    intro pre t hx _ hI
    rw [hx, List.append_nil]
    exact hI
  | cons a post ih =>
    intro pre t hx ht hI
    have hs := step pre a t ⟨post, hx, ht⟩ hI
    cases hb : body a t with
    | next t' =>
      rw [hb] at hs
      rw [run_cons_next hb]
      refine ih (pre ++ [a]) t' (by simpa using hx) ?_ hs
      rw [run_append_next ht, run_cons_next hb, run_nil]
    | stop e =>
      rw [hb] at hs
      rw [run_cons_stop hb]
      exact hs

/-- The invariant rule: what every pass preserves, the loop preserves. -/
theorem run_inv {I : σ → Prop} {Q : ε → Prop} {xs : List α} {s : σ} (h0 : I s)
    (step : ∀ a ∈ xs, ∀ t, I t → (body a t).Holds I Q) : (run body xs s).Holds I Q :=
  run_visited (I := fun _ => I) h0 fun pre a t ⟨_, hx, _⟩ hI =>
    step a (hx ▸ List.mem_append_right pre (List.mem_cons_self ..)) t hI

/-- A loop that was left early was left by the pass over some element it reached. -/
theorem run_eq_stop_iff {xs : List α} {s : σ} {e : ε} :
    run body xs s = .stop e ↔ ∃ pre a t, Reaches body xs s pre a t ∧ body a t = .stop e := by
  constructor
  · intro h
    have hr : (run body xs s).Holds (fun _ => True)
        fun e => ∃ pre a t, Reaches body xs s pre a t ∧ body a t = .stop e := by
      refine run_visited (I := fun _ _ => True) trivial fun pre a t hr _ => ?_
      cases hb : body a t with
      | next t' => trivial
      | stop e' => exact ⟨pre, a, t, hr, hb⟩
    rw [h] at hr
    exact hr
  · rintro ⟨pre, a, t, ⟨post, rfl, ht⟩, hb⟩
    rw [run_append_next ht, run_cons_stop hb]

/-- Every element is reached, unless the loop was left at an earlier one. -/
theorem reaches_or_left {xs : List α} {s : σ} {i : ℕ} {a : α} (h : xs[i]? = some a) :
    (∃ pre t, pre.length = i ∧ Reaches body xs s pre a t) ∨
      ∃ pre b t e, pre.length < i ∧ Reaches body xs s pre b t ∧ body b t = .stop e := by
  obtain ⟨hi, ha⟩ := List.getElem?_eq_some_iff.mp h
  have hx : xs = xs.take i ++ a :: xs.drop (i + 1) := by
    rw [← ha, List.getElem_cons_drop, List.take_append_drop]
  have hl : (xs.take i).length = i := List.length_take_of_le (Nat.le_of_lt hi)
  cases hr : run body (xs.take i) s with
  | next t => exact .inl ⟨_, t, hl, _, hx, hr⟩
  | stop e =>
    obtain ⟨pre, b, t, ⟨post, hp, ht⟩, hb⟩ := run_eq_stop_iff.mp hr
    refine .inr ⟨pre, b, t, e, ?_, ⟨post ++ a :: xs.drop (i + 1), ?_, ht⟩, hb⟩
    · rw [← hl, hp]
      simp
    · rw [← List.cons_append, ← List.append_assoc, ← hp]
      exact hx

/-- A scan of the first entries finds one, or passes all of them, or comes to one that is outside
before it finds any. -/
theorem run_range_cases {n : ℕ} {body : ℕ → Unit → Flow Unit ε} {inside hit : ℕ → Prop}
    [DecidablePred inside] [DecidablePred hit] {yes out : ε}
    (hbody : ∀ i < n, body i () = if inside i then if hit i then .stop yes else .next ()
      else .stop out) (hdown : ∀ i, inside (i + 1) → inside i) :
    (∃ i < n, inside i ∧ hit i) ∧ run body (List.range n) () = .stop yes ∨
    (∀ i < n, inside i ∧ ¬ hit i) ∧ run body (List.range n) () = .next () ∨
    (∀ i < n, inside i → ¬ hit i) ∧ (∃ i < n, ¬ inside i) ∧
      run body (List.range n) () = .stop out := by
  have hle : ∀ j i, i ≤ j → inside j → inside i := by
    intro j i hij
    induction hij with
    | refl => exact id
    | step _ ih => exact fun h => ih (hdown _ h)
  induction n with
  | zero => exact .inr (.inl ⟨by simp, rfl⟩)
  | succ n ih =>
    rw [List.range_succ]
    rcases ih fun i hi => hbody i (by omega) with ⟨⟨i, hi, hfound⟩, hrun⟩ | ⟨hall, hrun⟩ |
      ⟨hno, ⟨i, hi, hout⟩, hrun⟩
    · exact .inl ⟨⟨i, by omega, hfound⟩, run_append_stop hrun⟩
    · have hlast := hbody n (by omega)
      rw [run_append_next hrun]
      by_cases hin : inside n
      · by_cases hhit : hit n
        · rw [if_pos hin, if_pos hhit] at hlast
          exact .inl ⟨⟨n, by omega, hin, hhit⟩, run_cons_stop hlast⟩
        · rw [if_pos hin, if_neg hhit] at hlast
          refine .inr (.inl ⟨fun i hi => ?_, run_cons_next hlast⟩)
          rcases Nat.lt_succ_iff_lt_or_eq.mp hi with hi | rfl
          · exact hall i hi
          · exact ⟨hin, hhit⟩
      · rw [if_neg hin] at hlast
        refine .inr (.inr ⟨fun i hi hin' => ?_, ⟨n, by omega, hin⟩, run_cons_stop hlast⟩)
        rcases Nat.lt_succ_iff_lt_or_eq.mp hi with hi | rfl
        · exact (hall i hi).2
        · exact absurd hin' hin
    · refine .inr (.inr ⟨fun j hj hin => ?_, ⟨i, by omega, hout⟩, run_append_stop hrun⟩)
      rcases Nat.lt_succ_iff_lt_or_eq.mp hj with hj | rfl
      · exact hno j hj hin
      · exact absurd (hle j i (Nat.le_of_lt hi) hin) hout

/-- A loop of checks passes when every check does. -/
theorem forM_ok_iff {α ε : Type} {check : α → Except ε Unit} {xs : List α} :
    xs.forM check = .ok () ↔ ∀ x ∈ xs, check x = .ok () := by
  induction xs with
  | nil => simp [pure, Except.pure]
  | cons x xs ih =>
    cases h : check x with
    | error e => simp [bind, Except.bind, h]
    | ok u => simpa [bind, Except.bind, h] using ih

end Loop

/-! ## Outputs written once

A loop writes outputs into a store and appends records to a log. When no two outputs have one key,
what a pass wrote is still there at the end.
-/

namespace Outputs

open Loop (Flow)

variable {α σ ε ι ρ κ ν : Type*} {store : σ → κ → Option ν} {key : ι → κ}
  {good : ι → Option ν → Prop} {os os' : List ι} {s t u : σ}

variable (store key good) in
/-- The outputs were written from one state to another, and nothing else was stored. -/
structure Wrote (os : List ι) (s t : σ) : Prop where
  stored : ∀ o ∈ os, good o (store t (key o))
  frame : ∀ k ∉ os.map key, store t k = store s k

namespace Wrote

theorem nil (s : σ) : Wrote store key good [] s s where
  stored _ h := absurd h List.not_mem_nil
  frame _ _ := rfl

theorem append (h : Wrote store key good os s t) (h' : Wrote store key good os' t u)
    (hapart : ∀ k ∈ os.map key, k ∉ os'.map key) : Wrote store key good (os ++ os') s u where
  stored o ho := by
    rcases List.mem_append.mp ho with ho | ho
    · rw [h'.frame _ (hapart _ (List.mem_map_of_mem ho))]
      exact h.stored o ho
    · exact h'.stored o ho
  frame k hk := by
    rw [List.map_append, List.mem_append, not_or] at hk
    rw [h'.frame k hk.2, h.frame k hk.1]

end Wrote

/-- A loop whose passes write outputs of their own writes them all. -/
theorem wrote_run {body : α → σ → Flow σ ε} {outs : α → List ι} {I : σ → Prop} {as : List α}
    (hI : I s) (hnodup : ((as.flatMap outs).map key).Nodup)
    (step : ∀ a ∈ as, ((outs a).map key).Nodup → ∀ t u, I t → body a t = .next u →
      I u ∧ Wrote store key good (outs a) t u)
    (hrun : Loop.run body as s = .next t) :
    I t ∧ Wrote store key good (as.flatMap outs) s t := by
  induction as generalizing s with
  | nil =>
    cases hrun
    exact ⟨hI, .nil _⟩
  | cons a as ih =>
    rw [List.flatMap_cons, List.map_append, List.nodup_append] at hnodup
    obtain ⟨hown, hnodup, hapart⟩ := hnodup
    cases hbody : body a s with
    | stop e =>
      rw [Loop.run_cons_stop hbody] at hrun
      cases hrun
    | next s' =>
      rw [Loop.run_cons_next hbody] at hrun
      obtain ⟨hI', hhead⟩ := step a List.mem_cons_self hown s s' hI hbody
      obtain ⟨hIt, htail⟩ := ih hI' hnodup (fun b hb => step b (List.mem_cons_of_mem _ hb)) hrun
      exact ⟨hIt, hhead.append htail fun k hk hk' => hapart k hk k hk' rfl⟩

/-- A loop whose passes append records appends them all, in order. -/
theorem appended_run {body : α → σ → Flow σ ε} (log : σ → List ρ) {records : α → List ρ}
    {as : List α} (step : ∀ a ∈ as, ∀ t u, body a t = .next u → log u = log t ++ records a)
    (hrun : Loop.run body as s = .next t) : log t = log s ++ as.flatMap records := by
  induction as generalizing s with
  | nil =>
    cases hrun
    exact (List.append_nil _).symm
  | cons a as ih =>
    cases hbody : body a s with
    | stop e =>
      rw [Loop.run_cons_stop hbody] at hrun
      cases hrun
    | next s' =>
      rw [Loop.run_cons_next hbody] at hrun
      rw [ih (fun b hb => step b (List.mem_cons_of_mem _ hb)) hrun,
        step a List.mem_cons_self s s' hbody, List.flatMap_cons, List.append_assoc]

end Outputs
