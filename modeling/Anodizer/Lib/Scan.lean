import Mathlib.Data.List.Basic
import Mathlib.Tactic.Common

/-! # Scans

A scan reads its input from left to right. Each step emits something, may skip
ahead, and leaves a state for the next step.
-/

namespace Scan

/-- What a step emits, the state it leaves and the input still to read. -/
structure Step (σ α β : Type*) where
  emit : List β
  state : σ
  rest : List α

variable {σ α β : Type*}

/-- A scan of at most as many steps as its first argument. -/
def run (step : σ → α → List α → Step σ α β) : ℕ → σ → List α → List β
  | 0, _, _ => []
  | _ + 1, _, [] => []
  | n + 1, s, a :: as =>
    let t := step s a as
    t.emit ++ run step n t.state t.rest

/-- The whole scan: every step reads at least one element. -/
def scan (step : σ → α → List α → Step σ α β) (s : σ) (as : List α) : List β :=
  run step as.length s as

variable {step : σ → α → List α → Step σ α β} {s : σ} {as : List α}

@[simp] theorem scan_nil : scan step s [] = [] := rfl

/-- Every step reads at least one element. -/
def Shrinks (step : σ → α → List α → Step σ α β) : Prop :=
  ∀ s a as, (step s a as).rest.length ≤ as.length

/-- Enough steps are as good as any. -/
theorem run_congr (h : Shrinks step) {n k : ℕ} (hn : as.length ≤ n) (hk : as.length ≤ k) :
    run step n s as = run step k s as := by
  induction n generalizing s as k with
  | zero =>
    obtain rfl := List.length_eq_zero_iff.mp (Nat.le_zero.mp hn)
    cases k <;> rfl
  | succ n ih =>
    cases as with
    | nil => cases k <;> rfl
    | cons a as =>
      cases k with
      | zero => simp at hk
      | succ k =>
        have hlen := h s a as
        simp only [List.length_cons] at hn hk
        exact congrArg ((step s a as).emit ++ ·) (ih (by omega) (by omega))

theorem scan_cons (h : Shrinks step) {a : α} : scan step s (a :: as) =
    (step s a as).emit ++ scan step (step s a as).state (step s a as).rest :=
  congrArg _ (run_congr h (h s a as) (Nat.le_refl _))

/-- A scan through elements that each stand for themselves. -/
theorem scan_append (h : Shrinks step) {f : α → List β} {pre rest : List α}
    (hpre : ∀ a c b, pre = a ++ c :: b → step s c (b ++ rest) = ⟨f c, s, b ++ rest⟩) :
    scan step s (pre ++ rest) = pre.flatMap f ++ scan step s rest := by
  induction pre with
  | nil => rfl
  | cons c pre ih =>
    have hstep := hpre [] c pre rfl
    rw [List.cons_append, scan_cons h, hstep, List.flatMap_cons, List.append_assoc]
    simp only [ih fun a d b hab => hpre (c :: a) d b (by rw [hab, List.cons_append])]

/-- A step reads what its emission stands for, and keeps the invariant for the rest. -/
def Faithful (step : σ → α → List α → Step σ α β) (read : β → List α)
    (I : σ → List α → Prop) : Prop :=
  ∀ s a as, I s (a :: as) →
    (step s a as).emit.flatMap read ++ (step s a as).rest = a :: as ∧
    (step s a as).rest.length ≤ as.length ∧ I (step s a as).state (step s a as).rest

theorem run_faithful {read : β → List α} {I : σ → List α → Prop} (h : Faithful step read I)
    {n : ℕ} (hn : as.length ≤ n) (hI : I s as) : (run step n s as).flatMap read = as := by
  induction n generalizing s as with
  | zero =>
    rw [List.length_eq_zero_iff.mp (Nat.le_zero.mp hn)]
    rfl
  | succ n ih =>
    cases as with
    | nil => rfl
    | cons a as =>
      obtain ⟨heq, hlen, hI'⟩ := h s a as hI
      simp only [List.length_cons] at hn
      rw [run, List.flatMap_append, ih (by omega) hI', heq]

/-- What a faithful scan emits stands for its whole input. -/
theorem scan_faithful {read : β → List α} {I : σ → List α → Prop} (h : Faithful step read I)
    (hI : I s as) : (scan step s as).flatMap read = as :=
  run_faithful h (Nat.le_refl _) hI

/-- What every step emits under an invariant, the whole scan emits. -/
theorem forall_scan {P : β → Prop} {I : σ → List α → Prop}
    (h : ∀ s a as, I s (a :: as) →
      (∀ b ∈ (step s a as).emit, P b) ∧ I (step s a as).state (step s a as).rest)
    (hI : I s as) : ∀ b ∈ scan step s as, P b := by
  unfold scan
  generalize as.length = n
  induction n generalizing s as with
  | zero => simp [run]
  | succ n ih =>
    cases as with
    | nil => simp [run]
    | cons a as =>
      obtain ⟨hP, hI'⟩ := h s a as hI
      intro b hb
      rcases List.mem_append.mp hb with hb | hb
      · exact hP b hb
      · exact ih hI' b hb

/-- A step that emits the input it reads. -/
def Copies (step : σ → α → List α → Step σ α α) (I : σ → List α → Prop) : Prop :=
  Faithful step (fun a => [a]) I

/-- A scan that copies at every step is the identity. -/
theorem scan_copies {step : σ → α → List α → Step σ α α} {I : σ → List α → Prop}
    (h : Copies step I) (hI : I s as) : scan step s as = as := by
  have := scan_faithful h hI
  rwa [List.flatMap_singleton'] at this

end Scan

/-! ## Scans that stop

A scan of a part of its input stops where the next step could still depend on what follows.
Continued from there with what follows, it emits what a scan of the whole emits.
-/

namespace Scan

variable {σ α β : Type*}

/-- What a scan emitted, its state where it stopped and the input it left. -/
structure Stopped (σ α β : Type*) where
  emit : List β
  state : σ
  rest : List α

/-- A scan of at most as many steps as its argument, that stops where it is told to. -/
def runTo (step : σ → α → List α → Step σ α β) (stop : List α → Bool) :
    ℕ → σ → List α → Stopped σ α β
  | 0, s, as => ⟨[], s, as⟩
  | _ + 1, s, [] => ⟨[], s, []⟩
  | n + 1, s, a :: as =>
    if stop (a :: as) then ⟨[], s, a :: as⟩
    else
      let t := step s a as
      let k := runTo step stop n t.state t.rest
      ⟨t.emit ++ k.emit, k.state, k.rest⟩

/-- The scan up to where it stops. -/
def scanTo (step : σ → α → List α → Step σ α β) (stop : List α → Bool) (s : σ) (as : List α) :
    Stopped σ α β :=
  runTo step stop as.length s as

variable {step : σ → α → List α → Step σ α β} {stop stop' : List α → Bool} {s : σ} {a : α}
  {as : List α}

/-- What holds of the end of the input, and of a step if it holds of what the step leaves, holds of
every input. -/
theorem induction (h : Shrinks step) {motive : σ → List α → Prop} (nil : ∀ s, motive s [])
    (cons : ∀ s a as, motive (step s a as).state (step s a as).rest → motive s (a :: as)) (s : σ)
    (as : List α) : motive s as := by
  suffices hall : ∀ n s as, as.length ≤ n → motive s as from hall _ s as (Nat.le_refl _)
  intro n
  induction n with
  | zero =>
    intro s as hn
    rw [List.length_eq_zero_iff.mp (Nat.le_zero.mp hn)]
    exact nil s
  | succ n ih =>
    intro s as hn
    cases as with
    | nil => exact nil s
    | cons a as =>
      have hlen := h s a as
      rw [List.length_cons] at hn
      exact cons s a as (ih _ _ (by omega))

@[simp] theorem scanTo_nil : scanTo step stop s [] = ⟨[], s, []⟩ := rfl

theorem runTo_congr (h : Shrinks step) {n k : ℕ} (hn : as.length ≤ n) (hk : as.length ≤ k) :
    runTo step stop n s as = runTo step stop k s as := by
  induction n generalizing s as k with
  | zero =>
    obtain rfl := List.length_eq_zero_iff.mp (Nat.le_zero.mp hn)
    cases k <;> rfl
  | succ n ih =>
    cases as with
    | nil => cases k <;> rfl
    | cons a as =>
      cases k with
      | zero => simp at hk
      | succ k =>
        have hlen := h s a as
        simp only [List.length_cons] at hn hk
        have hrest : runTo step stop n (step s a as).state (step s a as).rest =
            runTo step stop k (step s a as).state (step s a as).rest := ih (by omega) (by omega)
        simp only [runTo, hrest]

theorem scanTo_stop (hstop : stop (a :: as)) : scanTo step stop s (a :: as) = ⟨[], s, a :: as⟩ := by
  simp only [scanTo, List.length_cons, runTo, hstop, if_true]

theorem scanTo_cons (h : Shrinks step) (hstop : stop (a :: as) = false) :
    scanTo step stop s (a :: as) =
      let t := step s a as
      let k := scanTo step stop t.state t.rest
      ⟨t.emit ++ k.emit, k.state, k.rest⟩ := by
  have hcongr : runTo step stop as.length (step s a as).state (step s a as).rest =
      scanTo step stop (step s a as).state (step s a as).rest :=
    runTo_congr h (h s a as) (Nat.le_refl _)
  change (if stop (a :: as) then _ else _) = _
  rw [hstop]
  simp only [hcongr]
  rfl

/-- A scan that stops nowhere is a scan of the whole. -/
theorem scanTo_never (h : Shrinks step) (s : σ) (as : List α) :
    (scanTo step (fun _ => false) s as).emit = scan step s as ∧
      (scanTo step (fun _ => false) s as).rest = [] := by
  induction s, as using induction h with
  | nil s => exact ⟨rfl, rfl⟩
  | cons s a as ih =>
    rw [scanTo_cons h rfl, scan_cons h]
    exact ⟨congrArg _ ih.1, ih.2⟩

/-- Where the scan does not stop, what follows the input does not change the step. -/
def Decides (step : σ → α → List α → Step σ α β) (stop : List α → Bool) : Prop :=
  ∀ s a as more, stop (a :: as) = false →
    step s a (as ++ more) = ⟨(step s a as).emit, (step s a as).state, (step s a as).rest ++ more⟩

/-- A scan goes on where it stopped. -/
theorem scan_append_of_decides (h : Shrinks step) (hdec : Decides step stop) (more : List α)
    (s : σ) (as : List α) : scan step s (as ++ more) = (scanTo step stop s as).emit ++
      scan step (scanTo step stop s as).state ((scanTo step stop s as).rest ++ more) := by
  induction s, as using induction h with
  | nil s => rfl
  | cons s a as ih =>
    cases hstop : stop (a :: as) with
    | true => rw [scanTo_stop hstop, List.nil_append]
    | false =>
      rw [scanTo_cons h hstop, List.cons_append, scan_cons h, hdec s a as more hstop, ih,
        List.append_assoc]

/-- What is left is nothing, or an input at which the scan stops. -/
theorem scanTo_rest (h : Shrinks step) (s : σ) (as : List α) :
    (scanTo step stop s as).rest = [] ∨ stop (scanTo step stop s as).rest := by
  induction s, as using induction h with
  | nil s => exact .inl rfl
  | cons s a as ih =>
    cases hstop : stop (a :: as) with
    | true =>
      rw [scanTo_stop hstop]
      exact .inr hstop
    | false =>
      rw [scanTo_cons h hstop]
      exact ih

/-- Every step leaves an end of its input. -/
def LeavesSuffix (step : σ → α → List α → Step σ α β) : Prop :=
  ∀ s a as, (step s a as).rest <:+ as

theorem LeavesSuffix.shrinks (h : LeavesSuffix step) : Shrinks step := fun s a as =>
  (h s a as).length_le

/-- Two scans that stop at the same ends of the input are the same. -/
theorem scanTo_congr (h : LeavesSuffix step) (s : σ) (as : List α)
    (hstop : ∀ t, t <:+ as → t ≠ [] → stop t = stop' t) :
    scanTo step stop s as = scanTo step stop' s as := by
  induction s, as using induction h.shrinks with
  | nil s => rfl
  | cons s a as ih =>
    have hsame := hstop _ (List.suffix_refl _) (List.cons_ne_nil a as)
    cases hat : stop (a :: as) with
    | true => rw [scanTo_stop hat, scanTo_stop (hsame ▸ hat)]
    | false =>
      have hrest := ih fun t ht => hstop t ((ht.trans (h s a as)).trans (List.suffix_cons a as))
      rw [scanTo_cons h.shrinks hat, scanTo_cons h.shrinks (hsame ▸ hat)]
      simp only [hrest]

end Scan
