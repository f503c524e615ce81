import Mathlib.Data.List.Basic
import Mathlib.Logic.Relation

/-! # Saturation

A rule adds its head to a set once one element of its body is there. Sweeping
over the rules until nothing is added gives the elements that reach the set.
-/

namespace Saturate

variable {ι α : Type*} [DecidableEq α] (head : ι → α) (body : ι → List α)

/-- Apply one rule. -/
def visit (set : List α) (r : ι) : List α :=
  if head r ∈ set then set else if (body r).any (· ∈ set) then set ++ [head r] else set

/-- Apply every rule once, in order. -/
def sweep (rules : List ι) (set : List α) : List α := rules.foldl (visit head body) set

/-- Sweep until nothing is added, at most as often as the first argument says. -/
def saturate (rules : List ι) : ℕ → List α → List α
  | 0, set => set
  | n + 1, set =>
    let next := sweep head body rules set
    if next.length = set.length then set else saturate rules n next

/-- An element gets in through one of the elements it depends on. -/
def Step (rules : List ι) (a b : α) : Prop := ∃ r ∈ rules, head r = a ∧ b ∈ body r

variable {head body} {rules all : List ι} {set : List α} {r : ι} {a : α} {n : ℕ}

variable (set) in
/-- A rule leaves the set as it is, or adds its head. -/
theorem visit_cases : (visit head body set r = set ∧
    ((∃ b ∈ body r, b ∈ set) → head r ∈ set)) ∨
    (visit head body set r = set ++ [head r] ∧ head r ∉ set ∧ ∃ b ∈ body r, b ∈ set) := by
  unfold visit
  split
  · next h => exact .inl ⟨rfl, fun _ => h⟩
  · next h =>
    split
    · next hb => exact .inr ⟨rfl, h, by simpa using hb⟩
    · next hb => exact .inl ⟨rfl, fun hb' => absurd (by simpa using hb') hb⟩

theorem prefix_visit : set <+: visit head body set r := by
  rcases visit_cases set (r := r) with ⟨h, -⟩ | ⟨h, -⟩
  · exact ⟨[], by rw [h, List.append_nil]⟩
  · exact ⟨_, h.symm⟩

theorem prefix_sweep : set <+: sweep head body rules set := by
  induction rules generalizing set with
  | nil => exact List.prefix_refl set
  | cons r rules ih => exact prefix_visit.trans ih

/-- A sweep that adds nothing finds no rule to apply. -/
theorem closed_of_sweep (h : sweep head body rules set = set) (hr : r ∈ rules)
    (hb : ∃ b ∈ body r, b ∈ set) : head r ∈ set := by
  induction rules with
  | nil => exact absurd hr (by simp)
  | cons q rules ih =>
    have hvisit : visit head body set q = set := by
      symm
      apply (prefix_visit (r := q)).eq_of_length_le
      calc (visit head body set q).length
          ≤ (sweep head body rules (visit head body set q)).length := prefix_sweep.length_le
        _ = set.length := congrArg List.length h
    rcases List.mem_cons.mp hr with rfl | hr
    · rcases visit_cases set (r := r) with
        ⟨-, hclosed⟩ | ⟨heq, -⟩
      · exact hclosed hb
      · rw [hvisit] at heq
        exact absurd (congrArg List.length heq) (by simp)
    · refine ih ?_ hr
      rwa [sweep, List.foldl_cons, hvisit] at h

variable (set) in
/-- What a sweep adds is new, the head of a rule, and reaches the set. -/
theorem sweep_eq (h : ∀ r ∈ rules, r ∈ all) : ∃ new, sweep head body rules set = set ++ new ∧
    ∀ a ∈ new, a ∉ set ∧ (∃ r ∈ all, head r = a) ∧
      ∃ b ∈ set, Relation.ReflTransGen (Step head body all) a b := by
  induction rules generalizing set with
  | nil => exact ⟨[], by simp [sweep], by simp⟩
  | cons r rules ih =>
    obtain ⟨hr, h⟩ := List.forall_mem_cons.mp h
    rw [sweep, List.foldl_cons]
    rcases visit_cases set (r := r) with
      ⟨heq, -⟩ | ⟨heq, hfresh, b, hb, hset⟩
    · rw [heq]
      exact ih set h
    · rw [heq]
      have hstep : Relation.ReflTransGen (Step head body all) (head r) b :=
        .single ⟨r, hr, rfl, hb⟩
      obtain ⟨new, hnew, hadded⟩ := ih _ h
      refine ⟨head r :: new, by rw [← sweep, hnew, List.append_assoc]; rfl, ?_⟩
      intro a ha
      rcases List.mem_cons.mp ha with rfl | ha
      · exact ⟨hfresh, ⟨r, hr, rfl⟩, b, hset, hstep⟩
      · obtain ⟨hnot, hrule, c, hc, hreach⟩ := hadded a ha
        refine ⟨fun hmem => hnot (List.mem_append_left _ hmem), hrule, ?_⟩
        rcases List.mem_append.mp hc with hc | hc
        · exact ⟨c, hc, hreach⟩
        · rw [List.mem_singleton.mp hc] at hreach
          exact ⟨b, hset, hreach.trans hstep⟩

variable (set) in
theorem saturate_eq : ∃ new, saturate head body rules n set = set ++ new ∧
    ∀ a ∈ new, ∃ b ∈ set, Relation.ReflTransGen (Step head body rules) a b := by
  induction n generalizing set with
  | zero => exact ⟨[], by simp [saturate], by simp⟩
  | succ n ih =>
    simp only [saturate]
    split
    · exact ⟨[], by simp, by simp⟩
    · obtain ⟨new, hnew, hadded⟩ := sweep_eq set (fun r (hr : r ∈ rules) => hr)
      obtain ⟨more, hmore, hreach⟩ := ih (sweep head body rules set)
      refine ⟨new ++ more, by rw [hmore, hnew, List.append_assoc], ?_⟩
      intro a ha
      rcases List.mem_append.mp ha with ha | ha
      · exact (hadded a ha).2.2
      · obtain ⟨b, hb, hab⟩ := hreach a ha
        rw [hnew] at hb
        rcases List.mem_append.mp hb with hb | hb
        · exact ⟨b, hb, hab⟩
        · obtain ⟨-, -, c, hc, hbc⟩ := hadded b hb
          exact ⟨c, hc, hab.trans hbc⟩

theorem countP_lt {p q : ι → Bool} (h : ∀ x ∈ rules, p x → q x) (hr : r ∈ rules)
    (hp : ¬ p r) (hq : q r) : rules.countP p < rules.countP q := by
  induction rules with
  | nil => exact absurd hr (by simp)
  | cons s rules ih =>
    obtain ⟨hs, hrules⟩ := List.forall_mem_cons.mp h
    rw [List.countP_cons, List.countP_cons]
    rcases List.mem_cons.mp hr with rfl | hr
    · have := List.countP_mono_left hrules
      rw [if_neg hp, if_pos hq]
      omega
    · have := ih hrules hr
      by_cases hps : p s
      · rw [if_pos hps, if_pos (hs hps)]
        omega
      · rw [if_neg hps]
        omega

/-- Enough sweeps leave no rule to apply. -/
theorem closed_saturate (hn : rules.countP (head · ∉ set) ≤ n) (hr : r ∈ rules)
    (hb : ∃ b ∈ body r, b ∈ saturate head body rules n set) :
    head r ∈ saturate head body rules n set := by
  induction n generalizing set with
  | zero => simpa [saturate] using List.countP_eq_zero.mp (Nat.le_zero.mp hn) r hr
  | succ n ih =>
    simp only [saturate] at hb ⊢
    split at hb
    · next hlen =>
      rw [if_pos hlen]
      exact closed_of_sweep (prefix_sweep.eq_of_length_le (Nat.le_of_eq hlen)).symm hr hb
    · next hlen =>
      rw [if_neg hlen]
      refine ih (Nat.le_of_lt_succ (Nat.lt_of_lt_of_le ?_ hn)) hb
      obtain ⟨new, hnew, hadded⟩ := sweep_eq set (fun r (hr : r ∈ rules) => hr)
      cases new with
      | nil => exact absurd (by rw [hnew, List.append_nil]) hlen
      | cons a new =>
        obtain ⟨hnot, ⟨q, hq, rfl⟩, -⟩ := hadded a List.mem_cons_self
        apply countP_lt _ hq
        · simp [hnew]
        · simpa using hnot
        · intro p _ hp
          simp only [hnew, List.mem_append, decide_eq_true_eq, not_or] at hp ⊢
          exact hp.1

/-- The saturated set holds what reaches the set. -/
theorem mem_saturate : a ∈ saturate head body rules rules.length set ↔
    ∃ b ∈ set, Relation.ReflTransGen (Step head body rules) a b := by
  obtain ⟨new, heq, hreach⟩ := saturate_eq set (n := rules.length)
  constructor
  · intro ha
    rw [heq] at ha
    rcases List.mem_append.mp ha with ha | ha
    · exact ⟨a, ha, .refl⟩
    · exact hreach a ha
  · rintro ⟨b, hb, hab⟩
    induction hab using Relation.ReflTransGen.head_induction_on with
    | refl => rw [heq]; exact List.mem_append_left _ hb
    | head hstep _ ih =>
      obtain ⟨r, hr, rfl, hc⟩ := hstep
      exact closed_saturate List.countP_le_length hr ⟨_, hc, ih⟩

end Saturate
