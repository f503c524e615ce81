import Mathlib.Data.List.Sort

/-! # Splicing edits

An edit replaces a range of a list. Edits that do not overlap are applied in the
order of their places, and each range is replaced once.
-/

namespace Splice

variable {α : Type*}

/-- The replacement of a range. -/
structure Edit (α : Type*) where
  start : ℕ
  stop : ℕ
  text : List α
  deriving DecidableEq, Repr

variable {e f : Edit α} {es fs : List (Edit α)} {l : List α} {i : ℕ}

namespace Edit

def Overlaps (e f : Edit α) : Prop := e.start < f.stop ∧ f.start < e.stop

instance (e f : Edit α) : Decidable (e.Overlaps f) := inferInstanceAs (Decidable (_ ∧ _))

theorem Overlaps.symm (h : e.Overlaps f) : f.Overlaps e := ⟨h.2, h.1⟩

end Edit

def slice (l : List α) (i j : ℕ) : List α := (l.take j).drop i

/-- Apply the edits from a place on. -/
@[grind =] def splice (l : List α) (cursor : ℕ) : List (Edit α) → List α
  | [] => l.drop cursor
  | e :: es => slice l cursor e.start ++ (e.text ++ splice l e.stop es)

/-- From a place on the second list is the first with each range replaced. -/
inductive Spliced : ℕ → List (Edit α) → List α → List α → Prop
  | done {i : ℕ} {rest : List α} : Spliced i [] rest rest
  | step {i : ℕ} {e : Edit α} {es : List (Edit α)} {gap old rest rest' : List α} :
      i + gap.length = e.start → e.start + old.length = e.stop → Spliced e.stop es rest rest' →
      Spliced i (e :: es) (gap ++ (old ++ rest)) (gap ++ (e.text ++ rest'))

theorem drop_eq_slice_append {j : ℕ} (hij : i ≤ j) : l.drop i = slice l i j ++ l.drop j := by
  conv_lhs => rw [← List.take_append_drop j l]
  rw [slice, List.drop_append]
  congr 1
  rw [List.length_take]
  rcases Nat.le_total j l.length with hj | hj
  · rw [Nat.min_eq_left hj, Nat.sub_eq_zero_of_le hij, List.drop_zero]
  · rw [List.drop_eq_nil_of_le hj, List.drop_nil]

theorem length_slice {j : ℕ} (hj : j ≤ l.length) : (slice l i j).length = j - i := by
  rw [slice, List.length_drop, List.length_take, Nat.min_eq_left hj]

/-- Edits in order replace each range once. -/
theorem spliced_splice (hsorted : es.Pairwise fun e f => e.stop ≤ f.start)
    (hrange : ∀ e ∈ es, e.start ≤ e.stop ∧ e.stop ≤ l.length) (hi : ∀ e ∈ es, i ≤ e.start) :
    Spliced i es (l.drop i) (splice l i es) := by
  induction es generalizing i with
  | nil => exact .done
  | cons e es ih =>
    obtain ⟨hhead, htail⟩ := List.pairwise_cons.mp hsorted
    obtain ⟨⟨hle, hlen⟩, hrange⟩ := List.forall_mem_cons.mp hrange
    have hstart : i ≤ e.start := hi e List.mem_cons_self
    rw [drop_eq_slice_append hstart, drop_eq_slice_append hle]
    refine .step ?_ ?_ (ih htail hrange hhead)
    · rw [length_slice (hle.trans hlen)]
      omega
    · rw [length_slice hlen]
      omega

/-! ### One of the edits -/

/-- What is spliced before an edit, its text, and what is spliced after it. -/
theorem splice_append {before after : List (Edit α)}
    (hsorted : (before ++ e :: after).Pairwise fun e f => e.stop ≤ f.start)
    (hrange : ∀ f ∈ before, f.start ≤ f.stop) :
    splice l i (before ++ e :: after) =
      splice (l.take e.start) i before ++ (e.text ++ splice l e.stop after) := by
  induction before generalizing i with
  | nil => rfl
  | cons f before ih =>
    obtain ⟨hhead, htail⟩ := List.pairwise_cons.mp hsorted
    obtain ⟨hf, hrange⟩ := List.forall_mem_cons.mp hrange
    have hle : f.stop ≤ e.start := hhead e (by simp)
    have hslice : slice (l.take e.start) i f.start = slice l i f.start := by
      rw [slice, List.take_take, Nat.min_eq_left (by omega), slice]
    rw [List.cons_append, splice, splice, ih htail hrange, hslice, List.append_assoc,
      List.append_assoc]

/-- The last element stands before a place that no edit reaches. -/
theorem getLast?_splice (hstop : ∀ f ∈ es, f.stop < l.length) (hi : i < l.length ∨ i = 0) :
    (splice l i es).getLast? = l.getLast? := by
  induction es generalizing i with
  | nil =>
    rw [splice, List.getLast?_drop]
    split
    · next hle =>
      rcases hi with hi | rfl
      · omega
      · rw [List.length_eq_zero_iff.mp (Nat.le_zero.mp hle)]
        rfl
    · rfl
  | cons f es ih =>
    obtain ⟨hf, hstop⟩ := List.forall_mem_cons.mp hstop
    have hne : l ≠ [] := List.ne_nil_of_length_pos (by omega)
    rw [splice, List.getLast?_append, List.getLast?_append, ih hstop (.inl hf),
      List.getLast?_eq_some_getLast hne]
    rfl

/-- The first element stands after a place where no edit starts. -/
theorem head?_splice (hstart : ∀ f ∈ es, i < f.start ∧ f.start ≤ l.length) :
    (splice l i es).head? = (l.drop i).head? := by
  cases es with
  | nil => rfl
  | cons f es =>
    obtain ⟨hlt, hle⟩ := hstart f List.mem_cons_self
    have hlen : (slice l i f.start).length = f.start - i := length_slice hle
    have hne : slice l i f.start ≠ [] := List.ne_nil_of_length_pos (by omega)
    rw [splice, drop_eq_slice_append hlt.le, List.head?_append_of_ne_nil _ hne,
      List.head?_append_of_ne_nil _ hne]

/-! ### Edits in any order -/

def sorted (es : List (Edit α)) : List (Edit α) := es.insertionSort fun e f => e.start ≤ f.start

theorem mem_sorted : e ∈ sorted es ↔ e ∈ es := (List.perm_insertionSort _ es).mem_iff

/-- The ranges are not empty, and none overlaps another. -/
structure Disjoint (es : List (Edit α)) : Prop where
  nonempty : ∀ e ∈ es, e.start < e.stop
  apart : es.Pairwise fun e f => ¬ e.Overlaps f

theorem Disjoint.sorted (h : Disjoint es) :
    (sorted es).Pairwise fun e f => e.stop ≤ f.start := by
  have hperm : (Splice.sorted es).Perm es := List.perm_insertionSort _ es
  have hapart : (Splice.sorted es).Pairwise fun e f => ¬ e.Overlaps f :=
    hperm.symm.pairwise h.apart fun h h' => h h'.symm
  have hle : (Splice.sorted es).Pairwise fun e f => e.start ≤ f.start :=
    List.pairwise_insertionSort (fun e f : Edit α => e.start ≤ f.start) es
  refine (hapart.and hle).imp_of_mem fun {e f} he hf hef => ?_
  have := h.nonempty f (mem_sorted.mp hf)
  by_contra hlt
  exact hef.1 ⟨by omega, by omega⟩

/-- Disjoint edits are applied alike in whichever order they come. -/
theorem sorted_eq (h : Disjoint es) (h' : Disjoint fs) (hmem : ∀ e, e ∈ es ↔ e ∈ fs) :
    sorted es = sorted fs := by
  have hstrict : ∀ {gs : List (Edit α)}, Disjoint gs →
      (sorted gs).Pairwise fun e f => e.start < f.start := fun {gs} hg =>
    hg.sorted.imp_of_mem fun {e f} he _ hle =>
      (hg.nonempty e (mem_sorted.mp he)).trans_le hle
  have : Std.Irrefl fun e f : Edit α => e.start < f.start := ⟨fun _ => lt_irrefl _⟩
  have : Std.Antisymm fun e f : Edit α => e.start < f.start :=
    ⟨fun _ _ h h' => absurd h h'.asymm⟩
  refine List.Pairwise.eq_of_mem_iff (hstrict h) (hstrict h') fun e => ?_
  rw [mem_sorted, mem_sorted, hmem]

end Splice
