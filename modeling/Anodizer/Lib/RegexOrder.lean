import Anodizer.Lib.Regex

/-! # The match a search takes

A greedy repetition of a character tries its runs from the longest to the shortest, and a
search takes a match at the leftmost place that has one.
-/

namespace Regex

variable {r b : Re} {prev : Option Char} {s : List Char} {m k : Found} {p : Char → Bool}

theorem shrinks_searchStep (r : Re) : Scan.Shrinks (searchStep r) := by
  intro prev c cs
  unfold searchStep
  split
  · exact Nat.le_refl _
  · next m hm =>
    split
    · exact Nat.le_refl _
    · next hne =>
      have hlen := congrArg List.length (first_sound hm).1
      have hpos := List.length_pos_iff.mpr hne
      simp only [List.length_cons, List.length_append] at hlen
      change m.rest.length ≤ cs.length
      omega

/-- A text that the pattern reads in one way only is matched in that way. -/
theorem first_of_unique (h : s = m.text ++ m.rest ∧ r.Reads prev m.text m.rest m.groups)
    (hunique : ∀ k : Found, s = k.text ++ k.rest → r.Reads prev k.text k.rest k.groups → k = m) :
    first r prev s = some m := by
  obtain ⟨k, ks, hresults⟩ := List.exists_cons_of_ne_nil (List.ne_nil_of_mem (Re.mem_results.mpr h))
  have hk : k ∈ r.results prev s := by
    rw [hresults]
    exact List.mem_cons_self
  obtain ⟨hs, hreads⟩ := Re.mem_results.mp hk
  rw [first, hresults, List.head?_cons, hunique k hs hreads]

namespace Re

variable {a : Re}

theorem results_seq : (seq a b).results prev s = (a.results prev s).flatMap fun m =>
    (b.results (before prev m.text) m.rest).map fun k =>
      ⟨m.text ++ k.text, k.rest, k.groups ++ m.groups⟩ := rfl

theorem results_alt : (alt a b).results prev s = a.results prev s ++ b.results prev s := rfl

theorem results_group {name : String} : (group name a).results prev s =
    (a.results prev s).map fun m => { m with groups := (name, m.text) :: m.groups } := rfl

theorem results_seq_empty : (seq a empty).results prev s = a.results prev s := by
  rw [results_seq]
  simp [results]

end Re

/-! ### Runs -/

/-- The runs of a kind of character at the start of a text, the longest first, each with what
follows it. -/
@[grind =] def runs (p : Char → Bool) : List Char → List (List Char × List Char)
  | [] => [([], [])]
  | c :: s =>
    if p c then (runs p s).map (fun q => (c :: q.1, q.2)) ++ [([], c :: s)] else [([], c :: s)]

theorem mem_runs {x y : List Char} : (x, y) ∈ runs p s ↔ s = x ++ y ∧ ∀ c ∈ x, p c := by
  induction s generalizing x with
  | nil =>
    rw [runs, List.mem_singleton, Prod.mk.injEq]
    constructor
    · rintro ⟨rfl, rfl⟩
      simp
    · rintro ⟨h, -⟩
      exact List.append_eq_nil_iff.mp h.symm
  | cons c s ih =>
    have hempty : (x, y) ∈ [(([] : List Char), c :: s)] ↔ x = [] ∧ y = c :: s := by simp
    rw [runs]
    split
    · next hc =>
      rw [List.mem_append, hempty, List.mem_map]
      constructor
      · rintro (⟨q, hq, heq⟩ | ⟨rfl, rfl⟩)
        · obtain ⟨rfl, rfl⟩ := Prod.mk.inj heq
          obtain ⟨rfl, hx⟩ := ih.mp hq
          exact ⟨rfl, List.forall_mem_cons.mpr ⟨hc, hx⟩⟩
        · simp
      · rintro ⟨heq, hx⟩
        cases x with
        | nil => exact .inr ⟨rfl, heq.symm⟩
        | cons d x =>
          obtain ⟨rfl, rfl⟩ := List.cons.inj heq
          exact .inl ⟨(x, y), ih.mpr ⟨rfl, (List.forall_mem_cons.mp hx).2⟩, rfl⟩
    · next hc =>
      rw [hempty]
      constructor
      · rintro ⟨rfl, rfl⟩
        simp
      · rintro ⟨heq, hx⟩
        cases x with
        | nil => exact ⟨rfl, heq.symm⟩
        | cons d x =>
          obtain ⟨rfl, -⟩ := List.cons.inj heq
          exact absurd (hx c List.mem_cons_self) hc

/-- The runs come from the longest to the shortest. -/
theorem runs_pairwise : (runs p s).Pairwise fun q q' => q'.1.length < q.1.length := by
  induction s with
  | nil => exact List.pairwise_singleton _ _
  | cons c s ih =>
    rw [runs]
    split
    · rw [List.pairwise_append]
      refine ⟨?_, List.pairwise_singleton _ _, ?_⟩
      · rw [List.pairwise_map]
        exact ih.imp fun h => by simpa using h
      · intro q hq q' hq'
        obtain ⟨q₀, -, rfl⟩ := List.mem_map.mp hq
        obtain rfl := List.mem_singleton.mp hq'
        simp
    · exact List.pairwise_singleton _ _

theorem Re.results_star_char :
    (Re.star true (.char p)).results prev s = (runs p s).map fun q => ⟨q.1, q.2, []⟩ := by
  have hrun : ∀ n prev, s.length ≤ n →
      repeats (Re.char p).results true n prev s = (runs p s).map fun q => ⟨q.1, q.2, []⟩ := by
    induction s with
    | nil =>
      intro n prev _
      cases n <;> simp [repeats, results, runs]
    | cons c s ih =>
      intro n prev hn
      cases n with
      | zero => simp at hn
      | succ n =>
        have hrest := ih n (before prev [c]) (by simpa using hn)
        cases hc : p c <;> simp [repeats, results, runs, hc, hrest]
  exact hrun _ prev (Nat.le_refl _)

/-! ### The leftmost match -/

/-- The match at the leftmost place where the pattern reads something. -/
def leftmost (r : Re) : Option Char → List Char → Option Found
  | _, [] => none
  | prev, c :: cs => ((first r prev (c :: cs)).filter (·.text ≠ [])).or (leftmost r (some c) cs)

theorem head?_findIter : (findIter r s).head? = leftmost r none s := by
  unfold findIter pieces
  generalize (none : Option Char) = prev
  induction s generalizing prev with
  | nil => rfl
  | cons c cs ih =>
    rw [Scan.scan_cons (shrinks_searchStep r), leftmost, searchStep]
    cases hm : first r prev (c :: cs) with
    | none => simpa using ih (some c)
    | some m =>
      rw [Option.filter_some]
      by_cases hne : m.text = []
      · simpa [hne] using ih (some c)
      · simp [hne]

/-- The pattern reads something where a part of the text begins. -/
def ReadsAt (r : Re) (a b : List Char) (m : Found) : Prop :=
  first r a.getLast? b = some m ∧ m.text ≠ []

theorem leftmost_of_none {a : List Char} (h : ∀ x y, s = x ++ y → ∀ k, ¬ ReadsAt r (a ++ x) y k) :
    leftmost r a.getLast? s = none := by
  induction s generalizing a with
  | nil => rfl
  | cons c cs ih =>
    have hhere : (first r a.getLast? (c :: cs)).filter (·.text ≠ []) = none := by
      rw [Option.filter_eq_none_iff]
      intro m hm
      have := h [] (c :: cs) rfl m
      simpa [ReadsAt, hm] using this
    have hlast : some c = (a ++ [c]).getLast? := by simp
    rw [leftmost, hhere, Option.none_or, hlast]
    refine ih fun x y hxy k => ?_
    rw [List.append_assoc]
    exact h (c :: x) y (by rw [hxy]; rfl) k

theorem leftmost_eq_some {a x y : List Char} (hm : ReadsAt r (a ++ x) y m)
    (h : ∀ x' y', x ++ y = x' ++ y' → x'.length < x.length → ∀ k, ¬ ReadsAt r (a ++ x') y' k) :
    leftmost r a.getLast? (x ++ y) = some m := by
  induction x generalizing a with
  | nil =>
    obtain ⟨hfirst, hne⟩ := hm
    cases y with
    | nil =>
      have htext := (first_sound hfirst).1
      exact absurd (List.append_eq_nil_iff.mp htext.symm).1 hne
    | cons c cs =>
      rw [List.append_nil] at hfirst
      rw [List.nil_append, leftmost, hfirst]
      simp [hne]
  | cons c x ih =>
    have hhere : (first r a.getLast? (c :: (x ++ y))).filter (·.text ≠ []) = none := by
      rw [Option.filter_eq_none_iff]
      intro k hk
      have := h [] (c :: (x ++ y)) rfl (by simp) k
      simpa [ReadsAt, hk] using this
    have hlast : some c = (a ++ [c]).getLast? := by simp
    rw [List.cons_append, leftmost, hhere, Option.none_or, hlast]
    refine ih (by simpa using hm) fun x' y' hxy hlt k => ?_
    rw [List.append_assoc]
    exact h (c :: x') y' (by rw [List.cons_append, hxy]; rfl) (by simpa using hlt) k

end Regex
