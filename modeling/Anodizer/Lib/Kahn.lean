import Mathlib.Data.List.Sort
import Mathlib.Data.List.Dedup
import Mathlib.Data.Prod.Lex
import Mathlib.Order.Lex
import Mathlib.Data.List.Lex
import Mathlib.Logic.Function.Basic

/-! # Kahn's algorithm with ties broken by name

A node enters the queue when its last dependency leaves it. The resulting order is the
shortlex order of the nodes' greatest dependency chains.
-/

namespace Kahn

variable {α : Type}

/-- Nodes with the nodes they depend on. -/
abbrev Graph (α : Type) := List (α × List α)

def names (g : Graph α) : List α := g.map Prod.fst

variable [LinearOrder α]

/-- A map collected from pairs: the last pair of a key wins. -/
def collect {β : Type} (pairs : List (α × β)) (key : α) : Option β :=
  pairs.reverse.lookup key

/-- The dependencies of a node inside the graph. -/
def depsOf (g : Graph α) (n : α) : List α :=
  ((collect g n).getD []).filter (· ∈ names g)

/-- The edges out of a node: its dependents in the order they were declared. -/
def dependents (g : Graph α) (node : α) : List α :=
  g.flatMap fun e => (e.2.filter (· = node)).map fun _ => e.1

structure State (α : Type) where
  queue : List α
  degree : α → Nat
  result : List α

/-- Lowers the degree of each dependent and collects those that reach zero. -/
@[grind =] def relax (degree : α → Nat) : List α → (α → Nat) × List α
  | [] => (degree, [])
  | d :: ds =>
    let lowered := Function.update degree d (degree d - 1)
    let rest := relax lowered ds
    (rest.1, if lowered d = 0 then d :: rest.2 else rest.2)

def start (g : Graph α) : State α where
  queue := ((names g).dedup.filter fun n => (depsOf g n).length = 0).insertionSort (· ≤ ·)
  degree := fun n => (depsOf g n).length
  result := []

def step (g : Graph α) (s : State α) : State α :=
  match s.queue with
  | [] => s
  | node :: queue =>
    let relaxed := relax s.degree (dependents g node)
    { queue := queue ++ relaxed.2.insertionSort (· ≤ ·)
      degree := relaxed.1
      result := s.result ++ [node] }

/-- The nodes in the order they leave the queue, then those that never entered it. -/
def sort (g : Graph α) : List α :=
  let result := ((step g)^[g.length] (start g)).result
  if result.length < g.length then result ++ (names g).filter (· ∉ result) else result

/-! ### Chains -/

/-- Longer lists are greater, lists of one length are compared from the front. -/
def shortlex (k : List α) : ℕ ×ₗ List α := toLex (k.length, k)

def greatest (ks : List (List α)) : List α :=
  ks.foldr (fun k acc => if shortlex acc < shortlex k then k else acc) []

/-- The greatest chain of dependencies that ends in a node, up to a given length. -/
@[grind =] def chainUpTo (g : Graph α) : Nat → α → List α
  | 0, n => [n]
  | fuel + 1, n => greatest ((depsOf g n).map (chainUpTo g fuel)) ++ [n]

def chain (g : Graph α) (n : α) : List α := chainUpTo g g.length n

/-- The chain of the first node is smaller than that of the second. -/
def Before (g : Graph α) (a b : α) : Prop := shortlex (chain g a) < shortlex (chain g b)

instance (g : Graph α) (a b : α) : Decidable (Before g a b) :=
  inferInstanceAs (Decidable (shortlex _ < shortlex _))

/-- Every node comes after its dependencies. -/
def Respects (g : Graph α) (order : List α) : Prop :=
  ∀ n ∈ names g, ∀ d ∈ depsOf g n, order.idxOf d < order.idxOf n

theorem shortlex_lt_iff {a b : List α} :
    shortlex a < shortlex b ↔ a.length < b.length ∨ a.length = b.length ∧ a < b := by
  simp [shortlex, Prod.Lex.toLex_lt_toLex]

omit [LinearOrder α] in
theorem shortlex_inj {a b : List α} (h : shortlex a = shortlex b) : a = b := by
  exact (Prod.ext_iff.mp (toLex.injective h)).2

theorem lt_append_of_lt {a b : List α} (hl : a.length = b.length) (h : a < b) (s t : List α) :
    a ++ s < b ++ t := by
  induction h with
  | nil => simp at hl
  | rel hr => exact .rel hr
  | cons _ ih => exact .cons (ih (by simpa using hl))

theorem shortlex_append {a b : List α} (h : shortlex a < shortlex b) (x y : α) :
    shortlex (a ++ [x]) < shortlex (b ++ [y]) := by
  rw [shortlex_lt_iff] at h ⊢
  rcases h with hl | ⟨hl, hlt⟩
  · left
    simpa using hl
  · right
    constructor
    · simpa using hl
    · exact lt_append_of_lt hl hlt _ _

theorem shortlex_append_same (k : List α) {x y : α} (h : x < y) :
    shortlex (k ++ [x]) < shortlex (k ++ [y]) := by
  rw [shortlex_lt_iff]
  right
  constructor
  · simp
  · exact List.Lex.append_left _ (.rel h) k

theorem shortlex_lt_append (k : List α) (x : α) : shortlex k < shortlex (k ++ [x]) := by
  rw [shortlex_lt_iff]
  left
  simp

theorem greatest_mem (ks : List (List α)) : greatest ks = [] ∨ greatest ks ∈ ks := by
  induction ks with
  | nil => exact .inl rfl
  | cons k ks ih =>
    simp only [greatest, List.foldr_cons] at ih ⊢
    split
    · simp
    · rcases ih with h | h
      · exact .inl h
      · exact .inr (List.mem_cons_of_mem _ h)

theorem le_greatest {ks : List (List α)} {k : List α} (h : k ∈ ks) :
    shortlex k ≤ shortlex (greatest ks) := by
  induction ks with
  | nil => simp at h
  | cons k' ks ih =>
    simp only [greatest, List.foldr_cons] at ih ⊢
    split
    · next hlt =>
      rcases List.mem_cons.mp h with rfl | h
      · exact le_rfl
      · exact (ih h).trans hlt.le
    · next hge =>
      rcases List.mem_cons.mp h with rfl | h
      · exact not_lt.mp hge
      · exact ih h

/-- A member above all others is the greatest. -/
theorem greatest_eq {ks : List (List α)} {k : List α} (hk : k ∈ ks)
    (hle : ∀ k' ∈ ks, shortlex k' ≤ shortlex k) : greatest ks = k := by
  apply shortlex_inj
  apply le_antisymm
  · rcases greatest_mem ks with h | h
    · rw [h]
      rw [← not_lt, shortlex_lt_iff]
      rintro (h | ⟨-, h⟩)
      · simp at h
      · exact absurd h (by simp)
    · exact hle _ h
  · exact le_greatest hk

/-! ### The run of the queue -/

theorem collect_of_mem {β : Type} {pairs : List (α × β)} (hn : (pairs.map Prod.fst).Nodup)
    {key : α} {value : β} (h : (key, value) ∈ pairs) : collect pairs key = some value := by
  have hr : (pairs.reverse.map Prod.fst).Nodup := by simpa using hn
  have hm : (key, value) ∈ pairs.reverse := by simpa using h
  unfold collect
  generalize pairs.reverse = es at hr hm
  induction es with
  | nil => simp at hm
  | cons e es ih =>
    rcases List.mem_cons.mp hm with rfl | hm
    · simp
    · have hne : key ≠ e.1 := by
        intro heq
        exact (List.nodup_cons.mp hr).1 (heq ▸ List.mem_map_of_mem hm)
      rw [List.lookup_cons, beq_eq_false_iff_ne.mpr hne]
      exact ih (List.nodup_cons.mp hr).2 hm

theorem mem_of_collect {β : Type} {pairs : List (α × β)} {key : α} {value : β}
    (h : collect pairs key = some value) : (key, value) ∈ pairs := by
  rw [← List.mem_reverse]
  unfold collect at h
  generalize pairs.reverse = es at h
  induction es with
  | nil => simp at h
  | cons e es ih =>
    rw [List.lookup_cons] at h
    by_cases hk : key = e.1
    · subst hk
      have hv : e.2 = value := by simpa using h
      subst hv
      exact List.mem_cons_self
    · rw [beq_eq_false_iff_ne.mpr hk] at h
      exact List.mem_cons_of_mem _ (ih h)

theorem mem_dependents {g : Graph α} {x n : α} (h : n ∈ dependents g x) : n ∈ names g := by
  simp only [dependents, List.mem_flatMap, List.mem_map] at h
  obtain ⟨e, he, _, _, rfl⟩ := h
  exact List.mem_map_of_mem he

theorem count_dependents {g : Graph α} (hn : (names g).Nodup) {n : α} {ds : List α}
    (h : (n, ds) ∈ g) (x : α) : (dependents g x).count n = ds.count x := by
  induction g with
  | nil => simp at h
  | cons e g ih =>
    obtain ⟨he, hn⟩ := List.nodup_cons.mp hn
    have hcons : (dependents (e :: g) x).count n =
        (if e.1 = n then e.2.count x else 0) + (dependents g x).count n := by
      simp only [dependents, List.flatMap_cons, List.count_append]
      congr 1
      split
      · next heq =>
        rw [heq, List.map_const', List.count_replicate_self]
        exact (List.count_eq_length_filter ..).symm
      · next hne => simp [List.count_eq_zero, Ne.symm hne]
    rw [hcons]
    rcases List.mem_cons.mp h with rfl | h
    · have h0 : (dependents g x).count n = 0 := List.count_eq_zero.mpr (he <| mem_dependents ·)
      simp [h0]
    · have hne : e.1 ≠ n := by
        intro heq
        exact he (heq ▸ List.mem_map_of_mem h)
      simpa [hne] using ih hn h

omit [LinearOrder α] in
theorem exists_entry {g : Graph α} {n : α} (h : n ∈ names g) : ∃ ds, (n, ds) ∈ g := by
  obtain ⟨e, he, rfl⟩ := List.mem_map.mp h
  exact ⟨e.2, he⟩

theorem count_depsOf {g : Graph α} (hn : (names g).Nodup) {n x : α} (h : n ∈ names g)
    (hx : x ∈ names g) : (dependents g x).count n = (depsOf g n).count x := by
  obtain ⟨ds, hds⟩ := exists_entry h
  rw [count_dependents hn hds, depsOf, collect_of_mem hn hds]
  simp [List.count_filter, hx]

theorem depsOf_subset {g : Graph α} {n d : α} (h : d ∈ depsOf g n) : d ∈ names g := by
  simpa using (List.mem_filter.mp h).2

theorem relax_degree (degree : α → Nat) (ds : List α) (n : α) :
    (relax degree ds).1 n = degree n - ds.count n := by
  induction ds generalizing degree with
  | nil => simp [relax]
  | cons d ds ih =>
    simp only [relax, ih]
    by_cases h : n = d
    · subst h
      simp
      omega
    · simp [h, List.count_cons_of_ne (Ne.symm h)]

/-- A node is collected once, by the decrement that takes its last degree. -/
theorem count_relax (degree : α → Nat) (ds : List α) (hle : ∀ n, ds.count n ≤ degree n) (n : α) :
    (relax degree ds).2.count n = if n ∈ ds ∧ degree n = ds.count n then 1 else 0 := by
  induction ds generalizing degree with
  | nil => simp [relax]
  | cons d ds ih =>
    have hlow : ∀ m, ds.count m ≤ Function.update degree d (degree d - 1) m := by
      intro m
      have := hle m
      by_cases h : m = d
      · subst h
        simp at this ⊢
        omega
      · rw [List.count_cons_of_ne (Ne.symm h)] at this
        simpa [h] using this
    have hd := hle d
    rw [List.count_cons_self] at hd
    simp only [relax]
    by_cases h : n = d
    · subst h
      have hmem : ds.count n = 0 ↔ n ∉ ds := List.count_eq_zero
      have := ih _ hlow
      split
      · next hz =>
        simp only [Function.update_self] at hz
        have hc : ds.count n = 0 := by omega
        rw [List.count_cons_self, this, if_neg (by simp [hmem.mp hc]), if_pos]
        constructor
        · simp
        · rw [List.count_cons_self]
          omega
      · next hz =>
        simp only [Function.update_self] at hz
        rw [this, List.count_cons_self]
        by_cases hin : n ∈ ds
        · simp only [hin, Function.update_self, List.mem_cons, or_true, true_and]
          congr 1
          exact propext (by omega)
        · rw [hmem.mpr hin, if_neg (by simp [hin]), if_neg]
          rintro ⟨-, h⟩
          omega
    · have hrest : (relax (Function.update degree d (degree d - 1)) ds).2.count n =
          if n ∈ d :: ds ∧ degree n = (d :: ds).count n then 1 else 0 := by
        rw [ih _ hlow, List.count_cons_of_ne (Ne.symm h)]
        simp [h]
      split
      · rw [List.count_cons_of_ne (Ne.symm h), hrest]
      · exact hrest

/-- What every step keeps: a node is queued exactly when its dependencies have left the queue. -/
structure Inv (g : Graph α) (s : State α) : Prop where
  nodup : (s.result ++ s.queue).Nodup
  subset : ∀ n ∈ s.result ++ s.queue, n ∈ names g
  degree : ∀ n ∈ names g, s.degree n = ((depsOf g n).filter (· ∉ s.result)).length
  ready : ∀ n ∈ names g, n ∈ s.result ++ s.queue ↔ ∀ d ∈ depsOf g n, d ∈ s.result

variable {g : Graph α} {s : State α}

theorem start_inv (g : Graph α) : Inv g (start g) where
  nodup := by
    simpa [start] using (List.perm_insertionSort _ _).nodup_iff.mpr
      ((List.nodup_dedup (names g)).filter _)
  subset := by
    intro n hn
    simp only [start, List.nil_append, List.mem_insertionSort, List.mem_filter,
      List.mem_dedup] at hn
    exact hn.1
  degree := by
    intro n _
    simp [start]
  ready := by
    intro n hn
    simp [start, hn, List.eq_nil_iff_forall_not_mem]

theorem length_filter_notMem (l : List α) {result : List α} {node : α} (h : node ∉ result) :
    (l.filter (· ∉ result)).length =
      (l.filter (· ∉ result ++ [node])).length + l.count node := by
  induction l with
  | nil => simp
  | cons x l ih =>
    by_cases hx : x = node
    · subst hx
      simp [h] at ih ⊢
      omega
    · by_cases hr : x ∈ result
      · simpa [hr, hx] using ih
      · simp [hr, hx] at ih ⊢
        omega

/-- The nodes that a step adds to the queue, before they are sorted. -/
def freed (g : Graph α) (s : State α) (node : α) : List α :=
  (relax s.degree (dependents g node)).2

theorem step_cons {node : α} {queue : List α} (hq : s.queue = node :: queue) :
    step g s =
      { queue := queue ++ (freed g s node).insertionSort (· ≤ ·)
        degree := (relax s.degree (dependents g node)).1
        result := s.result ++ [node] } := by
  rw [step, hq]
  rfl

section Step

variable {node : α} {queue : List α}

theorem count_le_degree (hn : (names g).Nodup) (hi : Inv g s) (hq : s.queue = node :: queue)
    (n : α) : (dependents g node).count n ≤ s.degree n := by
  have hnode : node ∉ s.result := by
    have := hi.nodup
    rw [hq, List.nodup_append] at this
    intro h
    exact this.2.2 _ h node (by simp) rfl
  by_cases h : n ∈ names g
  · rw [count_depsOf hn h (hi.subset node (by simp [hq])), hi.degree n h,
      length_filter_notMem _ hnode]
    omega
  · rw [List.count_eq_zero.mpr (h <| mem_dependents ·)]
    omega

theorem mem_freed (hn : (names g).Nodup) (hi : Inv g s) (hq : s.queue = node :: queue)
    {n : α} (h : n ∈ names g) :
    n ∈ freed g s node ↔ node ∈ depsOf g n ∧ ∀ d ∈ depsOf g n, d ∈ s.result ++ [node] := by
  have hnode : node ∉ s.result := by
    have := hi.nodup
    rw [hq, List.nodup_append] at this
    intro h
    exact this.2.2 _ h node (by simp) rfl
  have hin : node ∈ names g := hi.subset node (by simp [hq])
  have hc := count_relax s.degree _ (count_le_degree hn hi hq) n
  have hcount := count_depsOf hn h hin
  have hdep : n ∈ dependents g node ↔ node ∈ depsOf g n := by
    rw [← List.count_pos_iff, ← List.count_pos_iff, hcount]
  have hdeg : s.degree n = (dependents g node).count n ↔
      ∀ d ∈ depsOf g n, d ∈ s.result ++ [node] := by
    rw [hcount, hi.degree n h, length_filter_notMem _ hnode, Nat.add_eq_right,
      List.length_eq_zero_iff, List.filter_eq_nil_iff]
    simp only [decide_eq_true_eq, not_not]
  rw [← List.count_pos_iff, freed, hc, ← hdep, ← hdeg]
  split
  · next hs => simp only [hs, Nat.one_pos, and_self]
  · next hs => simp only [hs, Nat.lt_irrefl]

theorem freed_nodup (hn : (names g).Nodup) (hi : Inv g s) (hq : s.queue = node :: queue) :
    (freed g s node).Nodup := by
  rw [List.nodup_iff_count_le_one]
  intro n
  rw [freed, count_relax s.degree _ (count_le_degree hn hi hq)]
  split <;> omega

theorem step_inv (hn : (names g).Nodup) (hi : Inv g s) (hq : s.queue = node :: queue) :
    Inv g (step g s) := by
  have hfreed : ∀ n, n ∈ freed g s node → n ∈ names g := by
    intro n h
    have hc := count_relax s.degree _ (count_le_degree hn hi hq) n
    rw [freed, ← List.count_pos_iff, hc] at h
    split at h
    · next hd => exact mem_dependents hd.1
    · omega
  have hnodup := hi.nodup
  have hsubset := hi.subset
  rw [hq, List.append_cons] at hnodup hsubset
  rw [step_cons hq]
  constructor
  · rw [← List.append_assoc, List.nodup_append]
    refine ⟨hnodup, (List.perm_insertionSort ..).nodup_iff.mpr (freed_nodup hn hi hq), ?_⟩
    rintro m hm n hf rfl
    rw [List.mem_insertionSort] at hf
    have hdep := ((mem_freed hn hi hq (hfreed m hf)).mp hf).1
    have hold : m ∈ s.result ++ s.queue := by rwa [hq, List.append_cons]
    have hres := (hi.ready m (hfreed m hf)).mp hold node hdep
    rw [List.nodup_append, List.nodup_append] at hnodup
    exact hnodup.1.2.2 _ hres node (by simp) rfl
  · intro n hm
    rw [← List.append_assoc, List.mem_append, List.mem_insertionSort] at hm
    rcases hm with hm | hm
    · exact hsubset n hm
    · exact hfreed n hm
  · intro n h
    have hnode : node ∉ s.result := by
      intro hres
      rw [List.nodup_append, List.nodup_append] at hnodup
      exact hnodup.1.2.2 _ hres node (by simp) rfl
    have hin : node ∈ names g := hsubset node (by simp)
    dsimp only
    rw [relax_degree, hi.degree n h, count_depsOf hn h hin, length_filter_notMem _ hnode]
    omega
  · intro n h
    rw [← List.append_assoc, List.mem_append, List.mem_insertionSort, mem_freed hn hi hq h,
      ← List.append_cons, ← hq, hi.ready n h]
    constructor
    · rintro (hall | ⟨-, hall⟩) d hd
      · exact List.mem_append_left _ (hall d hd)
      · exact hall d hd
    · intro hall
      by_cases hd : node ∈ depsOf g n
      · exact .inr ⟨hd, hall⟩
      · left
        intro d hdn
        rcases List.mem_append.mp (hall d hdn) with hres | hx
        · exact hres
        · exact absurd (List.mem_singleton.mp hx ▸ hdn) hd

end Step

theorem iterate_inv (hn : (names g).Nodup) (k : Nat) :
    Inv g ((step g)^[k] (start g)) ∧
      (((step g)^[k] (start g)).queue = [] ∨ ((step g)^[k] (start g)).result.length = k) := by
  induction k with
  | zero => exact ⟨start_inv g, .inr rfl⟩
  | succ k ih =>
    rw [Function.iterate_succ_apply']
    generalize (step g)^[k] (start g) = s at ih
    obtain ⟨hi, hk⟩ := ih
    cases hq : s.queue with
    | nil =>
      have hs : step g s = s := by rw [step, hq]
      rw [hs]
      exact ⟨hi, .inl hq⟩
    | cons node queue =>
      constructor
      · exact step_inv hn hi hq
      · right
        have hk := hk.resolve_left (by simp [hq])
        rw [step_cons hq]
        simp [hk]

def final (g : Graph α) : State α := (step g)^[g.length] (start g)

theorem final_inv (hn : (names g).Nodup) : Inv g (final g) := (iterate_inv hn _).1

/-- One step for each node empties the queue. -/
theorem final_queue (hn : (names g).Nodup) : (final g).queue = [] := by
  have hi := final_inv hn
  rcases (iterate_inv hn g.length).2 with h | h
  · exact h
  · have hle := (List.subperm_of_subset hi.nodup hi.subset).length_le
    have hlen : (final g).result.length = g.length := h
    simp only [List.length_append, names, List.length_map, hlen] at hle
    exact List.length_eq_zero_iff.mp (by omega)

theorem sort_eq (g : Graph α) :
    sort g = if (final g).result.length < g.length
      then (final g).result ++ (names g).filter (· ∉ (final g).result) else (final g).result := rfl

theorem final_subperm (hn : (names g).Nodup) : List.Subperm (final g).result (names g) := by
  have hi := final_inv hn
  exact List.subperm_of_subset hi.nodup.of_append_left fun n h => hi.subset n (by simp [h])

/-- The order lists every node once, also when there is a cycle. -/
theorem sort_perm (hn : (names g).Nodup) : (sort g).Perm (names g) := by
  have hsub := final_subperm hn
  rw [sort_eq]
  split
  · have hin : (final g).result.Perm ((names g).filter (· ∈ (final g).result)) := by
      rw [List.perm_ext_iff_of_nodup (final_inv hn).nodup.of_append_left (hn.filter _)]
      intro n
      have := hsub.subset (a := n)
      simp
      tauto
    exact (hin.append_right _).trans (by simpa using List.filter_append_perm _ (names g))
  · next hlen => exact hsub.perm_of_length_le (by simpa [names] using hlen)

theorem mem_sort (hn : (names g).Nodup) {n : α} : n ∈ sort g ↔ n ∈ names g :=
  (sort_perm hn).mem_iff

theorem idxOf_sort_lt (hn : (names g).Nodup) {n : α} (h : n ∈ names g) :
    (sort g).idxOf n < g.length := by
  have := List.idxOf_lt_length_of_mem ((mem_sort hn).mpr h)
  rwa [(sort_perm hn).length_eq, names, List.length_map] at this

/-- Without a cycle every node leaves the queue. -/
theorem mem_final (hn : (names g).Nodup) (hr : Respects g (sort g)) {n : α} (h : n ∈ names g) :
    n ∈ (final g).result := by
  induction hk : (sort g).idxOf n using Nat.strong_induction_on generalizing n with
  | _ k ih =>
    subst hk
    have hi := final_inv hn
    have hready := (hi.ready n h).mpr fun d hd => ih _ (hr n h d hd) (depsOf_subset hd) rfl
    simpa [final_queue hn] using hready

theorem sort_eq_final (hn : (names g).Nodup) (hr : Respects g (sort g)) :
    sort g = (final g).result := by
  have hle := (List.subperm_of_subset hn fun n => mem_final hn hr).length_le
  rw [names, List.length_map] at hle
  rw [sort_eq, if_neg (by omega)]

/-! ### The order of the chains -/

theorem chainUpTo_stable {rank : α → Nat}
    (hrank : ∀ n ∈ names g, ∀ d ∈ depsOf g n, rank d < rank n) {fuel : Nat} {n : α}
    (hn : n ∈ names g) (h : rank n < fuel) : chainUpTo g (fuel + 1) n = chainUpTo g fuel n := by
  induction fuel generalizing n with
  | zero => omega
  | succ fuel ih =>
    rw [chainUpTo, chainUpTo]
    congr 2
    refine List.map_congr_left fun d hd => ?_
    have := hrank n hn d hd
    exact ih (depsOf_subset hd) (by omega)

theorem chain_eq (hn : (names g).Nodup) (hr : Respects g (sort g)) {n : α} (h : n ∈ names g) :
    chain g n = greatest ((depsOf g n).map (chain g)) ++ [n] :=
  (chainUpTo_stable hr h (idxOf_sort_lt hn h)).symm

theorem chain_ne_nil (g : Graph α) (n : α) : chain g n ≠ [] := by
  unfold chain
  cases g.length <;> simp [chainUpTo]

theorem before_of_dep (hn : (names g).Nodup) (hr : Respects g (sort g)) {n d : α}
    (h : n ∈ names g) (hd : d ∈ depsOf g n) : Before g d n := by
  have hle := le_greatest (List.mem_map_of_mem (f := chain g) hd)
  rw [Before, chain_eq hn hr h]
  exact hle.trans_lt (shortlex_lt_append _ _)

/-- A chain ends in its node, alone or after the chain of a dependency. -/
theorem chain_cases (hn : (names g).Nodup) (hr : Respects g (sort g)) {n : α}
    (h : n ∈ names g) : chain g n = [n] ∨ ∃ d ∈ depsOf g n, chain g n = chain g d ++ [n] := by
  rcases greatest_mem ((depsOf g n).map (chain g)) with hg | hg
  · left
    rw [chain_eq hn hr h, hg, List.nil_append]
  · right
    obtain ⟨d, hd, heq⟩ := List.mem_map.mp hg
    exact ⟨d, hd, by rw [chain_eq hn hr h, heq]⟩

section Sorted

variable {node : α} {queue : List α}

theorem chain_of_freed (hn : (names g).Nodup) (hr : Respects g (sort g)) (hi : Inv g s)
    (hs : (s.result ++ s.queue).Pairwise (Before g)) (hq : s.queue = node :: queue) {n : α}
    (h : n ∈ names g) (hf : n ∈ freed g s node) : chain g n = chain g node ++ [n] := by
  obtain ⟨hnode, hall⟩ := (mem_freed hn hi hq h).mp hf
  rw [chain_eq hn hr h]
  congr 1
  apply greatest_eq (List.mem_map_of_mem hnode)
  intro k hk
  obtain ⟨d, hd, rfl⟩ := List.mem_map.mp hk
  rcases List.mem_append.mp (hall d hd) with hres | hx
  · rw [hq, List.pairwise_append] at hs
    exact (hs.2.2 d hres node (by simp)).le
  · rw [List.mem_singleton.mp hx]

/-- What is queued so far comes before what the step frees. -/
theorem before_freed (hn : (names g).Nodup) (hr : Respects g (sort g)) (hi : Inv g s)
    (hs : (s.result ++ s.queue).Pairwise (Before g)) (hq : s.queue = node :: queue) {m n : α}
    (hm : m ∈ s.result ++ s.queue) (h : n ∈ names g) (hf : n ∈ freed g s node) :
    Before g m n := by
  have hres : ∀ d ∈ s.result, Before g d node := by
    intro d hd
    rw [hq, List.pairwise_append] at hs
    exact hs.2.2 d hd node (by simp)
  rw [Before, chain_of_freed hn hr hi hs hq h hf]
  have hmg := hi.subset m hm
  rcases chain_cases hn hr hmg with hc | ⟨d, hd, hc⟩
  · have := List.length_pos_iff.mpr (chain_ne_nil g node)
    rw [hc, shortlex_lt_iff]
    left
    simpa
  · rw [hc]
    exact shortlex_append (hres d ((hi.ready m hmg).mp hm d hd)) _ _

theorem step_sorted (hn : (names g).Nodup) (hr : Respects g (sort g)) (hi : Inv g s)
    (hs : (s.result ++ s.queue).Pairwise (Before g)) (hq : s.queue = node :: queue) :
    ((step g s).result ++ (step g s).queue).Pairwise (Before g) := by
  have hi' := step_inv hn hi hq
  rw [step_cons hq] at hi' ⊢
  have hin : ∀ n ∈ freed g s node, n ∈ names g := by
    intro n h
    exact hi'.subset n (by simp [h])
  dsimp only
  rw [← List.append_assoc, ← List.append_cons, ← hq, List.pairwise_append]
  refine ⟨hs, ?_, ?_⟩
  · have hsorted := List.pairwise_insertionSort (· ≤ ·) (freed g s node)
    have hdistinct := (List.perm_insertionSort (· ≤ ·) _).nodup_iff.mpr (freed_nodup hn hi hq)
    refine (hsorted.and hdistinct).imp_of_mem ?_
    rintro a b ha hb ⟨hle, hne⟩
    rw [List.mem_insertionSort] at ha hb
    rw [Before, chain_of_freed hn hr hi hs hq (hin a ha) ha,
      chain_of_freed hn hr hi hs hq (hin b hb) hb]
    exact shortlex_append_same _ (lt_of_le_of_ne hle hne)
  · intro m hm n hf
    rw [List.mem_insertionSort] at hf
    exact before_freed hn hr hi hs hq hm (hin n hf) hf

end Sorted

theorem start_sorted (hn : (names g).Nodup) (hr : Respects g (sort g)) :
    ((start g).result ++ (start g).queue).Pairwise (Before g) := by
  have hi := start_inv g
  have hsorted : (start g).queue.Pairwise (· ≤ ·) := List.pairwise_insertionSort ..
  refine (hsorted.and hi.nodup).imp_of_mem ?_
  rintro a b ha hb ⟨hle, hne⟩
  have hroot : ∀ n ∈ (start g).queue, chain g n = [n] := by
    intro n h
    have hng := hi.subset n h
    rcases chain_cases hn hr hng with hc | ⟨d, hd, -⟩
    · exact hc
    · exact absurd ((hi.ready n hng).mp h d hd) (by simp [start])
  rw [Before, hroot a ha, hroot b hb]
  simpa using shortlex_append_same [] (lt_of_le_of_ne hle hne)

/-- Without a cycle the order of the nodes is the order of their chains. -/
theorem sort_sorted (hn : (names g).Nodup) (hr : Respects g (sort g)) :
    (sort g).Pairwise (Before g) := by
  have hrun : ∀ k, ((((step g)^[k] (start g)).result ++
      ((step g)^[k] (start g)).queue)).Pairwise (Before g) := by
    intro k
    induction k with
    | zero => exact start_sorted hn hr
    | succ k ih =>
      have hi := (iterate_inv hn k).1
      rw [Function.iterate_succ_apply']
      generalize (step g)^[k] (start g) = s at ih hi
      cases hq : s.queue with
      | nil =>
        have hs : step g s = s := by rw [step, hq]
        rwa [hs]
      | cons node queue => exact step_sorted hn hr hi ih hq
  rw [sort_eq_final hn hr]
  exact (List.pairwise_append.mp (hrun g.length)).1

theorem idxOf_lt_iff_before (hn : (names g).Nodup) (hr : Respects g (sort g)) {a b : α}
    (ha : a ∈ names g) (hb : b ∈ names g) :
    (sort g).idxOf a < (sort g).idxOf b ↔ Before g a b := by
  have ha' := (mem_sort hn).mpr ha
  have hb' := (mem_sort hn).mpr hb
  have hlt : ∀ {x y : α}, x ∈ sort g → y ∈ sort g →
      (sort g).idxOf x < (sort g).idxOf y → Before g x y := by
    intro x y hx hy h
    have := List.pairwise_iff_getElem.mp (sort_sorted hn hr) _ _
      (List.idxOf_lt_length_of_mem hx) (List.idxOf_lt_length_of_mem hy) h
    simpa using this
  constructor
  · exact hlt ha' hb'
  · intro h
    rcases lt_trichotomy ((sort g).idxOf a) ((sort g).idxOf b) with hl | he | hg
    · exact hl
    · rw [List.idxOf_inj ha'] at he
      exact absurd h (he ▸ lt_irrefl _)
    · exact absurd (h.trans (hlt hb' ha' hg)) (lt_irrefl _)

end Kahn
