import Anodizer.Lib.Kahn
import Mathlib.Data.Fintype.EquivFin
import Mathlib.Data.Finset.Preimage
import Mathlib.Order.WellFounded
import Mathlib.Logic.Relation

/-! # Kahn's algorithm and cycles

Every decrement takes a degree that is still positive. Without a cycle the order puts
each node after its dependencies and is the same for every listing of the graph; any
order that does so excludes a cycle.
-/

namespace Kahn

variable {α : Type}

/-- A node lists another node of the graph as a dependency. -/
def Edge (g : Graph α) (n d : α) : Prop := ∃ deps, (n, deps) ∈ g ∧ d ∈ deps ∧ d ∈ names g

/-- No node leads back to itself; an edge from a node to itself is a cycle. -/
def Acyclic (g : Graph α) : Prop := ∀ n, ¬Relation.TransGen (Edge g) n n

variable [LinearOrder α] {g : Graph α} {s : State α}

theorem edge_iff (hn : (names g).Nodup) {n d : α} :
    Edge g n d ↔ n ∈ names g ∧ d ∈ depsOf g n := by
  constructor
  · rintro ⟨deps, hin, hd, hg⟩
    refine ⟨List.mem_map_of_mem (f := Prod.fst) hin, ?_⟩
    simp [depsOf, collect_of_mem hn hin, hd, hg]
  · rintro ⟨hg, hd⟩
    obtain ⟨deps, hin⟩ := exists_entry hg
    rw [depsOf, collect_of_mem hn hin] at hd
    exact ⟨deps, hin, by simpa using hd⟩

/-! ### The decrements -/

/-- A decrement finds at least one degree left. -/
theorem degree_pos (hn : (names g).Nodup) (hi : Inv g s) {node : α} {queue : List α}
    (hq : s.queue = node :: queue) {earlier later : List α} {d : α}
    (hd : dependents g node = earlier ++ d :: later) : 0 < (relax s.degree earlier).1 d := by
  have hle := count_le_degree hn hi hq d
  rw [hd, List.count_append, List.count_cons_self] at hle
  rw [relax_degree]
  omega

/-- The queue is empty after one step for each node and stays so. -/
theorem queue_eq_nil (hn : (names g).Nodup) {k : Nat} (hk : g.length ≤ k) :
    ((step g)^[k] (start g)).queue = [] := by
  obtain ⟨m, rfl⟩ := Nat.exists_eq_add_of_le' hk
  induction m with
  | zero => simpa [final] using final_queue hn
  | succ m ih =>
    have hq := ih (by omega)
    rw [Nat.succ_add, Function.iterate_succ_apply', step, hq]
    exact hq

/-! ### Dependencies first -/

/-- What has entered the queue stands after its dependencies. -/
def DepsFirst (g : Graph α) (s : State α) : Prop :=
  ∀ n ∈ s.result ++ s.queue, ∀ d ∈ depsOf g n,
    (s.result ++ s.queue).idxOf d < (s.result ++ s.queue).idxOf n

theorem start_depsFirst (g : Graph α) : DepsFirst g (start g) := by
  intro n h d hd
  have hready := ((start_inv g).ready n ((start_inv g).subset n h)).mp h d hd
  simp [start] at hready

theorem step_depsFirst (hn : (names g).Nodup) (hi : Inv g s) (hs : DepsFirst g s) {node : α}
    {queue : List α} (hq : s.queue = node :: queue) : DepsFirst g (step g s) := by
  have hi' := step_inv hn hi hq
  have hseq : (step g s).result ++ (step g s).queue =
      (s.result ++ s.queue) ++ (freed g s node).insertionSort (· ≤ ·) := by
    rw [step_cons hq, hq]
    simp
  intro n h d hd
  have hng := hi'.subset n h
  rw [hseq] at h ⊢
  by_cases hold : n ∈ s.result ++ s.queue
  · have hd' := List.mem_append_left s.queue ((hi.ready n hng).mp hold d hd)
    rw [List.idxOf_append_of_mem hold, List.idxOf_append_of_mem hd']
    exact hs n hold d hd
  · have hfreed : n ∈ freed g s node := by
      simpa using (List.mem_append.mp h).resolve_left hold
    have hmem := ((mem_freed hn hi hq hng).mp hfreed).2 d hd
    have hd' : d ∈ s.result ++ s.queue := by
      rw [hq, List.append_cons]
      exact List.mem_append_left _ hmem
    rw [List.idxOf_append_of_mem hd', List.idxOf_append_of_notMem hold]
    have := List.idxOf_lt_length_of_mem hd'
    omega

theorem iterate_depsFirst (hn : (names g).Nodup) (k : Nat) :
    DepsFirst g ((step g)^[k] (start g)) := by
  induction k with
  | zero => exact start_depsFirst g
  | succ k ih =>
    have hi := (iterate_inv hn k).1
    rw [Function.iterate_succ_apply']
    generalize (step g)^[k] (start g) = s at ih hi
    cases hq : s.queue with
    | nil =>
      have hs : step g s = s := by rw [step, hq]
      rwa [hs]
    | cons node queue => exact step_depsFirst hn hi ih hq

/-! ### Acyclic graphs -/

/-- On the nodes of an acyclic graph the edges can be followed only finitely often. -/
theorem Acyclic.wellFounded (ha : Acyclic g) :
    WellFounded fun (d n : {n // n ∈ names g}) => Relation.TransGen (Edge g) n.1 d.1 := by
  have : IsTrans {n // n ∈ names g} fun d n => Relation.TransGen (Edge g) n.1 d.1 :=
    ⟨fun _ _ _ hab hbc => hbc.trans hab⟩
  have : Std.Irrefl fun (d n : {n // n ∈ names g}) => Relation.TransGen (Edge g) n.1 d.1 :=
    ⟨fun n => ha n.1⟩
  exact Finite.wellFounded_of_trans_of_irrefl _

/-- Without a cycle every node leaves the queue. -/
theorem Acyclic.mem_final (hn : (names g).Nodup) (ha : Acyclic g) {n : α} (h : n ∈ names g) :
    n ∈ (final g).result := by
  have hall : ∀ m : {n // n ∈ names g}, m.1 ∈ (final g).result := by
    intro m
    induction m using ha.wellFounded.induction with
    | _ m ih =>
      have hi := final_inv hn
      have hready := (hi.ready m.1 m.2).mpr fun d hd =>
        ih ⟨d, depsOf_subset hd⟩ (.single ((edge_iff hn).mpr ⟨m.2, hd⟩))
      simpa [final_queue hn] using hready
  exact hall ⟨n, h⟩

/-- Without a cycle every node comes after its dependencies. -/
theorem Acyclic.respects (hn : (names g).Nodup) (ha : Acyclic g) : Respects g (sort g) := by
  have hle := (List.subperm_of_subset hn fun n => ha.mem_final hn).length_le
  rw [names, List.length_map] at hle
  have hfinal : sort g = (final g).result := by
    rw [sort_eq, if_neg (by omega)]
  have hfirst : DepsFirst g (final g) := iterate_depsFirst hn _
  rw [DepsFirst, final_queue hn, List.append_nil] at hfirst
  intro n h d hd
  rw [hfinal]
  exact hfirst n (ha.mem_final hn h) d hd

/-- An order with every node after its dependencies leaves no room for a cycle. -/
theorem Respects.acyclic (hn : (names g).Nodup) {order : List α} (hr : Respects g order) :
    Acyclic g := by
  intro n hcycle
  have hdown : ∀ m, Relation.TransGen (Edge g) n m → order.idxOf m < order.idxOf n := by
    intro m hm
    have hedge : ∀ {a b}, Edge g a b → order.idxOf b < order.idxOf a := by
      intro a b hab
      obtain ⟨ha, hb⟩ := (edge_iff hn).mp hab
      exact hr a ha b hb
    induction hm with
    | single he => exact hedge he
    | tail _ he ih => exact (hedge he).trans ih
  exact lt_irrefl _ (hdown n hcycle)

theorem respects_sort_iff (hn : (names g).Nodup) : Respects g (sort g) ↔ Acyclic g :=
  ⟨Respects.acyclic hn, Acyclic.respects hn⟩

/-! ### Other listings of the graph -/

section Listing

variable {g' : Graph α}

omit [LinearOrder α] in
theorem names_perm (hp : g.Perm g') : (names g).Perm (names g') := hp.map _

omit [LinearOrder α] in
theorem edge_perm (hp : g.Perm g') {n d : α} : Edge g n d ↔ Edge g' n d := by
  simp only [Edge, hp.mem_iff, (names_perm hp).mem_iff]

omit [LinearOrder α] in
theorem acyclic_perm (hp : g.Perm g') : Acyclic g ↔ Acyclic g' := by
  have hedge : Edge g = Edge g' := by
    ext n d
    exact edge_perm hp
  rw [Acyclic, Acyclic, hedge]

theorem depsOf_perm (hn : (names g).Nodup) (hp : g.Perm g') (n : α) :
    depsOf g n = depsOf g' n := by
  have hn' : (names g').Nodup := (names_perm hp).nodup_iff.mp hn
  have hcollect : collect g n = collect g' n := by
    ext deps
    constructor
    · intro h
      exact collect_of_mem hn' (hp.mem_iff.mp (mem_of_collect h))
    · intro h
      exact collect_of_mem hn (hp.mem_iff.mpr (mem_of_collect h))
  simp only [depsOf, hcollect, (names_perm hp).mem_iff]

theorem chainUpTo_perm (hn : (names g).Nodup) (hp : g.Perm g') (fuel : Nat) (n : α) :
    chainUpTo g fuel n = chainUpTo g' fuel n := by
  induction fuel generalizing n with
  | zero => rfl
  | succ fuel ih =>
    have hfun : chainUpTo g fuel = chainUpTo g' fuel := funext ih
    rw [chainUpTo, chainUpTo, depsOf_perm hn hp, hfun]

/-- Without a cycle the order does not depend on how the graph is listed. -/
theorem sort_perm_eq (hn : (names g).Nodup) (ha : Acyclic g) (hp : g.Perm g') :
    sort g = sort g' := by
  have hn' : (names g').Nodup := (names_perm hp).nodup_iff.mp hn
  have hbefore : Before g = Before g' := by
    ext a b
    simp only [Before, chain, hp.length_eq, chainUpTo_perm hn hp]
  have hsorted := sort_sorted hn (ha.respects hn)
  have hsorted' := sort_sorted hn' (((acyclic_perm hp).mp ha).respects hn')
  rw [← hbefore] at hsorted'
  have hsame : (sort g).Perm (sort g') :=
    (sort_perm hn).trans ((names_perm hp).trans (sort_perm hn').symm)
  refine hsame.eq_of_pairwise (fun a b _ _ hab hba => ?_) hsorted hsorted'
  exact absurd (lt_trans hab hba) (lt_irrefl _)

end Listing

end Kahn
