import Anodizer.Cargo.Plan
import Anodizer.Lib.Acyclic

/-! # The publish order

Every publishable crate is ordered once, whatever its edges are. Without a cycle the order
is dependencies first and independent of the listing; the plan's validation of the order
is the test for a cycle.
-/

namespace Anodizer

/-- A position in the sort: after some number of pops, the next node and the dependents
whose degree it has lowered so far. -/
structure Decrement (items : Kahn.Graph String) where
  pops : Nat
  node : String
  queue : List String
  next : ((Kahn.step items)^[pops] (Kahn.start items)).queue = node :: queue
  lowered : List String
  dep : String
  rest : List String
  dependents : Kahn.dependents items node = lowered ++ dep :: rest

/-- The degree that a decrement takes one from. -/
def Decrement.degree {items : Kahn.Graph String} (d : Decrement items) : Nat :=
  (Kahn.relax ((Kahn.step items)^[d.pops] (Kahn.start items)).degree d.lowered).1 d.dep

theorem Decrement.degree_pos {items : Kahn.Graph String} (hn : (Kahn.names items).Nodup)
    (d : Decrement items) : 0 < d.degree :=
  Kahn.degree_pos hn (Kahn.iterate_inv hn d.pops).1 d.next d.dependents

variable {items : Kahn.Graph String}

theorem topologicalSort_nodup (hn : (Kahn.names items).Nodup) : (topologicalSort items).Nodup :=
  (Kahn.sort_perm hn).nodup_iff.mpr hn

theorem mem_topologicalSort (hn : (Kahn.names items).Nodup) {n : String} :
    n ∈ topologicalSort items ↔ n ∈ Kahn.names items := Kahn.mem_sort hn

/-- The edges the validation looks at are those of the graph. -/
theorem validate_respects_iff (hn : (Kahn.names items).Nodup) :
    validatePublishOrder (topologicalSort items) items = .ok () ↔
      Kahn.Respects items (topologicalSort items) := by
  rw [validatePublishOrder_ok_iff (topologicalSort_nodup hn)]
  constructor
  · intro h n hin d hd
    obtain ⟨hn', hd'⟩ : n ∈ Kahn.names items ∧ d ∈ Kahn.names items :=
      ⟨hin, Kahn.depsOf_subset hd⟩
    obtain ⟨deps, he, hdeps, -⟩ := (Kahn.edge_iff hn).mpr ⟨hin, hd⟩
    exact h (n, deps) he ((mem_topologicalSort hn).mpr hn') d hdeps
      ((mem_topologicalSort hn).mpr hd')
  · intro h e he _ d hd hin
    have hedge : Kahn.Edge items e.1 d := ⟨e.2, he, hd, (mem_topologicalSort hn).mp hin⟩
    obtain ⟨hname, hdep⟩ := (Kahn.edge_iff hn).mp hedge
    exact h e.1 hname d hdep

theorem validate_acyclic_iff (hn : (Kahn.names items).Nodup) :
    validatePublishOrder (topologicalSort items) items = .ok () ↔ Kahn.Acyclic items :=
  (validate_respects_iff hn).trans (Kahn.respects_sort_iff hn)

theorem edge_sorted (hn : (Kahn.names items).Nodup) (ha : Kahn.Acyclic items) {n d : String}
    (h : Kahn.Edge items n d) :
    (topologicalSort items).idxOf d < (topologicalSort items).idxOf n := by
  obtain ⟨hname, hdep⟩ := (Kahn.edge_iff hn).mp h
  exact ha.respects hn n hname d hdep

/-- The sort runs to its end without an underflow and lists every name once. Without a cycle
dependencies come first and the listing of the items does not matter; the validation
accepts exactly the graphs without a cycle. -/
theorem publish_order_sound (items : Kahn.Graph String) (hn : (Kahn.names items).Nodup) :
    (∀ d : Decrement items, 0 < d.degree) ∧
      (∀ k ≥ items.length, ((Kahn.step items)^[k] (Kahn.start items)).queue = []) ∧
      (topologicalSort items).Perm (Kahn.names items) ∧
      (Kahn.Acyclic items →
        (∀ n d, Kahn.Edge items n d →
          (topologicalSort items).idxOf d < (topologicalSort items).idxOf n) ∧
        ∀ items', items.Perm items' → topologicalSort items' = topologicalSort items) ∧
      (validatePublishOrder (topologicalSort items) items = .ok () ↔ Kahn.Acyclic items) := by
  refine ⟨Decrement.degree_pos hn, fun k hk => Kahn.queue_eq_nil hn hk, Kahn.sort_perm hn, ?_,
    validate_acyclic_iff hn⟩
  intro ha
  constructor
  · exact fun n d h => edge_sorted hn ha h
  · exact fun items' hp => (Kahn.sort_perm_eq hn ha hp).symm

/-- The application twice names its library, and a crate outside the list. -/
theorem publish_order_sound_app :
    (topologicalSort [("app", ["lib", "serde", "lib"]), ("lib", [])]).idxOf "lib" <
        (topologicalSort [("app", ["lib", "serde", "lib"]), ("lib", [])]).idxOf "app" ∧
      validatePublishOrder (topologicalSort [("app", ["lib", "serde", "lib"]), ("lib", [])])
        [("app", ["lib", "serde", "lib"]), ("lib", [])] = .ok () := by
  have hrespects : Kahn.Respects [("app", ["lib", "serde", "lib"]), ("lib", [])]
      ["lib", "app"] := by
    unfold Kahn.Respects
    decide
  have hacyclic := hrespects.acyclic (by decide)
  obtain ⟨-, -, -, hsorted, hvalid⟩ :=
    publish_order_sound [("app", ["lib", "serde", "lib"]), ("lib", [])] (by decide)
  exact ⟨(hsorted hacyclic).1 "app" "lib" ⟨_, .head _, by simp, by decide⟩, hvalid.mpr hacyclic⟩

end Anodizer
