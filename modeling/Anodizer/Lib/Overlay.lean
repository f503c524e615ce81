import Mathlib.Order.Basic

/-! # Documents over default documents

A document is laid over a document of defaults. What it sets stays, and what it leaves
unset is taken from the defaults.
-/

namespace Overlay

/-- A document of values. A field that a node does not have reads as unset. -/
inductive Doc (κ α : Type*) where
  | unset
  | leaf (a : α)
  | list (l : List (Doc κ α))
  | node (fields : κ → Doc κ α)

namespace Doc

variable {κ α : Type*} {t t' t'' d : Doc κ α}

def isUnset : Doc κ α → Bool
  | unset => true
  | _ => false

theorem isUnset_iff : t.isUnset ↔ t = unset := by
  cases t <;> simp [isUnset]

/-- The document, with what it leaves unset taken from the defaults. Lists are not joined. -/
def overlay : Doc κ α → Doc κ α → Doc κ α
  | node t, node d => node fun k => if (t k).isUnset then d k else overlay (t k) (d k)
  | t, d => if t.isUnset then d else t

theorem unset_over (d : Doc κ α) : overlay unset d = d := by
  cases d <;> rfl

theorem node_over_node (t d : κ → Doc κ α) :
    overlay (node t) (node d) = node fun k => overlay (t k) (d k) := by
  rw [overlay]
  congr 1
  funext k
  split
  · next h => rw [isUnset_iff.mp h, unset_over]
  · rfl

/-- A leaf is that of the document, or of the defaults where the document is unset. -/
theorem over_eq_leaf {a : α} (h : overlay t d = leaf a) : t = leaf a ∨ t = unset ∧ d = leaf a := by
  cases t with
  | unset => exact .inr ⟨rfl, (unset_over d).symm.trans h⟩
  | leaf b => exact .inl (by cases d <;> exact h)
  | list l => cases d <;> cases h
  | node f => cases d <;> cases h

/-- What the one sets, the other has too. -/
inductive Sets : Doc κ α → Doc κ α → Prop
  | unset (t : Doc κ α) : Sets unset t
  | same (t : Doc κ α) : Sets t t
  | node {t t' : κ → Doc κ α} : (∀ k, Sets (t k) (t' k)) → Sets (node t) (node t')

theorem sets_over : ∀ t d : Doc κ α, Sets t (overlay t d)
  | node t, node d => by
    rw [node_over_node]
    exact .node fun k => sets_over (t k) (d k)
  | unset, _ => .unset _
  | leaf _, unset | leaf _, leaf _ | leaf _, list _ | leaf _, node _ => .same _
  | list _, unset | list _, leaf _ | list _, list _ | list _, node _ => .same _
  | node _, unset | node _, leaf _ | node _, list _ => .same _

theorem over_self : ∀ t : Doc κ α, overlay t t = t
  | node t => by
    rw [node_over_node]
    congr 1
    funext k
    exact over_self (t k)
  | unset | leaf _ | list _ => rfl

/-- Laying the result over the same defaults again changes nothing. -/
theorem over_over : ∀ t d : Doc κ α, overlay (overlay t d) d = overlay t d
  | node t, node d => by
    rw [node_over_node, node_over_node]
    congr 1
    funext k
    exact over_over (t k) (d k)
  | unset, d => by rw [unset_over, over_self]
  | leaf _, unset | leaf _, leaf _ | leaf _, list _ | leaf _, node _ => rfl
  | list _, unset | list _, leaf _ | list _, list _ | list _, node _ => rfl
  | node _, unset | node _, leaf _ | node _, list _ => rfl

end Doc

end Overlay
