import Mathlib.Data.List.Pairwise

/-! # Groups by key

A list is cut into groups, one for each key, in the order in which the keys
appear. An element without a key is a group of its own.
-/

namespace KeyGroups

variable {α κ : Type*} [DecidableEq κ] (key : α → Option κ)

/-- Put the element in the group of its key, or in a new group at the end. -/
def insertKeyed (k : κ) (a : α) : List (Option κ × List α) → List (Option κ × List α)
  | [] => [(some k, [a])]
  | (k', g) :: gs => if k' = some k then (k', g ++ [a]) :: gs else (k', g) :: insertKeyed k a gs

def insertOne (gs : List (Option κ × List α)) (a : α) : List (Option κ × List α) :=
  match key a with
  | some k => insertKeyed k a gs
  | none => gs ++ [(none, [a])]

/-- The groups of a list, each with its key. -/
def keyed (l : List α) : List (Option κ × List α) := l.foldl (insertOne key) []

def groups (l : List α) : List (List α) := (keyed key l).map (·.2)

/-! ### The groups of a list -/

/-- The elements of a group have its key, and no two groups have one key. -/
structure WellKeyed (gs : List (Option κ × List α)) : Prop where
  key_eq : ∀ g ∈ gs, ∀ a ∈ g.2, key a = g.1
  distinct : gs.Pairwise fun g g' => g.1 = g'.1 → g.1 = none

variable {key} {gs : List (Option κ × List α)} {k : κ} {a b : α} {l : List α}

theorem mem_insertKeyed {g : Option κ × List α} (h : g ∈ insertKeyed k a gs) :
    g = (some k, [a]) ∨ g ∈ gs ∨ ∃ as, (some k, as) ∈ gs ∧ g = (some k, as ++ [a]) := by
  induction gs with
  | nil => exact .inl (List.mem_singleton.mp h)
  | cons g' gs ih =>
    obtain ⟨k', as⟩ := g'
    rw [insertKeyed] at h
    split at h
    · next hk =>
      rcases List.mem_cons.mp h with rfl | h
      · exact .inr (.inr ⟨as, by simp [hk], by rw [hk]⟩)
      · exact .inr (.inl (List.mem_cons_of_mem _ h))
    · rcases List.mem_cons.mp h with rfl | h
      · exact .inr (.inl List.mem_cons_self)
      · rcases ih h with h | h | ⟨as, has, rfl⟩
        · exact .inl h
        · exact .inr (.inl (List.mem_cons_of_mem _ h))
        · exact .inr (.inr ⟨as, List.mem_cons_of_mem _ has, rfl⟩)

theorem WellKeyed.insertKeyed (h : WellKeyed key gs) (ha : key a = some k) :
    WellKeyed key (insertKeyed k a gs) := by
  constructor
  · rintro g hg b hb
    rcases mem_insertKeyed hg with rfl | hg | ⟨as, has, rfl⟩
    · rw [List.mem_singleton.mp hb, ha]
    · exact h.key_eq g hg b hb
    · rcases List.mem_append.mp hb with hb | hb
      · exact h.key_eq _ has b hb
      · rw [List.mem_singleton.mp hb, ha]
  · have hdistinct := h.distinct
    clear h
    induction gs with
    | nil => exact List.pairwise_singleton _ _
    | cons g gs ih =>
      obtain ⟨hhead, htail⟩ := List.pairwise_cons.mp hdistinct
      obtain ⟨k', as⟩ := g
      rw [KeyGroups.insertKeyed]
      split
      · exact List.pairwise_cons.mpr ⟨hhead, htail⟩
      · next hk =>
        refine List.pairwise_cons.mpr ⟨fun g hg => ?_, ih htail⟩
        rcases mem_insertKeyed hg with rfl | hg | ⟨as, has, rfl⟩
        · exact fun heq => absurd heq hk
        · exact hhead g hg
        · exact fun heq => absurd heq hk

theorem WellKeyed.insertOne (h : WellKeyed key gs) (a : α) : WellKeyed key (insertOne key gs a) := by
  unfold KeyGroups.insertOne
  cases ha : key a with
  | some k => exact h.insertKeyed ha
  | none =>
    constructor
    · rintro g hg b hb
      rcases List.mem_append.mp hg with hg | hg
      · exact h.key_eq g hg b hb
      · obtain rfl := List.mem_singleton.mp hg
        rw [List.mem_singleton.mp hb, ha]
    · refine List.pairwise_append.mpr ⟨h.distinct, List.pairwise_singleton _ _, ?_⟩
      rintro g - g' hg' heq
      rw [heq, List.mem_singleton.mp hg']

theorem wellKeyed (l : List α) : WellKeyed key (keyed key l) := by
  suffices hrun : ∀ gs, WellKeyed key gs → WellKeyed key (l.foldl (insertOne key) gs) from
    hrun [] ⟨by simp, List.Pairwise.nil⟩
  induction l with
  | nil => exact fun _ h => h
  | cons a l ih => exact fun gs h => ih _ (h.insertOne a)

/-- Elements of one key are in one group. -/
theorem group_unique {g g' : List α} (hg : g ∈ groups key l) (hg' : g' ∈ groups key l)
    (ha : a ∈ g) (hb : b ∈ g') (hk : key a = some k) (hk' : key b = some k) : g = g' := by
  obtain ⟨p, hp, rfl⟩ := List.mem_map.mp hg
  obtain ⟨p', hp', rfl⟩ := List.mem_map.mp hg'
  have hwell : WellKeyed key (keyed key l) := wellKeyed l
  have hpk : p.1 = some k := (hwell.key_eq p hp a ha).symm.trans hk
  have hpk' : p'.1 = some k := (hwell.key_eq p' hp' b hb).symm.trans hk'
  by_contra hne
  have hpp : p ≠ p' := fun heq => hne (by rw [heq])
  have hsymm : Std.Symm fun g g' : Option κ × List α => g.1 = g'.1 → g.1 = none :=
    ⟨fun g g' h heq => heq ▸ h heq.symm⟩
  have := hwell.distinct.forall hp hp' hpp (hpk.trans hpk'.symm)
  rw [hpk] at this
  cases this

end KeyGroups
