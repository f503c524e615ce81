import Anodizer.Archive.FileSpecs

/-! # The common prefix of paths

The prefix is cut at the bytes that the paths have in common. That panics where they part inside of
the encoding of a character, and gives the longest common text otherwise.
-/

namespace Anodizer.FileSpecs

open Template (Text)

variable {strs before after : List Text} {s t : Text}

/-- A text that all texts begin with, no shorter than any other. Of no texts it is the empty one. -/
structure IsLongestCommon (strs : List Text) (t : Text) : Prop where
  common : ∀ s ∈ strs, t <+: s
  longest : ∀ u, strs ≠ [] → (∀ s ∈ strs, u <+: s) → u.length ≤ t.length
  of_nil : strs = [] → t = []

/-- Where a text parts from those before it, the characters differ in the first byte of their
encodings. -/
def PartsFrom (before : List Text) (s : Text) : Prop :=
  ∀ u c d, (∀ r ∈ before, u ++ [c] <+: r) → u ++ [d] <+: s → c ≠ d →
    Utf8.leadByte c ≠ Utf8.leadByte d

def PartAtCharacters (strs : List Text) : Prop :=
  ∀ before s after, strs = before ++ s :: after → before ≠ [] → PartsFrom before s

/-- Every common text is a prefix of a longest one. -/
theorem IsLongestCommon.prefix_iff (h : IsLongestCommon strs t) (hne : strs ≠ []) {u : Text} :
    u <+: t ↔ ∀ s ∈ strs, u <+: s := by
  refine ⟨fun hu s hs => hu.trans (h.common s hs), fun hu => ?_⟩
  obtain ⟨s, hs⟩ := List.exists_mem_of_ne_nil strs hne
  exact List.prefix_of_prefix_length_le (hu s hs) (h.common s hs) (h.longest u hne hu)

theorem IsLongestCommon.unique {t' : Text} (h : IsLongestCommon strs t)
    (h' : IsLongestCommon strs t') : t = t' := by
  by_cases hne : strs = []
  · rw [h.of_nil hne, h'.of_nil hne]
  · have hle := (h.prefix_iff hne).mpr h'.common
    have hge := (h'.prefix_iff hne).mpr h.common
    exact hge.eq_of_length_le hle.length_le

theorem IsLongestCommon.parts_iff (h : IsLongestCommon before t) (hne : before ≠ []) :
    Utf8.Parts t s ↔ PartsFrom before s := by
  simp only [Utf8.Parts, PartsFrom, h.prefix_iff hne]

/-- One more text shortens the longest common one to what it shares. -/
theorem IsLongestCommon.concat (h : IsLongestCommon before t) (hne : before ≠ []) (s : Text) :
    IsLongestCommon (before ++ [s]) (Utf8.common t s) where
  common := by
    have hcommon := Utf8.prefix_common.mp (List.prefix_refl (Utf8.common t s))
    intro r hr
    rcases List.mem_append.mp hr with hr | hr
    · exact hcommon.1.trans (h.common r hr)
    · exact List.mem_singleton.mp hr ▸ hcommon.2
  longest := by
    intro u _ hu
    have hut : u <+: t := (h.prefix_iff hne).mpr fun r hr => hu r (List.mem_append_left _ hr)
    have hus : u <+: s := hu s (by simp)
    exact (Utf8.prefix_common.mpr ⟨hut, hus⟩).length_le
  of_nil := by simp

theorem isLongestCommon_singleton (s : Text) : IsLongestCommon [s] s where
  common := by simp
  longest := fun u _ hu => (hu s (by simp)).length_le
  of_nil := by simp

/-- What the prefix of the texts so far becomes with the texts behind them. -/
theorem foldlM_shorten (h : IsLongestCommon before t) (hne : before ≠ []) (after : List Text) :
    ((∀ mid s rest, after = mid ++ s :: rest → PartsFrom (before ++ mid) s) →
      ∃ t', after.foldlM shorten t = .ok t' ∧ IsLongestCommon (before ++ after) t') ∧
    ((¬ ∀ mid s rest, after = mid ++ s :: rest → PartsFrom (before ++ mid) s) →
      after.foldlM shorten t = .error .panicked) := by
  induction after generalizing before t with
  | nil => exact ⟨fun _ => ⟨t, rfl, by simpa using h⟩, fun hall => absurd (by simp) hall⟩
  | cons s after ih =>
    obtain ⟨hcut, hpanic⟩ := Utf8.cutAt_commonLength t s
    have hsplit : (∀ mid r rest, s :: after = mid ++ r :: rest → PartsFrom (before ++ mid) r) ↔
        PartsFrom before s ∧
          ∀ mid r rest, after = mid ++ r :: rest → PartsFrom (before ++ [s] ++ mid) r := by
      constructor
      · intro hall
        refine ⟨by simpa using hall [] s after rfl, fun mid r rest hrest => ?_⟩
        simpa using hall (s :: mid) r rest (by rw [hrest]; rfl)
      · rintro ⟨hfirst, hall⟩ mid r rest hrest
        cases mid with
        | nil =>
          obtain ⟨rfl, -⟩ := List.cons.inj hrest
          simpa using hfirst
        | cons a mid =>
          obtain ⟨rfl, htail⟩ := List.cons.inj hrest
          simpa using hall mid r rest htail
    rw [List.foldlM_cons, hsplit, ← h.parts_iff hne]
    by_cases hparts : Utf8.Parts t s
    · have hstep : shorten t s = .ok (Utf8.common t s) := by rw [shorten, hcut hparts]
      obtain ⟨hok, herror⟩ := ih (h.concat hne s) (by simp)
      rw [List.append_assoc, List.singleton_append] at hok
      simp only [hstep, hparts, true_and]
      exact ⟨hok, herror⟩
    · have hstep : shorten t s = .error .panicked := by rw [shorten, hpanic hparts]
      simp only [hstep, hparts, false_and, not_false_eq_true, forall_true_left]
      exact ⟨False.elim, rfl⟩

theorem longestCommonPrefix_cases (strs : List Text) :
    (PartAtCharacters strs → ∃ t, longestCommonPrefix strs = .ok t ∧ IsLongestCommon strs t) ∧
      (¬ PartAtCharacters strs → longestCommonPrefix strs = .error .panicked) := by
  cases strs with
  | nil =>
    refine ⟨fun _ => ⟨[], rfl, by simp, by simp, by simp⟩, fun h => absurd ?_ h⟩
    intro before s after hnil
    simp at hnil
  | cons s strs =>
    have hiff : PartAtCharacters (s :: strs) ↔
        ∀ mid r rest, strs = mid ++ r :: rest → PartsFrom ([s] ++ mid) r := by
      constructor
      · intro h mid r rest hrest
        exact h (s :: mid) r rest (by rw [hrest]; rfl) (by simp)
      · intro h before r after hcut hne
        obtain ⟨a, mid, rfl⟩ := List.exists_cons_of_ne_nil hne
        obtain ⟨rfl, htail⟩ := List.cons.inj hcut
        exact h mid r after htail
    rw [hiff, longestCommonPrefix]
    exact foldlM_shorten (isLongestCommon_singleton s) (by simp) strs

end Anodizer.FileSpecs
