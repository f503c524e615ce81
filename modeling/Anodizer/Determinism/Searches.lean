import Anodizer.Determinism.QuotedLines

/-! # What the searches find

The samples of the runs behind the first one are searched in order. Each search is a search through
the contents, and none of them faults.
-/

namespace Anodizer.Determinism

open Checked
open FirstDiff (firstDiff)
open Template (Text)

theorem findSomeM_ok {α β : Type} {f : α → Result (Option β)} {g : α → Option β}
    (h : ∀ a, f a = .ok (g a)) (l : List α) : l.findSomeM? f = .ok (l.findSome? g) := by
  obtain rfl : f = fun a => .ok (g a) := funext h
  exact List.findSomeM?_pure

/-- A numbered search finds the element that the search finds, with its number. -/
theorem findSome_zipIdx {α β γ : Type} {g : α → Option β} (f : α → γ) {l : List α} {a : α} (k : ℕ)
    (h : l.find? (fun a => (g a).isSome) = some a) : ∃ i b, l[i]? = some a ∧ g a = some b ∧
      (l.zipIdx k).findSome? (fun x => (g x.1).map (f x.1, x.2, ·)) = some (f a, k + i, b) := by
  induction l generalizing k with
  | nil => simp at h
  | cons a' l ih =>
    rw [List.find?_cons] at h
    cases hg : g a' with
    | none =>
      rw [hg] at h
      obtain ⟨i, b, hi, hb, hfind⟩ := ih (k + 1) h
      refine ⟨i + 1, b, hi, hb, ?_⟩
      rw [List.zipIdx_cons, List.findSome?_cons]
      simp only [hg, Option.map_none, hfind, Option.some.injEq, Prod.mk.injEq, and_true, true_and]
      omega
    | some b =>
      obtain rfl : a' = a := by simpa [hg] using h
      exact ⟨0, b, rfl, hg, by simp [hg]⟩

theorem findSome_zipIdx_none {α β γ : Type} {g : α → Option β} (f : α → γ) {l : List α} (k : ℕ)
    (h : l.find? (fun a => (g a).isSome) = none) :
    (l.zipIdx k).findSome? (fun x => (g x.1).map (f x.1, x.2, ·)) = none := by
  rw [List.findSome?_eq_none_iff]
  intro x hx
  rw [List.find?_eq_none] at h
  have hnone := h x.1 (List.fst_mem_of_mem_zipIdx hx)
  rw [Bool.not_eq_true, Option.isSome_eq_false_iff, Option.isNone_iff_eq_none] at hnone
  rw [hnone, Option.map_none]

theorem find_zipIdx {α : Type} {p : α → Bool} {l : List α} {a : α} (k : ℕ)
    (h : l.find? p = some a) :
    ∃ i, l[i]? = some a ∧ (l.zipIdx k).find? (fun x => p x.1) = some (a, k + i) := by
  induction l generalizing k with
  | nil => simp at h
  | cons a' l ih =>
    rw [List.find?_cons] at h
    cases hp : p a' with
    | false =>
      rw [hp] at h
      obtain ⟨i, hi, hfind⟩ := ih (k + 1) h
      refine ⟨i + 1, hi, ?_⟩
      rw [List.zipIdx_cons, List.find?_cons]
      simp only [hp, hfind, Option.some.injEq, Prod.mk.injEq, true_and]
      omega
    | true =>
      obtain rfl : a' = a := by simpa [hp] using h
      exact ⟨0, rfl, by simp [hp]⟩

theorem find_zipIdx_none {α : Type} {p : α → Bool} {l : List α} (k : ℕ) (h : l.find? p = none) :
    (l.zipIdx k).find? (fun x => p x.1) = none := by
  rw [List.find?_eq_none] at h ⊢
  exact fun x hx => h x.1 (List.fst_mem_of_mem_zipIdx hx)

/-! ### The windows of a content -/

/-- A content that the samples cover. -/
abbrev Covered (c : Bytes) : Prop := c.length ≤ headSampleBytes + tailSampleBytes

def headWindow (c : Bytes) : Bytes := c.take headSampleBytes

def tailWindow (c : Bytes) : Bytes := c.drop (max (c.length - tailSampleBytes) headSampleBytes)

theorem sample_eq (c : Bytes) : sample c = ⟨headWindow c, tailWindow c, c.length⟩ := by
  simp only [sample, headWindow, tailWindow, ArtifactInfo.mk.injEq, and_true]
  constructor
  · rw [Nat.min_comm, ← List.take_eq_take_min]
  · split
    · exact (List.drop_eq_nil_of_le (by omega)).symm
    · rfl

@[simp]
theorem sample_headSample (c : Bytes) : (sample c).headSample = headWindow c := by rw [sample_eq]

@[simp]
theorem sample_tailSample (c : Bytes) : (sample c).tailSample = tailWindow c := by rw [sample_eq]

@[simp]
theorem sample_sizeBytes (c : Bytes) : (sample c).sizeBytes = c.length := rfl

theorem length_headWindow (c : Bytes) : (headWindow c).length = min headSampleBytes c.length :=
  List.length_take

theorem length_tailWindow (c : Bytes) : (tailWindow c).length =
    c.length - max (c.length - tailSampleBytes) headSampleBytes := List.length_drop

theorem tailWindow_of_covered {c : Bytes} (h : Covered c) : tailWindow c = c.drop headSampleBytes := by
  rw [tailWindow, Nat.max_eq_right (Nat.sub_le_iff_le_add.mpr h)]

theorem windows_of_covered {c : Bytes} (h : Covered c) : headWindow c ++ tailWindow c = c := by
  rw [tailWindow_of_covered h, headWindow, List.take_append_drop]

/-- The samples give back a content that they cover, and no other. -/
theorem reconstructFull_windows (c : Bytes) :
    reconstructFull (headWindow c) (tailWindow c) c.length =
      .ok (if Covered c then some c else none) := by
  simp only [reconstructFull, length_headWindow, length_tailWindow]
  have hhead : headSampleBytes = 16384 := rfl
  have htail : tailSampleBytes = 16384 := rfl
  by_cases h : Covered c
  · have hstart : c.length - (c.length - max (c.length - tailSampleBytes) headSampleBytes) =
        (headWindow c).length := by
      rw [length_headWindow]
      simp only [Covered] at h
      omega
    have hslice : slice (headWindow c) 0 (headWindow c).length = .ok (headWindow c) := by
      rw [slice_of_le (Nat.zero_le _) (Nat.le_refl _), List.drop_zero, Nat.sub_zero,
        List.take_length]
    have hsum : ¬ min headSampleBytes c.length +
        (c.length - max (c.length - tailSampleBytes) headSampleBytes) < c.length := by
      simp only [Covered] at h
      omega
    rw [if_neg hsum, if_neg (by omega), if_pos h]
    simp only [hstart]
    rw [if_neg (by rw [length_headWindow]; omega), hslice]
    simp only [bind, Except.bind, pure, Except.pure, windows_of_covered h]
  · rw [if_neg h, if_pos]
    simp only [Covered] at h
    omega

/-! ### The four searches -/

def HeadDiffers (c₀ c : Bytes) : Bool := (firstDiff (headWindow c₀) (headWindow c)).isSome

def HeadLengthDiffers (c₀ c : Bytes) : Bool := (headWindow c).length ≠ (headWindow c₀).length

/-- Where two contents of one size differ in their tails. -/
def inTail (c₀ c : Bytes) : Option ℕ :=
  if c.length ≠ c₀.length then none else firstDiff (tailWindow c₀) (tailWindow c)

def TailDiffers (c₀ c : Bytes) : Bool := (inTail c₀ c).isSome

def SizeDiffers (c₀ c : Bytes) : Bool := c.length ≠ c₀.length

theorem headDiff_ok (s₀ : ArtifactInfo) (run : ArtifactInfo × ℕ) : headDiff s₀ run =
    .ok ((firstDiff s₀.headSample run.1.headSample).map (run.1, run.2, ·)) := by
  rw [headDiff]
  simp only [FirstDiff.findDiff_range, bind, Except.bind, pure, Except.pure]

theorem tailDiff_ok (s₀ : ArtifactInfo) (run : ArtifactInfo × ℕ) : tailDiff s₀ run =
    .ok ((if run.1.sizeBytes ≠ s₀.sizeBytes ∨ run.1.tailSample.length ≠ s₀.tailSample.length
      then none else firstDiff s₀.tailSample run.1.tailSample).map (run.1, run.2, ·)) := by
  rw [tailDiff]
  by_cases hnil : run.1.tailSample = []
  · have hnone : firstDiff s₀.tailSample run.1.tailSample = none := by
      rw [hnil]
      cases s₀.tailSample <;> rfl
    rw [if_pos (Or.inl hnil), hnone, ite_self]
    rfl
  · by_cases hne : run.1.sizeBytes ≠ s₀.sizeBytes ∨ run.1.tailSample.length ≠ s₀.tailSample.length
    · rw [if_pos (Or.inr hne), if_pos hne]
      rfl
    · have hmin : s₀.tailSample.length = min s₀.tailSample.length run.1.tailSample.length := by
        omega
      rw [if_neg (not_or.mpr ⟨hnil, hne⟩), if_neg hne, hmin, FirstDiff.findDiff_range]
      rfl

theorem others_sample (c₀ : Bytes) (rest : List Bytes) : others ((c₀ :: rest).map sample) =
    (rest.zipIdx 1).map fun x => (sample x.1, x.2) := by
  rw [others, List.map_cons, List.tail_cons, List.zipIdx_map]
  rfl

theorem search_head (c₀ : Bytes) (rest : List Bytes) :
    (others ((c₀ :: rest).map sample)).findSomeM? (headDiff (sample c₀)) =
      .ok ((rest.zipIdx 1).findSome? fun x =>
        (firstDiff (headWindow c₀) (headWindow x.1)).map (sample x.1, x.2, ·)) := by
  rw [findSomeM_ok (headDiff_ok _), others_sample, List.findSome?_map]
  simp only [Function.comp_def, sample_headSample]

theorem search_tail (c₀ : Bytes) (rest : List Bytes) :
    (others ((c₀ :: rest).map sample)).findSomeM? (tailDiff (sample c₀)) =
      .ok ((rest.zipIdx 1).findSome? fun x => (inTail c₀ x.1).map (sample x.1, x.2, ·)) := by
  have hlen : ∀ c : Bytes, (c.length ≠ c₀.length ∨
      (tailWindow c).length ≠ (tailWindow c₀).length) ↔ c.length ≠ c₀.length := by
    intro c
    refine ⟨fun h heq => ?_, Or.inl⟩
    rw [length_tailWindow, length_tailWindow, heq] at h
    exact h.elim (· rfl) (· rfl)
  rw [findSomeM_ok (tailDiff_ok _), others_sample, List.findSome?_map]
  simp only [Function.comp_def, sample_tailSample, sample_sizeBytes, hlen, inTail]

end Anodizer.Determinism
