import Anodizer.Determinism.Searches

/-! # Drift is localized

A difference that is found in the samples is the first one of the contents. What goes wrong is the
rest: sizes that differ behind equal heads end the search in front of the tails, contents without a
difference are said to differ where nothing was sampled, and at a newline the next line is quoted.
-/

namespace Anodizer.Determinism

open Checked
open FirstDiff (firstDiff)
open Template (Text)

/-! ### What a summary says -/

/-- The run that a summary is about. -/
def Summary.run : Summary → Option ℕ
  | firstDiff run .. | headLengths run .. | tailDiff run .. | sizesDiffer run .. => some run
  | sizesEqual .. => none

/-- The offset that a summary reports, with the bytes there and the lines around them. -/
def Summary.site : Summary → Option (ℕ × UInt8 × UInt8 × Option Quote)
  | firstDiff _ offset byte₀ byte quote => some (offset, byte₀, byte, quote)
  | tailDiff _ offset _ byte₀ byte quote => some (offset, byte₀, byte, quote)
  | _ => none

def Summary.Unsampled : Summary → Prop
  | sizesDiffer .. | sizesEqual .. => True
  | _ => False

/-- A summary that names no run is about the first one and any other. -/
def Summary.About (contents : List Bytes) (summary : Summary) (d₀ d : Bytes) : Prop :=
  contents[0]? = some d₀ ∧ ∃ run, 0 < run ∧ contents[run]? = some d ∧
    ∀ named, summary.run = some named → named = run

structure Localizes (contents : List Bytes) (summary : Summary) : Prop where
  located : ∀ d₀ d offset, summary.About contents d₀ d → Covered d₀ → Covered d →
    firstDiff d₀ d = some offset → ∃ byte₀ byte quote,
      summary.site = some (offset, byte₀, byte, quote) ∧ d₀[offset]? = some byte₀ ∧
        d[offset]? = some byte ∧ ∀ n₀ line₀ n line, quote = some ((n₀, line₀), (n, line)) →
          LineAt d₀ offset n₀ line₀ ∧ LineAt d offset n line
  sampled : ∀ d₀ d, summary.About contents d₀ d → summary.Unsampled → ¬ (Covered d₀ ∧ Covered d)

section Runs

variable (toLowercase : Text → Text) (name : Text)

/-- The artifact of some runs is sampled and summarized. -/
def Localized (fromUtf8Lossy : Bytes → Text) (runs : List (Text → Option Bytes)) : Prop :=
  let contents := runs.filterMap (· name)
  (∃ summary, summarizeSamples toLowercase name (contents.map sample) = .ok summary ∧
    summarizeDrift fromUtf8Lossy toLowercase name (runs.map fun run n => (run n).map sample) =
      .ok (some (summary.text fromUtf8Lossy)) ∧ Localizes contents summary) ∧
  ∀ d ∈ contents, Covered d → reconstructFull (sample d).headSample (sample d).tailSample
    (sample d).sizeBytes = .ok (some d)

/-- Two contents that are quoted differ at no newline. -/
def Quotable (d₀ d : Bytes) : Prop :=
  looksTextual toLowercase name (headWindow d₀) → Covered d₀ → Covered d →
    ∀ offset, firstDiff d₀ d = some offset →
      d₀[offset]? ≠ some newline ∧ d[offset]? ≠ some newline

/-- What is reported lies in a head or a tail, or there is something that was not sampled. -/
def Localizable (d₀ : Bytes) (rest : List Bytes) : Prop :=
  match rest.find? (HeadDiffers d₀) with
  | some d => Quotable toLowercase name d₀ d
  | none => (∃ d ∈ rest, HeadLengthDiffers d₀ d) ∨
    match rest.find? (TailDiffers d₀) with
    | some d => Quotable toLowercase name d₀ d
    | none => match rest.find? (SizeDiffers d₀) with
      | some d => ¬ (Covered d₀ ∧ Covered d)
      | none => ¬ Covered d₀

end Runs

/-! ### Differences of the windows -/

section Windows

variable {d₀ d : Bytes} {i : ℕ}

theorem firstDiff_of_head (h : firstDiff (headWindow d₀) (headWindow d) = some i) :
    firstDiff d₀ d = some i := FirstDiff.firstDiff_of_take h

/-- Heads of different lengths are the contents, or one of them is. -/
theorem firstDiff_of_lengths (hhead : firstDiff (headWindow d₀) (headWindow d) = none)
    (hlen : (headWindow d).length ≠ (headWindow d₀).length) : firstDiff d₀ d = none := by
  rw [FirstDiff.firstDiff_eq_none] at hhead ⊢
  intro i a b ha hb
  have hin : i < headSampleBytes := by
    have hlt₀ := (List.getElem?_eq_some_iff.mp ha).1
    have hlt := (List.getElem?_eq_some_iff.mp hb).1
    rw [length_headWindow, length_headWindow] at hlen
    omega
  apply hhead i a b
  · rw [headWindow, List.getElem?_take, if_pos hin, ha]
  · rw [headWindow, List.getElem?_take, if_pos hin, hb]

/-- Behind equal heads a difference of the tails is the first one. -/
theorem firstDiff_of_tail (hhead : headWindow d₀ = headWindow d)
    (htail : firstDiff (tailWindow d₀) (tailWindow d) = some i) (hcov₀ : Covered d₀)
    (hcov : Covered d) : firstDiff d₀ d = some ((headWindow d₀).length + i) := by
  calc firstDiff d₀ d
      = firstDiff (headWindow d₀ ++ tailWindow d₀) (headWindow d₀ ++ tailWindow d) := by
        rw [windows_of_covered hcov₀, hhead, windows_of_covered hcov]
    _ = some ((headWindow d₀).length + i) := by
        rw [FirstDiff.firstDiff_append, htail]
        rfl

theorem eq_headWindow (hhead : firstDiff (headWindow d₀) (headWindow d) = none)
    (hlen : (headWindow d).length = (headWindow d₀).length) : headWindow d₀ = headWindow d :=
  FirstDiff.eq_of_firstDiff_eq_none hhead hlen.symm

theorem getElem_of_headWindow {b : UInt8} (h : (headWindow d)[i]? = some b) : d[i]? = some b := by
  rw [headWindow, List.getElem?_take] at h
  split at h
  · exact h
  · cases h

theorem getElem_tailWindow : (tailWindow d)[i]? =
    d[max (d.length - tailSampleBytes) headSampleBytes + i]? := List.getElem?_drop

end Windows

/-! ### The lines that are quoted -/

section Quotes

variable (toLowercase : Text → Text) (name : Text) {d₀ d : Bytes} {contents : List Bytes}
  {run offset : ℕ}

/-- Small texts are quoted, each with the line at the offset. -/
theorem textDiff_spec (h₀ : contents[0]? = some d₀) (h : contents[run]? = some d)
    (hlt₀ : offset < d₀.length) (hlt : offset < d.length) : ∃ quote,
      textDiff toLowercase name (contents.map sample) run offset = .ok quote ∧
      ((∀ n₀ line₀ n line, quote = some ((n₀, line₀), (n, line)) →
          LineAt d₀ offset n₀ line₀ ∧ LineAt d offset n line) ↔
        (looksTextual toLowercase name (headWindow d₀) → Covered d₀ → Covered d →
          d₀[offset]? ≠ some newline ∧ d[offset]? ≠ some newline)) := by
  have hs₀ : index (contents.map sample) 0 = .ok (sample d₀) := by
    rw [index, List.getElem?_map, h₀]
    rfl
  have hs : index (contents.map sample) run = .ok (sample d) := by
    rw [index, List.getElem?_map, h]
    rfl
  obtain ⟨n₀, line₀, hread₀, hat₀⟩ := lineAtOffset_spec hlt₀
  obtain ⟨n, line, hread, hat⟩ := lineAtOffset_spec hlt
  simp only [textDiff, hs₀, hs, bind, Except.bind, sample_headSample,
    sample_tailSample, sample_sizeBytes, reconstructFull_windows, pure, Except.pure]
  by_cases htext : looksTextual toLowercase name (headWindow d₀) = true
  · by_cases hcov₀ : Covered d₀
    · by_cases hcov : Covered d
      · refine ⟨some ((n₀, line₀), (n, line)), ?_, ?_⟩
        · rw [if_neg (not_not.mpr htext), if_pos hcov₀, if_pos hcov]
          simp only [hread₀, hread]
        · rw [← hat₀, ← hat]
          constructor
          · intro hquote _ _ _
            exact hquote n₀ line₀ n line rfl
          · rintro hlines _ _ _ _ ⟨⟩
            exact hlines htext hcov₀ hcov
      · exact ⟨none, by simp only [htext, hcov₀, hcov, not_true_eq_false, if_false, if_true],
          by simp [hcov]⟩
    · exact ⟨none, by simp only [htext, hcov₀, not_true_eq_false, if_false], by simp [hcov₀]⟩
  · exact ⟨none, if_pos htext, by simp [htext]⟩

/-- A report on the first difference is right if what it quotes is. -/
theorem localizes_site {summary : Summary} {byte₀ byte : UInt8} {quote : Option Quote}
    (hrun : summary.run = some run) (hpos : 0 < run)
    (hsite : summary.site = some (offset, byte₀, byte, quote)) (hsampled : ¬ summary.Unsampled)
    (h₀ : contents[0]? = some d₀) (h : contents[run]? = some d)
    (hfirst : Covered d₀ → Covered d → firstDiff d₀ d = some offset)
    (hbyte₀ : d₀[offset]? = some byte₀) (hbyte : d[offset]? = some byte)
    (hquote : (∀ n₀ line₀ n line, quote = some ((n₀, line₀), (n, line)) →
          LineAt d₀ offset n₀ line₀ ∧ LineAt d offset n line) ↔
        (looksTextual toLowercase name (headWindow d₀) → Covered d₀ → Covered d →
          d₀[offset]? ≠ some newline ∧ d[offset]? ≠ some newline)) :
    Localizes contents summary ↔ Quotable toLowercase name d₀ d := by
  constructor
  · rintro ⟨hlocated, -⟩ htext hcov₀ hcov i hi
    have habout : summary.About contents d₀ d :=
      ⟨h₀, run, hpos, h, fun named hnamed => Option.some.inj (hnamed.symm.trans hrun)⟩
    obtain ⟨b₀, b, q, hsite', -, -, hlines⟩ := hlocated d₀ d i habout hcov₀ hcov hi
    obtain rfl : offset = i := Option.some.inj ((hfirst hcov₀ hcov).symm.trans hi)
    obtain ⟨-, -, -, rfl⟩ : offset = offset ∧ byte₀ = b₀ ∧ byte = b ∧ quote = q := by
      simpa using hsite.symm.trans hsite'
    exact hquote.mp hlines htext hcov₀ hcov
  · intro hquotable
    refine ⟨?_, fun _ _ _ hun => absurd hun hsampled⟩
    rintro e₀ e i ⟨hd₀, r, -, hd, hnamed⟩ hcov₀ hcov hi
    obtain rfl : d₀ = e₀ := Option.some.inj (h₀.symm.trans hd₀)
    obtain rfl := hnamed run hrun
    obtain rfl : d = e := Option.some.inj (h.symm.trans hd)
    obtain rfl : offset = i := Option.some.inj ((hfirst hcov₀ hcov).symm.trans hi)
    exact ⟨byte₀, byte, quote, hsite, hbyte₀, hbyte,
      hquote.mpr fun htext _ _ => hquotable htext hcov₀ hcov offset hi⟩

end Quotes

/-! ### The branches of a summary -/

section Branches

variable (toLowercase : Text → Text) (name : Text) {d₀ d : Bytes} {rest : List Bytes}

theorem index_first : index ((d₀ :: rest).map sample) 0 = .ok (sample d₀) := rfl

theorem get_other {i : ℕ} (h : rest[i]? = some d) : (d₀ :: rest)[1 + i]? = some d := by
  rw [Nat.add_comm, List.getElem?_cons_succ, h]

theorem index_sample {l : Bytes} {i : ℕ} {b : UInt8} (h : l[i]? = some b) : index l i = .ok b := by
  rw [index, h]
  rfl

theorem head_branch (h : rest.find? (HeadDiffers d₀) = some d) : ∃ summary,
    summarizeSamples toLowercase name ((d₀ :: rest).map sample) = .ok summary ∧
      (Localizes (d₀ :: rest) summary ↔ Quotable toLowercase name d₀ d) := by
  obtain ⟨i, offset, hi, hdiff, hfind⟩ := findSome_zipIdx sample 1 h
  have hfirst : firstDiff d₀ d = some offset := firstDiff_of_head hdiff
  obtain ⟨⟨byte₀, byte, hwin₀, hwin, -⟩, -⟩ := FirstDiff.firstDiff_eq_some.mp hdiff
  obtain ⟨hlt₀, hlt⟩ := FirstDiff.lt_of_firstDiff hfirst
  obtain ⟨quote, htext, hquote⟩ := textDiff_spec toLowercase name
    (List.getElem?_cons_zero (a := d₀) (l := rest)) (get_other hi) hlt₀ hlt
  refine ⟨.firstDiff (1 + i) offset byte₀ byte quote, ?_, ?_⟩
  · simp only [summarizeSamples, index_first, bind, Except.bind, search_head, hfind,
      sample_headSample, index_sample hwin₀, index_sample hwin, htext]
    rfl
  · exact localizes_site toLowercase name rfl (by omega) rfl id rfl (get_other hi) (fun _ _ => hfirst)
      (getElem_of_headWindow hwin₀)
      (getElem_of_headWindow hwin) hquote

theorem search_head_none (h : rest.find? (HeadDiffers d₀) = none) :
    (others ((d₀ :: rest).map sample)).findSomeM? (headDiff (sample d₀)) = .ok none := by
  rw [search_head, findSome_zipIdx_none sample 1 h]

theorem find_others {p : ArtifactInfo → Bool} {q : Bytes → Bool} (hpq : ∀ c, p (sample c) = q c) :
    (others ((d₀ :: rest).map sample)).find? (fun run => p run.1) =
      ((rest.zipIdx 1).find? fun x => q x.1).map fun x => (sample x.1, x.2) := by
  rw [others_sample, List.find?_map]
  simp only [Function.comp_def, hpq]

theorem find_lengths (d₀ : Bytes) (rest : List Bytes) :
    (others ((d₀ :: rest).map sample)).find? (·.1.headSample.length ≠ (sample d₀).headSample.length) =
      ((rest.zipIdx 1).find? fun x => HeadLengthDiffers d₀ x.1).map fun x => (sample x.1, x.2) :=
  find_others (p := fun s => s.headSample.length ≠ (sample d₀).headSample.length)
    fun c => by simp only [sample_headSample, HeadLengthDiffers]

theorem find_sizes (d₀ : Bytes) (rest : List Bytes) :
    (others ((d₀ :: rest).map sample)).find? (·.1.sizeBytes ≠ (sample d₀).sizeBytes) =
      ((rest.zipIdx 1).find? fun x => SizeDiffers d₀ x.1).map fun x => (sample x.1, x.2) :=
  find_others (p := fun s => s.sizeBytes ≠ (sample d₀).sizeBytes) fun _ => rfl

theorem length_branch (hhead : rest.find? (HeadDiffers d₀) = none)
    (h : rest.find? (HeadLengthDiffers d₀) = some d) : ∃ summary,
    summarizeSamples toLowercase name ((d₀ :: rest).map sample) = .ok summary ∧
      Localizes (d₀ :: rest) summary := by
  obtain ⟨i, hi, hfind⟩ := find_zipIdx 1 h
  have hothers := (find_lengths d₀ rest).trans (congrArg _ hfind)
  refine ⟨.headLengths (1 + i) (headWindow d₀).length (headWindow d).length, ?_, ?_, ?_⟩
  · simp only [summarizeSamples, index_first, bind, Except.bind, search_head_none hhead]
    rw [hothers]
    simp only [Option.map_some, sample_headSample]
    rfl
  · rintro e₀ e offset ⟨he₀, run, -, he, hnamed⟩ - - hoffset
    obtain rfl : d₀ = e₀ := Option.some.inj he₀
    obtain rfl := hnamed (1 + i) rfl
    obtain rfl : d = e := Option.some.inj ((get_other hi).symm.trans he)
    have hsame : firstDiff (headWindow d₀) (headWindow d) = none := by
      have hnone := List.find?_eq_none.mp hhead d (List.mem_of_find?_eq_some h)
      simpa [HeadDiffers] using hnone
    have hlen : (headWindow d).length ≠ (headWindow d₀).length := by
      simpa [HeadLengthDiffers] using List.find?_some h
    rw [firstDiff_of_lengths hsame hlen] at hoffset
    cases hoffset
  · exact fun _ _ _ hun => absurd hun id

/-- Behind equal heads the tails are searched, whenever there are any. -/
theorem summarize_tails (hhead : rest.find? (HeadDiffers d₀) = none)
    (hlen : rest.find? (HeadLengthDiffers d₀) = none) :
    summarizeSamples toLowercase name ((d₀ :: rest).map sample) =
      summarizeTails toLowercase name ((d₀ :: rest).map sample) (sample d₀)
        ((rest.zipIdx 1).findSome? fun x => (inTail d₀ x.1).map (sample x.1, x.2, ·)) := by
  have hlengths := find_lengths d₀ rest
  rw [find_zipIdx_none 1 hlen, Option.map_none] at hlengths
  simp only [summarizeSamples, index_first, bind, Except.bind, search_head_none hhead,
    hlengths, search_tail, sample_tailSample]
  split
  · next hnil =>
    have hnone : ∀ c, inTail d₀ c = none := by
      intro c
      rw [inTail, hnil, FirstDiff.firstDiff_nil, ite_self]
    have hfind : (rest.zipIdx 1).findSome? (fun x => (inTail d₀ x.1).map (sample x.1, x.2, ·)) =
        none := List.findSome?_eq_none_iff.mpr fun x _ => by rw [hnone, Option.map_none]
    rw [hfind]
  · rfl

theorem eq_heads (hhead : rest.find? (HeadDiffers d₀) = none)
    (hlen : rest.find? (HeadLengthDiffers d₀) = none) (hd : d ∈ rest) :
    headWindow d₀ = headWindow d := by
  have hsame := List.find?_eq_none.mp hhead d hd
  have hlength := List.find?_eq_none.mp hlen d hd
  exact eq_headWindow (by simpa [HeadDiffers] using hsame)
    (by simpa [HeadLengthDiffers] using hlength)

theorem tail_branch (hhead : rest.find? (HeadDiffers d₀) = none)
    (hlen : rest.find? (HeadLengthDiffers d₀) = none)
    (h : rest.find? (TailDiffers d₀) = some d) : ∃ summary,
    summarizeSamples toLowercase name ((d₀ :: rest).map sample) = .ok summary ∧
      (Localizes (d₀ :: rest) summary ↔ Quotable toLowercase name d₀ d) := by
  obtain ⟨i, offset, hi, hdiff, hfind⟩ := findSome_zipIdx sample 1 h
  have heads := eq_heads hhead hlen (List.mem_of_find?_eq_some h)
  obtain ⟨hsize, hdiff⟩ : d.length = d₀.length ∧
      firstDiff (tailWindow d₀) (tailWindow d) = some offset := by
    rw [inTail] at hdiff
    split at hdiff
    · cases hdiff
    · next hsize => exact ⟨not_not.mp hsize, hdiff⟩
  obtain ⟨⟨byte₀, byte, hwin₀, hwin, -⟩, -⟩ := FirstDiff.firstDiff_eq_some.mp hdiff
  obtain ⟨hlt, -⟩ := FirstDiff.lt_of_firstDiff hdiff
  have hstart : d₀.length - (tailWindow d₀).length =
      max (d₀.length - tailSampleBytes) headSampleBytes := by
    rw [length_tailWindow] at hlt ⊢
    omega
  have hbyte₀ : d₀[d₀.length - (tailWindow d₀).length + offset]? = some byte₀ := by
    rw [hstart, ← getElem_tailWindow, hwin₀]
  have hbyte : d[d₀.length - (tailWindow d₀).length + offset]? = some byte := by
    rw [hstart, ← hsize, ← getElem_tailWindow, hwin]
  have hfirst : Covered d₀ → Covered d →
      firstDiff d₀ d = some (d₀.length - (tailWindow d₀).length + offset) := by
    intro hcov₀ hcov
    have hhead₀ : d₀.length - (tailWindow d₀).length = (headWindow d₀).length := by
      have := congrArg List.length (windows_of_covered hcov₀)
      rw [List.length_append] at this
      omega
    rw [hhead₀]
    exact firstDiff_of_tail heads hdiff hcov₀ hcov
  obtain ⟨quote, htext, hquote⟩ := textDiff_spec toLowercase name
    (List.getElem?_cons_zero (a := d₀) (l := rest)) (get_other hi) (List.getElem?_eq_some_iff.mp hbyte₀).1
    (List.getElem?_eq_some_iff.mp hbyte).1
  refine ⟨.tailDiff (1 + i) (d₀.length - (tailWindow d₀).length + offset) d₀.length byte₀ byte quote,
    ?_, ?_⟩
  · simp only [summarize_tails toLowercase name hhead hlen, hfind, summarizeTails, sample_tailSample,
      sample_sizeBytes, index_sample hwin₀, index_sample hwin, bind, Except.bind, htext]
    rfl
  · exact localizes_site toLowercase name rfl (by omega) rfl id rfl (get_other hi) hfirst hbyte₀ hbyte hquote

theorem size_branch (hhead : rest.find? (HeadDiffers d₀) = none)
    (hlen : rest.find? (HeadLengthDiffers d₀) = none) (htail : rest.find? (TailDiffers d₀) = none)
    (h : rest.find? (SizeDiffers d₀) = some d) : ∃ summary,
    summarizeSamples toLowercase name ((d₀ :: rest).map sample) = .ok summary ∧
      (Localizes (d₀ :: rest) summary ↔ ¬ (Covered d₀ ∧ Covered d)) := by
  obtain ⟨i, hi, hfind⟩ := find_zipIdx 1 h
  have hothers := (find_sizes d₀ rest).trans (congrArg _ hfind)
  refine ⟨.sizesDiffer (1 + i) (headWindow d₀).length (tailWindow d₀).length d₀.length d.length,
    ?_, ?_, ?_⟩
  · rw [summarize_tails toLowercase name hhead hlen, findSome_zipIdx_none sample 1 htail, summarizeTails, hothers]
    simp only [Option.map_some, sample_headSample, sample_tailSample, sample_sizeBytes]
    rfl
  · rintro ⟨-, hsampled⟩
    exact hsampled d₀ d ⟨rfl, 1 + i, by omega, get_other hi,
      fun _ hnamed => (Option.some.inj hnamed).symm⟩ trivial
  · intro hcov
    have habout : ∀ e₀ e, Summary.About (d₀ :: rest) (.sizesDiffer (1 + i) (headWindow d₀).length
        (tailWindow d₀).length d₀.length d.length) e₀ e →
        ¬ (Covered e₀ ∧ Covered e) := by
      rintro e₀ e ⟨he₀, run, -, he, hnamed⟩
      obtain rfl : d₀ = e₀ := Option.some.inj he₀
      obtain rfl := hnamed (1 + i) rfl
      obtain rfl : d = e := Option.some.inj ((get_other hi).symm.trans he)
      exact hcov
    exact ⟨fun e₀ e _ hab h₀ h _ => absurd ⟨h₀, h⟩ (habout e₀ e hab),
      fun e₀ e hab _ => habout e₀ e hab⟩

theorem equal_branch (hne : rest ≠ []) (hhead : rest.find? (HeadDiffers d₀) = none)
    (hlen : rest.find? (HeadLengthDiffers d₀) = none) (htail : rest.find? (TailDiffers d₀) = none)
    (hsize : rest.find? (SizeDiffers d₀) = none) : ∃ summary,
    summarizeSamples toLowercase name ((d₀ :: rest).map sample) = .ok summary ∧
      (Localizes (d₀ :: rest) summary ↔ ¬ Covered d₀) := by
  have hothers := find_sizes d₀ rest
  rw [find_zipIdx_none 1 hsize, Option.map_none] at hothers
  refine ⟨.sizesEqual (headWindow d₀).length (tailWindow d₀).length d₀.length, ?_, ?_, ?_⟩
  · rw [summarize_tails toLowercase name hhead hlen, findSome_zipIdx_none sample 1 htail, summarizeTails, hothers]
    simp only [sample_headSample, sample_tailSample, sample_sizeBytes]
    rfl
  · rintro ⟨-, hsampled⟩ hcov
    obtain ⟨d, rest, rfl⟩ := List.exists_cons_of_ne_nil hne
    have hd : d.length = d₀.length := by
      simpa [SizeDiffers] using List.find?_eq_none.mp hsize d List.mem_cons_self
    exact hsampled d₀ d ⟨rfl, 1, Nat.one_pos, rfl, fun _ h => by cases h⟩ trivial
      ⟨hcov, by rwa [Covered, hd]⟩
  · intro hcov
    refine ⟨?_, ?_⟩
    · rintro e₀ e _ ⟨he₀, -⟩ h₀
      obtain rfl : d₀ = e₀ := Option.some.inj he₀
      exact absurd h₀ hcov
    · rintro e₀ e ⟨he₀, -⟩ - ⟨h₀, -⟩
      obtain rfl : d₀ = e₀ := Option.some.inj he₀
      exact hcov h₀

end Branches

/-! ### When drift is localized -/

section Drift

variable (toLowercase : Text → Text) (name : Text)

theorem localizes_iff (d₀ d : Bytes) (rest : List Bytes) : ∃ summary,
    summarizeSamples toLowercase name ((d₀ :: d :: rest).map sample) = .ok summary ∧
      (Localizes (d₀ :: d :: rest) summary ↔
        Localizable toLowercase name d₀ (d :: rest)) := by
  cases hhead : (d :: rest).find? (HeadDiffers d₀) with
  | some e =>
    obtain ⟨summary, hsum, hiff⟩ := head_branch toLowercase name hhead
    exact ⟨summary, hsum, by rw [hiff, Localizable, hhead]⟩
  | none =>
    cases hlen : (d :: rest).find? (HeadLengthDiffers d₀) with
    | some e =>
      obtain ⟨summary, hsum, hloc⟩ :=
        length_branch toLowercase name hhead hlen
      have hex : ∃ c ∈ d :: rest, HeadLengthDiffers d₀ c :=
        ⟨e, List.mem_of_find?_eq_some hlen, List.find?_some hlen⟩
      refine ⟨summary, hsum, iff_of_true hloc ?_⟩
      rw [Localizable, hhead]
      exact Or.inl hex
    | none =>
      have hex : ¬ ∃ c ∈ d :: rest, HeadLengthDiffers d₀ c := by
        rintro ⟨c, hc, hdiffers⟩
        exact List.find?_eq_none.mp hlen c hc hdiffers
      cases htail : (d :: rest).find? (TailDiffers d₀) with
      | some e =>
        obtain ⟨summary, hsum, hiff⟩ :=
          tail_branch toLowercase name hhead hlen htail
        refine ⟨summary, hsum, ?_⟩
        simp only [hiff, Localizable, hhead, hex, htail, false_or]
      | none =>
        cases hsize : (d :: rest).find? (SizeDiffers d₀) with
        | some e =>
          obtain ⟨summary, hsum, hiff⟩ :=
            size_branch toLowercase name hhead hlen htail hsize
          refine ⟨summary, hsum, ?_⟩
          simp only [hiff, Localizable, hhead, hex, htail, hsize, false_or]
        | none =>
          obtain ⟨summary, hsum, hiff⟩ := equal_branch toLowercase name
            (List.cons_ne_nil d rest) hhead hlen htail hsize
          refine ⟨summary, hsum, ?_⟩
          simp only [hiff, Localizable, hhead, hex, htail, hsize, false_or]

theorem samples_eq (runs : List (Text → Option Bytes)) :
    (runs.map fun run n => (run n).map sample).filterMap (· name) =
      (runs.filterMap (· name)).map sample := by
  rw [List.filterMap_map, List.map_filterMap]
  rfl

theorem localizable_of_localized {fromUtf8Lossy : Bytes → Text}
    {runs : List (Text → Option Bytes)} {d₀ d : Bytes} {rest : List Bytes}
    (hruns : runs.filterMap (· name) = d₀ :: d :: rest)
    (h : Localized toLowercase name fromUtf8Lossy runs) :
    Localizable toLowercase name d₀ (d :: rest) := by
  obtain ⟨summary, hsum, hiff⟩ :=
    localizes_iff toLowercase name d₀ d rest
  obtain ⟨⟨other, hother, -, hloc⟩, -⟩ := h
  rw [hruns] at hother hloc
  obtain rfl : summary = other := Except.ok.inj (hsum.symm.trans hother)
  exact hiff.mp hloc

/-- Drift between two runs or more is localized if and only if the difference that is reported lies
in the heads or the tails, and at no newline where lines are quoted. -/
theorem localized_iff (fromUtf8Lossy : Bytes → Text)
    (runs : List (Text → Option Bytes)) (d₀ d : Bytes) (rest : List Bytes)
    (hruns : runs.filterMap (· name) = d₀ :: d :: rest) :
    Localized toLowercase name fromUtf8Lossy runs ↔
      Localizable toLowercase name d₀ (d :: rest) := by
  refine ⟨localizable_of_localized toLowercase name hruns, fun hlocalizable => ?_⟩
  obtain ⟨summary, hsum, hiff⟩ :=
    localizes_iff toLowercase name d₀ d rest
  have hmany : ¬ ((d₀ :: d :: rest).map sample).length < 2 := by
    rw [List.length_map, List.length_cons, List.length_cons]
    omega
  simp only [Localized, hruns]
  refine ⟨⟨summary, hsum, ?_, hiff.mpr hlocalizable⟩, ?_⟩
  · rw [summarizeDrift, samples_eq name, hruns]
    simp only [if_neg hmany, hsum]
    rfl
  · intro c _ hcov
    rw [sample_headSample, sample_tailSample, sample_sizeBytes, reconstructFull_windows,
      if_pos hcov]

theorem localized_iff_bytes : Localized id "a.json".toList (fun _ => [])
    [fun _ => some [97], fun _ => none, fun _ => some [98]] := by
  apply (localized_iff id "a.json".toList (fun _ => []) _ [97] [98] [] rfl).mpr
  have hhead : ∀ b : UInt8, headWindow [b] = [b] := fun _ => rfl
  have hfind : [[98]].find? (HeadDiffers [97]) = some [98] := by
    simp [HeadDiffers, hhead, firstDiff]
  rw [Localizable, hfind]
  rintro - - - offset hoffset
  obtain rfl : 0 = offset := Option.some.inj hoffset
  decide

/-- Sizes that differ behind the head hide what is sampled. -/
theorem not_localized_of_sizes {fromUtf8Lossy : Bytes → Text} {n m : ℕ} (b : UInt8)
    (hn : headSampleBytes ≤ n) (hm : headSampleBytes ≤ m) (hne : m ≠ n)
    (hcovn : n ≤ headSampleBytes + tailSampleBytes) (hcovm : m ≤ headSampleBytes + tailSampleBytes) :
    ¬ Localized toLowercase name fromUtf8Lossy
      [fun _ => some (List.replicate n b), fun _ => some (List.replicate m b)] := by
  intro hlocalized
  have hhead : headWindow (List.replicate m b) = headWindow (List.replicate n b) := by
    rw [headWindow, headWindow, List.take_replicate, List.take_replicate, Nat.min_eq_left hn,
      Nat.min_eq_left hm]
  have hruns : [fun _ => some (List.replicate n b), fun _ => some (List.replicate m b)].filterMap
      (fun run : Text → Option Bytes => run name) = [List.replicate n b, List.replicate m b] := rfl
  have hfind : [List.replicate m b].find? (HeadDiffers (List.replicate n b)) = none := by
    simp [HeadDiffers, hhead, FirstDiff.firstDiff_self]
  have hlengths : ¬ ∃ c ∈ [List.replicate m b], HeadLengthDiffers (List.replicate n b) c := by
    simp [HeadLengthDiffers, hhead]
  have htails : [List.replicate m b].find? (TailDiffers (List.replicate n b)) = none := by
    simp [TailDiffers, inTail, hne]
  have hsizes : [List.replicate m b].find? (SizeDiffers (List.replicate n b)) =
      some (List.replicate m b) := by
    simp [SizeDiffers, hne]
  have hlocalizable := localizable_of_localized toLowercase name hruns hlocalized
  simp only [Localizable, hfind, hlengths, htails, hsizes, false_or, Covered,
    List.length_replicate] at hlocalizable
  exact hlocalizable ⟨hcovn, hcovm⟩

/-- Contents of 17 KiB and of 18 KiB are sampled as a whole. -/
theorem not_localized : ¬ Localized id "a.json".toList (fun _ => [])
    [fun _ => some (List.replicate (17 * 1024) 0), fun _ => some (List.replicate (18 * 1024) 0)] :=
  not_localized_of_sizes id _ 0 (by decide) (by decide) (by decide) (by decide) (by decide)

end Drift

end Anodizer.Determinism
