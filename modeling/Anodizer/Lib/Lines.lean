import Mathlib.Data.List.Basic
import Mathlib.Data.List.Forall2

/-! # Lines

A text is cut into lines at its newlines. A carriage return before a newline
belongs to the line ending, and an empty text after the last newline is no line.
-/

namespace Lines

def stripCr (l : List Char) : List Char := if l.getLast? = some '\r' then l.dropLast else l

def lines (s : List Char) : List (List Char) :=
  let parts := s.splitOn '\n'
  parts.dropLast.map stripCr ++ parts.getLast?.toList.filter (· ≠ [])

theorem not_mem_of_mem_splitOn {a : Char} {s l : List Char} (h : l ∈ s.splitOn a) : a ∉ l := by
  induction s generalizing l with
  | nil =>
    obtain rfl : l = [] := by simpa using h
    simp
  | cons b s ih =>
    rw [List.splitOn_cons_eq_if_modifyHead] at h
    split at h
    · rcases List.mem_cons.mp h with rfl | h
      · simp
      · exact ih h
    · next hb =>
      obtain ⟨w, ws, hw⟩ := List.exists_cons_of_ne_nil (List.splitOn_ne_nil a s)
      rw [hw, List.modifyHead_cons] at h
      rcases List.mem_cons.mp h with rfl | h
      · have hw' := ih (hw ▸ List.mem_cons_self)
        intro hmem
        rcases List.mem_cons.mp hmem with rfl | hmem
        · simp at hb
        · exact hw' hmem
      · exact ih (hw ▸ List.mem_cons_of_mem _ h)

theorem mem_of_mem_splitOn {c d : Char} {s l : List Char} (hl : l ∈ s.splitOn d)
    (hc : c ∈ l) : c ∈ s := by
  have hs : [d].intercalate (s.splitOn d) = s := List.intercalate_splitOn d
  rw [← hs]
  generalize s.splitOn d = ls at hl
  induction ls with
  | nil => simp at hl
  | cons l' ls ih =>
    cases ls with
    | nil =>
      obtain rfl : l = l' := by simpa using hl
      simpa using hc
    | cons l'' ls =>
      have hcut : [d].intercalate (l' :: l'' :: ls) = l' ++ d :: [d].intercalate (l'' :: ls) := by
        simp [List.intercalate_cons_cons]
      rw [hcut]
      rcases List.mem_cons.mp hl with rfl | hl
      · exact List.mem_append_left _ hc
      · exact List.mem_append_right _ (List.mem_cons_of_mem _ (ih hl))

theorem mem_intercalate {c d : Char} {ls : List (List Char)} (h : c ∈ [d].intercalate ls) :
    c = d ∨ ∃ l ∈ ls, c ∈ l := by
  induction ls with
  | nil => simp at h
  | cons l ls ih =>
    cases ls with
    | nil => exact .inr ⟨l, List.mem_cons_self, by simpa using h⟩
    | cons l' ls =>
      have hcut : [d].intercalate (l :: l' :: ls) = l ++ d :: [d].intercalate (l' :: ls) := by
        simp [List.intercalate_cons_cons]
      rw [hcut] at h
      rcases List.mem_append.mp h with h | h
      · exact .inr ⟨l, List.mem_cons_self, h⟩
      · rcases List.mem_cons.mp h with h | h
        · exact .inl h
        · exact (ih h).imp_right fun ⟨x, hx, hc⟩ => ⟨x, List.mem_cons_of_mem _ hx, hc⟩

/-- A line holds no newline. -/
theorem newline_not_mem {s l : List Char} (h : l ∈ lines s) : '\n' ∉ l := by
  simp only [lines, List.mem_append, List.mem_map, List.mem_filter, Option.mem_toList] at h
  rcases h with ⟨p, hp, rfl⟩ | ⟨hl, -⟩
  · have hn := not_mem_of_mem_splitOn (List.dropLast_subset _ hp)
    unfold stripCr
    split
    · exact fun hm => hn (List.dropLast_subset _ hm)
    · exact hn
  · exact not_mem_of_mem_splitOn (List.mem_of_getLast? hl)

/-! ### Text of lines -/

/-- A line that can be read back: it holds no newline and does not end with a carriage return. -/
def Clean (l : List Char) : Prop := '\n' ∉ l ∧ l.getLast? ≠ some '\r'

theorem stripCr_of_clean {l : List Char} (h : Clean l) : stripCr l = l := if_neg h.2

theorem splitOn_intercalate {ls : List (List Char)} (hne : ls ≠ []) (h : ∀ l ∈ ls, '\n' ∉ l)
    (rest : List Char) :
    (['\n'].intercalate ls ++ '\n' :: rest).splitOn '\n' = ls ++ rest.splitOn '\n' := by
  induction ls with
  | nil => exact absurd rfl hne
  | cons l ls ih =>
    obtain ⟨hl, hls⟩ := List.forall_mem_cons.mp h
    cases ls with
    | nil =>
      rw [List.intercalate_singleton, List.splitOn_append_cons_self,
        List.splitOn_eq_singleton hl]
    | cons l' ls =>
      have hcut : ['\n'].intercalate (l :: l' :: ls) ++ '\n' :: rest =
          l ++ '\n' :: (['\n'].intercalate (l' :: ls) ++ '\n' :: rest) := by
        simp [List.intercalate_cons_cons]
      rw [hcut, List.splitOn_append_cons_self, ih (by simp) hls, List.splitOn_eq_singleton hl]
      rfl

/-- The lines of a text written line by line. -/
theorem lines_intercalate {ls : List (List Char)} (hne : ls ≠ []) (h : ∀ l ∈ ls, Clean l) :
    lines (['\n'].intercalate ls ++ ['\n']) = ls := by
  have hsplit := splitOn_intercalate hne (fun l hl => (h l hl).1) []
  simp only [lines, hsplit, List.splitOn_nil, List.dropLast_concat, List.getLast?_concat,
    Option.toList_some]
  rw [List.map_congr_left fun l hl => stripCr_of_clean (h l hl)]
  simp

/-! ### Text that is put together -/

theorem splitOn_append (s t : List Char) :
    (s ++ '\n' :: t).splitOn '\n' = s.splitOn '\n' ++ t.splitOn '\n' :=
  List.splitOn_append_cons_self s t

theorem intercalate_cons (l : List Char) {ls : List (List Char)} (hne : ls ≠ []) :
    ['\n'].intercalate (l :: ls) = l ++ '\n' :: ['\n'].intercalate ls := by
  obtain ⟨l', ls, rfl⟩ := List.exists_cons_of_ne_nil hne
  simp [List.intercalate_cons_cons]

theorem intercalate_append {ls ls' : List (List Char)} (hne : ls ≠ []) (hne' : ls' ≠ []) :
    ['\n'].intercalate (ls ++ ls') =
      ['\n'].intercalate ls ++ '\n' :: ['\n'].intercalate ls' := by
  induction ls with
  | nil => exact absurd rfl hne
  | cons l ls ih =>
    by_cases hls : ls = []
    · rw [hls, List.intercalate_singleton, List.singleton_append, intercalate_cons l hne']
    · rw [List.cons_append, intercalate_cons l (by simp [hls]), ih hls, intercalate_cons l hls]
      simp

/-- The parts of a text that is written line by line, whatever the lines hold. -/
theorem splitOn_join {ls : List (List Char)} (hne : ls ≠ []) :
    (['\n'].intercalate ls).splitOn '\n' = ls.flatMap (·.splitOn '\n') := by
  induction ls with
  | nil => exact absurd rfl hne
  | cons l ls ih =>
    by_cases hls : ls = []
    · rw [hls, List.intercalate_singleton, List.flatMap_singleton]
    · rw [intercalate_cons l hls, splitOn_append, ih hls, List.flatMap_cons]

theorem lines_append (s t : List Char) :
    lines (s ++ '\n' :: t) = (s.splitOn '\n').map stripCr ++ lines t := by
  have hne := List.splitOn_ne_nil '\n' t
  simp only [lines, splitOn_append]
  rw [List.dropLast_append_of_ne_nil hne, List.getLast?_append_of_ne_nil _ hne, List.map_append,
    List.append_assoc]

/-- A property of lines that carriage returns do not change is read off the parts of the text. -/
theorem any_lines {p : List Char → Bool} (hcr : ∀ l, p (stripCr l) = p l) (hnil : p [] = false)
    (s : List Char) : (lines s).any p = (s.splitOn '\n').any p := by
  obtain ⟨init, last, heq⟩ := (List.eq_nil_or_concat (s.splitOn '\n')).resolve_left
    (List.splitOn_ne_nil _ _)
  rw [List.concat_eq_append] at heq
  have hmap : (init.map stripCr).any p = init.any p := by
    rw [List.any_map]
    exact congrArg _ (funext hcr)
  simp only [lines, heq, List.dropLast_concat, List.getLast?_concat, Option.toList_some,
    List.any_append, hmap]
  congr 1
  cases last with
  | nil => simp [hnil]
  | cons c last => rfl

/-- A text that starts within a line. -/
theorem splitOn_within {s : List Char} (hs : '\n' ∉ s) (t : List Char) :
    (s ++ t).splitOn '\n' = (t.splitOn '\n').modifyHead (s ++ ·) := by
  induction s with
  | nil => exact (congrFun List.modifyHead_id _).symm
  | cons c s ih =>
    rw [List.mem_cons, not_or] at hs
    rw [List.cons_append, List.splitOn_cons_eq_if_modifyHead, if_neg (by simpa using Ne.symm hs.1),
      ih hs.2, List.modifyHead_modifyHead]
    rfl

/-- The first line of a text starts as the text does. -/
theorem lines_within {s : List Char} (hs : '\n' ∉ s) (hne : s ≠ []) (t : List Char) :
    ∃ t₁ line rest, lines (s ++ t) = line :: rest ∧
      (line = s ++ t₁ ∨ line = stripCr (s ++ t₁)) := by
  obtain ⟨t₁, parts, hparts⟩ := List.exists_cons_of_ne_nil (List.splitOn_ne_nil '\n' t)
  have hsplit : (s ++ t).splitOn '\n' = (s ++ t₁) :: parts := by
    rw [splitOn_within hs, hparts, List.modifyHead_cons]
  cases parts with
  | nil => exact ⟨t₁, s ++ t₁, [], by simp [lines, hsplit, hne], .inl rfl⟩
  | cons part parts => exact ⟨t₁, _, _, by simp [lines, hsplit]; rfl, .inr rfl⟩

theorem any_join {p : List Char → Bool} (hnil : p [] = false) {ls : List (List Char)}
    {e : List Char} (he : e = [] ∨ e = ['\n']) :
    ((['\n'].intercalate ls ++ e).splitOn '\n').any p =
      ls.any fun l => (l.splitOn '\n').any p := by
  have hjoin : ((['\n'].intercalate ls).splitOn '\n').any p =
      ls.any fun l => (l.splitOn '\n').any p := by
    by_cases hls : ls = []
    · simp [hls, hnil]
    · rw [splitOn_join hls, List.any_flatMap]
  rcases he with rfl | rfl
  · rw [List.append_nil, hjoin]
  · rw [splitOn_append, List.any_append, hjoin]
    simp [hnil]

/-! ### Lines as they are spelled -/

/-- The lines of a text with the carriage returns of their endings. -/
def spelled (s : List Char) : List (List Char) :=
  let parts := s.splitOn '\n'
  parts.dropLast ++ parts.getLast?.toList.filter (· ≠ [])

/-- The newline at the end of a text. -/
def ending (s : List Char) : List Char := if s.getLast? = some '\n' then ['\n'] else []

theorem splitOn_eq (s : List Char) : ∃ init last, s.splitOn '\n' = init ++ [last] ∧
    s = ['\n'].intercalate (init ++ [last]) := by
  obtain ⟨init, last, heq⟩ := (List.eq_nil_or_concat (s.splitOn '\n')).resolve_left
    (List.splitOn_ne_nil _ _)
  rw [List.concat_eq_append] at heq
  exact ⟨init, last, heq, by rw [← heq, List.intercalate_splitOn]⟩

theorem ending_of_last {init : List (List Char)} {last : List Char} (hlast : '\n' ∉ last) :
    ending (['\n'].intercalate (init ++ [last])) =
      if last = [] ∧ init ≠ [] then ['\n'] else [] := by
  rw [ending]
  by_cases hinit : init = []
  · subst hinit
    have hne : last.getLast? ≠ some '\n' := fun h => hlast (List.mem_of_getLast? h)
    simp [hne]
  · rw [intercalate_append hinit (by simp), List.intercalate_singleton]
    cases last with
    | nil => simp [hinit]
    | cons c last =>
      have hne : (c :: last).getLast? ≠ some '\n' := fun h => hlast (List.mem_of_getLast? h)
      rw [List.getLast?_append_of_ne_nil _ (by simp), List.getLast?_cons_cons, if_neg hne]
      simp

/-- A text is its lines as they are spelled. -/
theorem join_spelled (s : List Char) : ['\n'].intercalate (spelled s) ++ ending s = s := by
  obtain ⟨init, last, heq, hs⟩ := splitOn_eq s
  have hlast : '\n' ∉ last := not_mem_of_mem_splitOn (s := s) (by rw [heq]; simp)
  have hending := @ending_of_last init _ hlast
  rw [← hs] at hending
  simp only [spelled, heq, List.dropLast_concat, List.getLast?_concat, Option.toList_some, hending]
  by_cases hnil : last = []
  · subst hnil
    by_cases hinit : init = []
    · subst hinit
      simpa using hs.symm
    · rw [if_pos ⟨rfl, hinit⟩]
      conv_rhs => rw [hs, intercalate_append hinit (by simp)]
      simp
  · rw [if_neg (fun h => hnil h.1), hs]
    simp [hnil]

theorem lines_spelled (s : List Char) :
    List.Forall₂ (fun raw line => line = raw ∨ line = stripCr raw) (spelled s) (lines s) := by
  rw [spelled, lines]
  refine List.rel_append ?_ (List.forall₂_same.mpr fun _ _ => .inl rfl)
  rw [List.forall₂_map_right_iff]
  exact List.forall₂_same.mpr fun _ _ => .inr rfl

/-! ### Counting newlines -/

theorem length_splitOn (s : List Char) : (s.splitOn '\n').length = s.count '\n' + 1 := by
  induction s with
  | nil => rfl
  | cons c s ih =>
    rw [List.splitOn_cons_eq_if_modifyHead]
    by_cases hc : c = '\n'
    · subst hc
      simp [ih]
    · rw [if_neg (by simpa using hc), List.length_modifyHead, ih, List.count_cons_of_ne hc]

theorem count_le_length_lines (s : List Char) : s.count '\n' ≤ (lines s).length := by
  have hlength := length_splitOn s
  simp only [lines, List.length_append, List.length_map, List.length_dropLast]
  omega

theorem length_lines {s : List Char} (hs : s ≠ []) :
    (lines s).length + (ending s).length = s.count '\n' + 1 := by
  obtain ⟨init, last, heq, hjoin⟩ := splitOn_eq s
  have hlast : '\n' ∉ last := not_mem_of_mem_splitOn (s := s) (by rw [heq]; simp)
  have hending := @ending_of_last init _ hlast
  rw [← hjoin] at hending
  have hlength := length_splitOn s
  rw [heq, List.length_append, List.length_singleton] at hlength
  simp only [lines, heq, hending, List.dropLast_concat, List.getLast?_concat, Option.toList_some,
    List.length_append, List.length_map]
  by_cases hnil : last = []
  · have hinit : init ≠ [] := by
      rintro rfl
      exact hs (by simpa [hnil] using hjoin)
    simp [hnil, hinit, hlength]
  · simp [hnil, hlength]

theorem length_le_count_join (ls : List (List Char)) :
    ls.length ≤ (['\n'].intercalate ls).count '\n' + 1 := by
  induction ls with
  | nil => exact Nat.zero_le _
  | cons l ls ih =>
    by_cases hls : ls = []
    · rw [hls, List.length_singleton]
      exact Nat.le_add_left 1 _
    · rw [intercalate_cons l hls, List.count_append, List.count_cons_self, List.length_cons]
      omega

end Lines
