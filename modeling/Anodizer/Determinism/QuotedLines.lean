import Anodizer.Determinism.Drift

/-! # The quoted lines

The line at an offset is read off from the last newline up to the offset to the next one. It contains
the offset, unless a newline stands there.
-/

namespace Anodizer.Determinism

open Checked

variable {bytes : Bytes} {offset n : ℕ} {line : Bytes}

/-- A line contains its bytes and the newline that ends it. -/
def LineAt (bytes : Bytes) (offset n : ℕ) (line : Bytes) : Prop :=
  ∃ p s, bytes = p ++ (line ++ s) ∧ newline ∉ line ∧ (p = [] ∨ p.getLast? = some newline) ∧
    (s = [] ∨ s.head? = some newline) ∧ p.length ≤ offset ∧ offset ≤ p.length + line.length ∧
    n = p.count newline + 1

theorem LineAt.number (h : LineAt bytes offset n line) :
    n = (bytes.take offset).count newline + 1 := by
  obtain ⟨p, s, rfl, hline, -, -, hp, hoffset, rfl⟩ := h
  have htake : (p ++ (line ++ s)).take offset = p ++ line.take (offset - p.length) := by
    rw [List.take_append, List.take_of_length_le hp,
      List.take_append_of_le_length (show offset - p.length ≤ line.length by omega)]
  have hnone : (line.take (offset - p.length)).count newline = 0 :=
    List.count_eq_zero.mpr fun hin => hline (List.mem_of_mem_take hin)
  rw [htake, List.count_append, hnone, Nat.add_zero]

theorem rposition_append (p : UInt8 → Bool) (l : Bytes) (b : UInt8) :
    rposition p (l ++ [b]) = if p b then some l.length else rposition p l := by
  rw [rposition, List.reverse_append, List.reverse_singleton, List.singleton_append,
    List.findIdx?_cons]
  split
  · simp
  · rw [Option.map_map, rposition]
    refine congrArg (Option.map · _) (funext fun i => ?_)
    simp only [Function.comp, List.length_append, List.length_singleton]
    omega

/-- The last newline ends the lines above. -/
theorem rposition_split (l : Bytes) : ∃ p s, l = p ++ s ∧ newline ∉ s ∧
    (p = [] ∨ p.getLast? = some newline) ∧
    ((rposition (· = newline) l).map (· + 1)).getD 0 = p.length := by
  induction l using List.reverseRecOn with
  | nil => exact ⟨[], [], rfl, List.not_mem_nil, Or.inl rfl, rfl⟩
  | append_singleton l b ih =>
    by_cases hb : b = newline
    · refine ⟨l ++ [b], [], (List.append_nil _).symm, List.not_mem_nil, Or.inr ?_, ?_⟩
      · rw [List.getLast?_append, List.getLast?_singleton, hb]
        rfl
      · simp [rposition_append, hb]
    · obtain ⟨p, s, rfl, hs, hp, hpos⟩ := ih
      refine ⟨p, s ++ [b], (List.append_assoc p s [b]), ?_, hp, ?_⟩
      · rw [List.mem_append, List.mem_singleton]
        rintro (hin | rfl)
        · exact hs hin
        · exact hb rfl
      · rw [rposition_append, if_neg (by simpa using hb), hpos]

/-- The next newline ends a line. -/
theorem findIdx_split (k : ℕ) (l : Bytes) : ∃ line s, l = line ++ s ∧ newline ∉ line ∧
    (s = [] ∨ s.head? = some newline) ∧
    ((l.findIdx? (· = newline)).map (k + ·)).getD (k + l.length) = k + line.length := by
  induction l generalizing k with
  | nil => exact ⟨[], [], rfl, List.not_mem_nil, Or.inl rfl, rfl⟩
  | cons b l ih =>
    by_cases hb : b = newline
    · exact ⟨[], b :: l, rfl, List.not_mem_nil, Or.inr (congrArg some hb),
        by simp [hb, List.findIdx?_cons]⟩
    · obtain ⟨line, s, rfl, hline, hs, hpos⟩ := ih (k + 1)
      refine ⟨b :: line, s, rfl, ?_, hs, ?_⟩
      · rw [List.mem_cons]
        rintro (rfl | hin)
        · exact hb rfl
        · exact hline hin
      · have hmap : ((b :: (line ++ s)).findIdx? (· = newline)).map (k + ·) =
            ((line ++ s).findIdx? (· = newline)).map (k + 1 + ·) := by
          rw [List.findIdx?_cons, if_neg (by simpa using hb), Option.map_map]
          refine congrArg (Option.map · _) (funext fun i => ?_)
          simp only [Function.comp]
          omega
        simp only [hmap, List.length_cons] at hpos ⊢
        rw [show k + ((line ++ s).length + 1) = k + 1 + (line ++ s).length by omega, hpos]
        omega

theorem lineAtOffset_split (h : offset < bytes.length) : ∃ p q line s,
    bytes.take (offset + 1) = p ++ q ∧ newline ∉ q ∧ bytes = p ++ (line ++ s) ∧ newline ∉ line ∧
    (p = [] ∨ p.getLast? = some newline) ∧ (s = [] ∨ s.head? = some newline) ∧
    offset + 1 ≤ p.length + line.length ∧
    lineAtOffset bytes offset = .ok (p.count newline + 1, line) := by
  obtain ⟨p, q, htake, hq, hp, hstart⟩ := rposition_split (bytes.take (offset + 1))
  obtain ⟨line, s, hrest, hline, hs, hstop⟩ := findIdx_split p.length (q ++ bytes.drop (offset + 1))
  have hbytes : bytes = p ++ (q ++ bytes.drop (offset + 1)) := by
    rw [← List.append_assoc, ← htake, List.take_append_drop]
  have hlen : p.length + q.length = offset + 1 := by
    have := congrArg List.length htake
    rw [List.length_take, List.length_append] at this
    omega
  have hin : q.length ≤ line.length := by
    obtain ⟨m, rfl, -⟩ | ⟨m, rfl, rfl⟩ := List.append_eq_append_iff.mp hrest
    · rw [List.length_append]
      omega
    · cases m with
      | nil => simp
      | cons b m =>
        obtain hs | hs := hs
        · cases hs
        · obtain rfl : b = newline := by simpa using hs
          exact absurd (by simp) hq
  refine ⟨p, q, line, s, htake, hq, hrest ▸ hbytes, hline, hp, hs, by omega, ?_⟩
  have hclamp : min offset (bytes.length - 1) = offset := by omega
  have hbefore : slice bytes 0 (offset + 1) = .ok (bytes.take (offset + 1)) :=
    slice_of_le (Nat.zero_le _) (by omega)
  have hbehind : slice bytes p.length bytes.length = .ok (line ++ s) := by
    refine slice_of_append (q := []) (by rw [List.append_nil, ← hrest, ← hbytes]) rfl ?_
    rw [← hrest, ← List.length_append, ← hbytes]
  have hlength : p.length + (line ++ s).length = bytes.length := by
    rw [← hrest, ← List.length_append, ← hbytes]
  have habove : slice bytes 0 p.length = .ok p :=
    slice_of_append (p := []) (m := p) (by rw [List.nil_append]; exact hbytes) rfl (Nat.zero_add _)
  have hcut : slice bytes p.length (p.length + line.length) = .ok line :=
    slice_of_append (hrest ▸ hbytes) rfl rfl
  rw [hrest] at hstop
  rw [hlength] at hstop
  simp only [lineAtOffset, hclamp, hbefore, bind, Except.bind, hstart, hbehind, hstop, habove, hcut]
  rfl

/-- The line at an offset contains it if no newline stands there. -/
theorem lineAtOffset_spec (h : offset < bytes.length) : ∃ n line,
    lineAtOffset bytes offset = .ok (n, line) ∧
      (LineAt bytes offset n line ↔ bytes[offset]? ≠ some newline) := by
  obtain ⟨p, q, line, s, htake, hq, hbytes, hline, hp, hs, hoffset, hread⟩ := lineAtOffset_split h
  have hlast : (p ++ q).getLast? = bytes[offset]? := by
    rw [← htake, List.getLast?_eq_getElem?, List.length_take, List.getElem?_take,
      Nat.min_eq_left (by omega), Nat.add_sub_cancel, if_pos (Nat.lt_succ_self _)]
  have hlength : p.length + q.length = offset + 1 := by
    have := congrArg List.length htake
    rw [List.length_take, List.length_append] at this
    omega
  refine ⟨_, _, hread, ?_, ?_⟩
  · intro hat hnewline
    -- behind a newline the lines are counted up to the next one
    have hempty : q = [] := by
      by_contra hne
      rw [List.getLast?_append_of_ne_nil _ hne, hnewline] at hlast
      exact hq (List.mem_of_getLast? hlast)
    have hnumber := hat.number
    rw [hempty, List.append_nil] at htake
    rw [← htake, List.take_add_one, List.count_append, hnewline] at hnumber
    simp at hnumber
  · intro hbyte
    refine ⟨p, s, hbytes, hline, hp, hs, ?_, by omega, rfl⟩
    by_contra hlt
    obtain rfl : q = [] := List.eq_nil_of_length_eq_zero (by omega)
    rw [List.append_nil] at hlast
    obtain rfl | hp := hp
    · simp at hlt
    · exact hbyte (hlast ▸ hp)

end Anodizer.Determinism
