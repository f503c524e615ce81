import Mathlib.Data.Nat.Bitwise
import Mathlib.Data.List.Basic
import Mathlib.Tactic.Common

/-! # Streams of bits

A list of digits of one width is read as a stream of bits, the lowest bit of the first digit first.
Past the last digit all bits are zero.
-/

namespace BitStream

def bit (w : ℕ) (ds : List ℕ) (m : ℕ) : Bool := (ds.getD (m / w) 0).testBit (m % w)

/-- The digit of a width from a place of a stream on. -/
def window (w : ℕ) (f : ℕ → Bool) (start : ℕ) : ℕ := Nat.ofBits fun j : Fin w => f (start + j)

/-- The first digits of a width in a stream. -/
def unpack (w n : ℕ) (f : ℕ → Bool) : List ℕ := (List.range n).map fun i => window w f (w * i)

variable {w n i j m u v x y : ℕ} {ds es : List ℕ} {f : ℕ → Bool}

theorem bit_of_lt (h : j < w) : bit w ds (w * i + j) = (ds.getD i 0).testBit j := by
  have hdiv : (w * i + j) / w = i := by
    rw [Nat.mul_add_div (by omega), Nat.div_eq_of_lt h, Nat.add_zero]
  have hmod : (w * i + j) % w = j := by rw [Nat.mul_add_mod, Nat.mod_eq_of_lt h]
  rw [bit, hdiv, hmod]

theorem bit_eq_false (hw : 0 < w) (h : w * ds.length ≤ m) : bit w ds m = false := by
  have hle : ds.length ≤ m / w := (Nat.le_div_iff_mul_le hw).mpr (by rwa [Nat.mul_comm])
  rw [bit, List.getD_eq_default _ _ hle, Nat.zero_testBit]

/-- A window over a whole digit is the digit. -/
theorem window_bit (h : ds.getD i 0 < 2 ^ w) : window w (bit w ds) (w * i) = ds.getD i 0 := by
  have hbits : (fun j : Fin w => bit w ds (w * i + j)) = fun j : Fin w => (ds.getD i 0).testBit j :=
    funext fun j => bit_of_lt j.isLt
  rw [window, hbits, Nat.ofBits_testBit, Nat.mod_eq_of_lt h]

theorem testBit_window (h : j < w) : (window w f m).testBit j = f (m + j) :=
  Nat.testBit_ofBits_lt _ j h

theorem window_lt : window w f m < 2 ^ w := Nat.ofBits_lt_two_pow _

/-- A number of a width with the bits of a window is the window. -/
theorem eq_window (hx : x < 2 ^ w) (h : ∀ j < w, x.testBit j = f (m + j)) : x = window w f m := by
  apply Nat.eq_of_testBit_eq
  intro j
  by_cases hj : j < w
  · rw [h j hj, testBit_window hj]
  · have hpow : 2 ^ w ≤ 2 ^ j := Nat.pow_le_pow_right (by decide) (Nat.le_of_not_lt hj)
    rw [Nat.testBit_lt_two_pow (hx.trans_le hpow), Nat.testBit_lt_two_pow (window_lt.trans_le hpow)]

@[simp] theorem length_unpack : (unpack w n f).length = n := by
  rw [unpack, List.length_map, List.length_range]

theorem getElem_unpack (h : i < (unpack w n f).length) : (unpack w n f)[i] = window w f (w * i) := by
  simp [unpack]

theorem unpack_congr (h : ∀ m < w * n, f m = bit w ds m) :
    unpack w n f = unpack w n (bit w ds) := by
  apply List.map_congr_left
  intro i hi
  refine congrArg Nat.ofBits (funext fun j => h _ ?_)
  have hmul : w * (i + 1) ≤ w * n := Nat.mul_le_mul_left w (List.mem_range.mp hi)
  rw [Nat.mul_succ] at hmul
  omega

/-- Digits are unpacked from their own stream. -/
theorem unpack_bit (h : ∀ d ∈ ds, d < 2 ^ w) : unpack w ds.length (bit w ds) = ds := by
  apply List.ext_getElem length_unpack
  intro i hi hlen
  have hget : ds.getD i 0 = ds[i] := List.getD_eq_getElem ds 0 hlen
  have hlt : ds.getD i 0 < 2 ^ w := hget ▸ h _ (List.getElem_mem hlen)
  rw [getElem_unpack, window_bit hlt, hget]

/-- Digits of another width spell the stream when each is a window of it. -/
theorem bit_windows (hw : 0 < w) (hf : ∀ m, w * n ≤ m → f m = false) :
    bit w (unpack w n f) m = f m := by
  by_cases hm : m / w < n
  · have hget : (unpack w n f).getD (m / w) 0 = window w f (w * (m / w)) := by
      rw [List.getD_eq_getElem _ _ (by rwa [length_unpack]), getElem_unpack]
    rw [bit, hget, testBit_window (Nat.mod_lt m hw), Nat.div_add_mod]
  · have hle : w * n ≤ m := by
      have := (Nat.le_div_iff_mul_le hw).mp (Nat.le_of_not_lt hm)
      rwa [Nat.mul_comm]
    rw [bit_eq_false hw (by rwa [length_unpack]), hf m hle]

/-- The bits from a place of a digit on, with the bits of the next digit above them. -/
theorem testBit_straddle (hx : x < 2 ^ w) (hv : v ≤ w) :
    (x >>> v ||| y <<< (w - v)).testBit j =
      if v + j < w then x.testBit (v + j) else y.testBit (v + j - w) := by
  rw [Nat.testBit_or, Nat.testBit_shiftRight, Nat.testBit_shiftLeft]
  split_ifs with h
  · have hge : ¬ w - v ≤ j := by omega
    simp [hge]
  · have hpow : 2 ^ w ≤ 2 ^ (v + j) := Nat.pow_le_pow_right (by decide) (Nat.le_of_not_lt h)
    have hge : w - v ≤ j := by omega
    have hsub : j - (w - v) = v + j - w := by omega
    simp [Nat.testBit_lt_two_pow (hx.trans_le hpow), hge, hsub]

/-- A window that is no wider than the digits is taken from two of them. -/
theorem window_straddle (hu : u ≤ w) (hv : v < w) (hd : ds.getD i 0 < 2 ^ w) :
    (ds.getD i 0 >>> v ||| ds.getD (i + 1) 0 <<< (w - v)) % 2 ^ u =
      window u (bit w ds) (w * i + v) := by
  apply eq_window (Nat.mod_lt _ (Nat.two_pow_pos u))
  intro j hj
  rw [Nat.testBit_mod_two_pow, decide_eq_true hj, Bool.true_and, testBit_straddle hd hv.le]
  split_ifs with h
  · rw [Nat.add_assoc, bit_of_lt h]
  · have hplace : w * i + v + j = w * (i + 1) + (v + j - w) := by
      rw [Nat.mul_succ]
      omega
    rw [hplace, bit_of_lt (by omega)]

end BitStream
