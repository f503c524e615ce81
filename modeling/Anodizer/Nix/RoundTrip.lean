import Anodizer.Nix.Hashing

/-! # Hashes read back

A hash of 64 hexadecimal digits is encoded, and its encoding is read back. The decoder takes a plus
sign for a digit as well, and it slices into characters of several bytes.
-/

namespace Anodizer.Nix

open BitStream (bit window unpack)
open Checked
open Template (Text)
open VerifyRelease (Stop checked toDigit)

def IsHex (c : Char) : Prop := (toDigit c).isSome

instance (c : Char) : Decidable (IsHex c) := by unfold IsHex; infer_instance

/-- 64 hexadecimal digits. -/
def IsHash (s : Text) : Prop := s.length = 64 ∧ ∀ c ∈ s, IsHex c

def digitValue (c : Char) : ℕ := (toDigit c).getD 0

/-- The bytes that pairs of digits spell. -/
def spelled : Text → List ℕ
  | c :: d :: t => (16 * digitValue c + digitValue d) :: spelled t
  | _ => []

/-- The digits of an encoding, the last character first. -/
def digitsOf (out : Text) : List ℕ := out.reverse.map nixAlphabet.idxOf

/-! ### Texts in pairs -/

/-- A number of two characters has a digit or a plus sign in front of a digit. -/
def Pair (c d : Char) : Prop := (IsHex c ∨ c = '+') ∧ IsHex d

def Pairs : Text → Prop
  | [] => True
  | [_] => False
  | c :: d :: t => Pair c d ∧ Pairs t

instance (c d : Char) : Decidable (Pair c d) := by unfold Pair; infer_instance

instance decidablePairs : ∀ s : Text, Decidable (Pairs s)
  | [] => isTrue trivial
  | [_] => isFalse id
  | c :: d :: t =>
    have := decidablePairs t
    inferInstanceAs (Decidable (Pair c d ∧ Pairs t))

/-- Behind numbers of two characters, a slice of two bytes ends inside of a character. -/
def Straddles : Text → Prop
  | [] => False
  | [c] => 2 < c.utf8Size
  | c :: d :: t => 2 < c.utf8Size ∨ c.utf8Size = 1 ∧ 1 < d.utf8Size ∨ Pair c d ∧ Straddles t

variable {c d : Char} {s t p out : Text} {n : ℕ} {bytes : List UInt8}

/-! ### Numbers of one piece -/

theorem toDigit_lt {x : ℕ} (h : toDigit c = some x) : x < 16 := by
  rw [toDigit] at h
  split_ifs at h with hd hl hu
  · have := (Char.isDigit_iff_toNat.mp hd).2
    have hx := Option.some.inj h
    simp only [Char.reduceToNat] at hx this
    omega
  · have hle : c.toNat ≤ 'f'.toNat := hl.2
    have hx := Option.some.inj h
    simp only [Char.reduceToNat] at hx hle
    omega
  · have hle : c.toNat ≤ 'F'.toNat := hu.2
    have hx := Option.some.inj h
    simp only [Char.reduceToNat] at hx hle
    omega

theorem IsHex.ascii (h : IsHex c) : c.toNat < 128 := by
  obtain ⟨x, hx⟩ := Option.isSome_iff_exists.mp h
  rw [toDigit] at hx
  split_ifs at hx with hd hl hu
  · exact Nat.lt_of_le_of_lt (Char.isDigit_iff_toNat.mp hd).2 (by decide)
  · exact Nat.lt_of_le_of_lt (show c.toNat ≤ 'f'.toNat from hl.2) (by decide)
  · exact Nat.lt_of_le_of_lt (show c.toNat ≤ 'F'.toNat from hu.2) (by decide)

theorem utf8Size_of_lt (h : c.toNat < 128) : c.utf8Size = 1 :=
  Char.utf8Size_eq_one_iff.mpr (UInt32.le_iff_toNat_le.mpr (Nat.le_of_lt_succ h))

theorem IsHex.ne_plus (h : IsHex c) : c ≠ '+' := by
  rintro rfl
  exact absurd h (by decide)

theorem Pair.ascii (h : Pair c d) : c.toNat < 128 ∧ d.toNat < 128 :=
  ⟨h.1.elim IsHex.ascii fun hc => by rw [hc]; decide, h.2.ascii⟩

theorem digitValue_lt (c : Char) : digitValue c < 16 := by
  cases h : toDigit c with
  | none => rw [digitValue, h]; decide
  | some x => rw [digitValue, h]; exact toDigit_lt h

theorem pushDigit_hex (hn : n < 16) (h : IsHex c) : pushDigit n c = .ok (16 * n + digitValue c) := by
  obtain ⟨x, hx⟩ := Option.isSome_iff_exists.mp h
  have hlt := toDigit_lt hx
  have hsum : 16 * n + x < 2 ^ 8 := by omega
  rw [pushDigit, hx, digitValue, hx]
  exact if_pos hsum

theorem pushDigit_of_not (h : ¬ IsHex c) : pushDigit n c = .error invalidDigit := by
  have hnone : toDigit c = none := by simpa [IsHex] using h
  rw [pushDigit, hnone]

theorem fromStrRadix_single (h : ¬ IsHex c) : fromStrRadix [c] = .error invalidDigit := by
  by_cases hplus : c = '+'
  · rw [hplus]
    rfl
  · have hne : [c] ≠ ['+'] := fun heq => hplus (List.head_eq_of_cons_eq heq)
    have hhead : ¬ [c].head? = some '+' := fun heq => hplus (Option.some.inj heq)
    rw [fromStrRadix, if_neg (List.cons_ne_nil c []), if_neg hne, if_neg hhead, List.foldlM_cons,
      pushDigit_of_not h]
    rfl

/-- A piece of two characters is a number or its digits are invalid. -/
theorem fromStrRadix_pair (c d : Char) :
    (Pair c d → fromStrRadix [c, d] = .ok (UInt8.ofNat (16 * digitValue c + digitValue d))) ∧
      (¬ Pair c d → fromStrRadix [c, d] = .error invalidDigit) := by
  have hne : [c, d] ≠ ['+'] := by simp
  by_cases hplus : c = '+'
  · subst hplus
    have hread : fromStrRadix ['+', d] = (pushDigit 0 d >>= fun n => .ok n).map UInt8.ofNat := by
      rw [fromStrRadix, if_neg (List.cons_ne_nil _ _), if_neg hne]
      rfl
    rw [hread]
    constructor
    · intro h
      rw [pushDigit_hex (by decide) h.2]
      rfl
    · intro h
      rw [pushDigit_of_not fun hd => h ⟨.inr rfl, hd⟩]
      rfl
  · have hhead : ¬ [c, d].head? = some '+' := fun heq => hplus (Option.some.inj heq)
    have hread : fromStrRadix [c, d] =
        (pushDigit 0 c >>= fun n => pushDigit n d >>= fun n => .ok n).map UInt8.ofNat := by
      rw [fromStrRadix, if_neg (List.cons_ne_nil _ _), if_neg hne, if_neg hhead]
      rfl
    rw [hread]
    by_cases hc : IsHex c
    · have hnext : (pushDigit 0 c >>= fun n => pushDigit n d >>= fun n => .ok n) =
          (pushDigit (digitValue c) d >>= fun n => .ok n) := by
        rw [pushDigit_hex (by decide) hc, Nat.mul_zero, Nat.zero_add]
        rfl
      rw [hnext]
      constructor
      · intro h
        rw [pushDigit_hex (digitValue_lt c) h.2]
        rfl
      · intro h
        rw [pushDigit_of_not fun hd => h ⟨.inl hc, hd⟩]
        rfl
    · rw [pushDigit_of_not hc]
      exact ⟨fun h => absurd h.1 (by simp [hc, hplus]), fun _ => rfl⟩

/-! ### The decoder -/

/-- A piece behind a text is read from the rest. -/
theorem hexPiece_append (h : (Utf8.encode p).length = n) : hexPiece (p ++ t) n =
    match Utf8.cutAt t 2 with
    | none => .error (.fault .outOfBounds)
    | some piece => (fromStrRadix piece).mapError fun e =>
        .failed ("nix: invalid hex at offset ".toList ++ Nat.toDigits 10 n ++ ": ".toList ++ e) := by
  rw [hexPiece, Utf8.range_append h]
  cases Utf8.cutAt t 2 <;> rfl

theorem cutAt_pair (hc : c.utf8Size = 1) (hd : d.utf8Size = 1) :
    Utf8.cutAt (c :: d :: t) 2 = some [c, d] := by
  rw [Utf8.cutAt_cons (by omega), hc, Utf8.cutAt_cons (by omega), hd]
  cases t <;> rfl

/-- A piece that is not a number of two characters is no number, or it is cut inside of one. -/
theorem cutAt_not_pair (h : ¬ Pair c d) : Utf8.cutAt (c :: d :: t) 2 = none ∧ (2 < c.utf8Size ∨
      c.utf8Size = 1 ∧ 1 < d.utf8Size) ∨
    ¬ (2 < c.utf8Size ∨ c.utf8Size = 1 ∧ 1 < d.utf8Size) ∧
      ∃ piece, Utf8.cutAt (c :: d :: t) 2 = some piece ∧
        fromStrRadix piece = .error invalidDigit := by
  have hcpos := c.utf8Size_pos
  have hdpos := d.utf8Size_pos
  obtain hc | hc | hc : c.utf8Size = 1 ∨ c.utf8Size = 2 ∨ 2 < c.utf8Size := by omega
  · by_cases hd : d.utf8Size = 1
    · right
      exact ⟨by omega, [c, d], cutAt_pair hc hd, (fromStrRadix_pair c d).2 h⟩
    · left
      refine ⟨?_, .inr ⟨hc, by omega⟩⟩
      rw [Utf8.cutAt_cons (by omega), hc, Utf8.cutAt_cons_of_lt (by decide) (by omega)]
      rfl
  · right
    refine ⟨by omega, [c], ?_, fromStrRadix_single fun hhex => ?_⟩
    · rw [Utf8.cutAt_cons (by omega), hc]
      rfl
    · have := utf8Size_of_lt hhex.ascii
      omega
  · exact .inl ⟨Utf8.cutAt_cons_of_lt (by decide) hc, .inl hc⟩

/-- The pieces of the rest of a text: they are all numbers, or one of them is cut inside of a
character, or one is no number. -/
theorem mapM_hexPiece (hp : (Utf8.encode p).length = n) {k : ℕ}
    (ht : (Utf8.encode t).length = 2 * k) :
    (Pairs t → (List.range' n k 2).mapM (hexPiece (p ++ t)) = .ok ((spelled t).map UInt8.ofNat)) ∧
      (Straddles t → (List.range' n k 2).mapM (hexPiece (p ++ t)) =
        .error (.fault .outOfBounds)) ∧
      (¬ Pairs t → ¬ Straddles t →
        ∃ e, (List.range' n k 2).mapM (hexPiece (p ++ t)) = .error (.failed e)) := by
  induction t using Pairs.induct generalizing p n k with
  | case1 =>
    obtain rfl : k = 0 := by
      rw [Utf8.encode, List.flatMap_nil, List.length_nil] at ht
      omega
    exact ⟨fun _ => rfl, False.elim, fun h => absurd trivial h⟩
  | case2 c =>
    have hsize : c.utf8Size = 2 * k := by
      rw [← ht, Utf8.length_encode_cons]
      rfl
    obtain ⟨j, rfl⟩ := Nat.exists_eq_succ_of_ne_zero
      (show k ≠ 0 by have := c.utf8Size_pos; omega)
    refine ⟨False.elim, fun h => ?_, fun _ h => ?_⟩
    · have hcut : Utf8.cutAt [c] 2 = none := Utf8.cutAt_cons_of_lt (by decide) h
      rw [List.range'_succ, List.mapM_cons, hexPiece_append hp, hcut]
      rfl
    · have htwo : c.utf8Size = 2 := by
        have hle : ¬ 2 < c.utf8Size := h
        omega
      have hcut : Utf8.cutAt [c] 2 = some [c] := by
        rw [Utf8.cutAt_cons (by omega), htwo]
        rfl
      have hhex : ¬ IsHex c := fun hhex => by
        have := utf8Size_of_lt hhex.ascii
        omega
      rw [List.range'_succ, List.mapM_cons, hexPiece_append hp, hcut]
      simp only [fromStrRadix_single hhex]
      exact ⟨_, rfl⟩
  | case3 c d t ih =>
    have hsize : c.utf8Size + (d.utf8Size + (Utf8.encode t).length) = 2 * k := by
      rw [← ht, Utf8.length_encode_cons, Utf8.length_encode_cons]
    have hcpos := c.utf8Size_pos
    obtain ⟨j, rfl⟩ := Nat.exists_eq_succ_of_ne_zero (show k ≠ 0 by omega)
    rw [List.range'_succ, List.mapM_cons, hexPiece_append hp]
    by_cases hpair : Pair c d
    · have hc := utf8Size_of_lt hpair.ascii.1
      have hd := utf8Size_of_lt hpair.ascii.2
      have hp' : (Utf8.encode (p ++ [c, d])).length = n + 2 := by
        rw [Utf8.encode_append, List.length_append, hp, Utf8.length_encode_cons,
          Utf8.length_encode_cons, hc, hd]
        rfl
      have hrest := ih hp' (k := j) (by omega)
      rw [List.append_assoc, List.cons_append, List.cons_append, List.nil_append] at hrest
      obtain ⟨hok, hfault, hfail⟩ := hrest
      simp only [cutAt_pair hc hd, (fromStrRadix_pair c d).1 hpair]
      have hone : ¬ (2 < c.utf8Size ∨ c.utf8Size = 1 ∧ 1 < d.utf8Size) := by omega
      refine ⟨fun h => ?_, fun h => ?_, fun h hs => ?_⟩
      · rw [hok h.2]
        rfl
      · have hs : Straddles t := by
          rcases h with h | h | h
          · omega
          · omega
          · exact h.2
        rw [hfault hs]
        rfl
      · obtain ⟨e, he⟩ := hfail (fun ht => h ⟨hpair, ht⟩) fun ht => hs (.inr (.inr ⟨hpair, ht⟩))
        rw [he]
        exact ⟨e, rfl⟩
    · refine ⟨fun h => absurd h.1 hpair, fun h => ?_, fun _ hs => ?_⟩
      · rcases cutAt_not_pair hpair (t := t) with ⟨hcut, -⟩ | ⟨hone, -⟩
        · rw [hcut]
          rfl
        · rcases h with h | h | h
          · exact absurd (.inl h) hone
          · exact absurd (.inr h) hone
          · exact absurd h.1 hpair
      · rcases cutAt_not_pair hpair (t := t) with ⟨-, hone⟩ | ⟨-, piece, hcut, hread⟩
        · exact absurd (hone.imp_right .inl) hs
        · simp only [hcut, hread]
          exact ⟨_, rfl⟩

theorem Pairs.length (h : Pairs s) :
    s.length = 2 * (spelled s).length ∧ (Utf8.encode s).length = 2 * (spelled s).length := by
  induction s using Pairs.induct with
  | case1 => exact ⟨rfl, rfl⟩
  | case2 c => exact h.elim
  | case3 c d t ih =>
    obtain ⟨hlen, hbytes⟩ := ih h.2
    have hc := utf8Size_of_lt h.1.ascii.1
    have hd := utf8Size_of_lt h.1.ascii.2
    rw [spelled, Utf8.length_encode_cons, Utf8.length_encode_cons]
    simp only [List.length_cons]
    omega

theorem hexToBytes_eq (h : (Utf8.encode s).length % 2 = 0) : hexToBytes s =
    (List.range' 0 ((Utf8.encode s).length / 2) 2).mapM (hexPiece s) := if_neg (not_not.mpr h)

theorem length_eq_two_mul (h : (Utf8.encode s).length % 2 = 0) :
    (Utf8.encode s).length = 2 * ((Utf8.encode s).length / 2) := by omega

theorem hexToBytes_pairs (h : Pairs s) : hexToBytes s = .ok ((spelled s).map UInt8.ofNat) := by
  have heven : (Utf8.encode s).length % 2 = 0 := by
    have := h.length.2
    omega
  rw [hexToBytes_eq heven]
  exact (mapM_hexPiece (p := []) rfl (length_eq_two_mul heven)).1 h

theorem hexToBytes_straddles (heven : (Utf8.encode s).length % 2 = 0) (h : Straddles s) :
    hexToBytes s = .error (.fault .outOfBounds) := by
  rw [hexToBytes_eq heven]
  exact (mapM_hexPiece (p := []) rfl (length_eq_two_mul heven)).2.1 h

theorem hexToBytes_failed (h : ¬ Pairs s)
    (hs : ¬ ((Utf8.encode s).length % 2 = 0 ∧ Straddles s)) :
    ∃ e, hexToBytes s = .error (.failed e) := by
  by_cases heven : (Utf8.encode s).length % 2 = 0
  · rw [hexToBytes_eq heven]
    exact (mapM_hexPiece (p := []) rfl (length_eq_two_mul heven)).2.2 h fun ht => hs ⟨heven, ht⟩
  · exact ⟨_, if_pos heven⟩

/-! ### The encoder -/

/-- The bits of bytes, the lowest one of the first byte first. -/
def bits (bytes : List UInt8) : ℕ → Bool := bit 8 (bytes.map UInt8.toNat)

def symbol (d : ℕ) : Char := nixAlphabet.getD d '0'

theorem getD_toNat (bytes : List UInt8) (i : ℕ) :
    (bytes.map UInt8.toNat).getD i 0 = (bytes.getD i 0).toNat :=
  List.getD_map bytes 0 UInt8.toNat

theorem toNat_shifted (b : UInt8) {j : ℕ} (h : j < 8) :
    (b.toUInt16 >>> UInt16.ofNat j).toNat = b.toNat >>> j := by
  have hj : j % 2 ^ 16 % 16 = j := by omega
  rw [UInt16.toNat_shiftRight, UInt16.toNat_ofNat', UInt8.toNat_toUInt16, hj]

theorem toNat_next (b : UInt8) {j : ℕ} (h : j < 8) :
    (b.toUInt16 <<< UInt16.ofNat (8 - j)).toNat = b.toNat <<< (8 - j) := by
  have hj : (8 - j) % 2 ^ 16 % 16 = 8 - j := by omega
  have hlt : b.toNat <<< (8 - j) < 2 ^ 16 := by
    rw [Nat.shiftLeft_eq]
    calc b.toNat * 2 ^ (8 - j) < 2 ^ 8 * 2 ^ (8 - j) :=
          Nat.mul_lt_mul_of_pos_right b.toNat_lt (Nat.two_pow_pos _)
      _ ≤ 2 ^ 8 * 2 ^ 8 := Nat.mul_le_mul_left _ (Nat.pow_le_pow_right (by decide) (by omega))
      _ = 2 ^ 16 := rfl
  rw [UInt16.toNat_shiftLeft, UInt16.toNat_ofNat', UInt8.toNat_toUInt16, hj, Nat.mod_eq_of_lt hlt]

theorem toNat_lowFive (c : UInt16) : (c.toUInt8 &&& 0x1f).toNat = c.toNat % 2 ^ 5 := by
  have hand := Nat.and_two_pow_sub_one_eq_mod (c.toNat % 2 ^ 8) 5
  rw [UInt8.toNat_and, UInt16.toNat_toUInt8]
  exact hand.trans (Nat.mod_mod_of_dvd _ ⟨8, rfl⟩)

/-- Each digit is a window of five bits. -/
theorem nixDigit_eq (h : 5 * n < 8 * bytes.length) :
    ∃ d, nixDigit bytes n = .ok d ∧ d.toNat = window 5 (bits bytes) (5 * n) := by
  have hi : n * 5 / 8 < bytes.length := by omega
  have hj : n * 5 % 8 < 8 := Nat.mod_lt _ (by decide)
  have hplace : 5 * n = 8 * (n * 5 / 8) + n * 5 % 8 := by omega
  have hlt : (bytes.map UInt8.toNat).getD (n * 5 / 8) 0 < 2 ^ 8 := by
    rw [getD_toNat]
    exact UInt8.toNat_lt _
  have hwindow := BitStream.window_straddle (u := 5) (by decide) hj hlt
  rw [← hplace, getD_toNat, getD_toNat, List.getD_eq_getElem _ _ hi] at hwindow
  by_cases hlast : bytes.length - 1 ≤ n * 5 / 8
  · refine ⟨(bytes[n * 5 / 8].toUInt16 >>> UInt16.ofNat (n * 5 % 8)).toUInt8 &&& 0x1f, ?_, ?_⟩
    · simp only [nixDigit, index_of_lt hi, if_pos hlast]
      rfl
    · have hpast : bytes.getD (n * 5 / 8 + 1) 0 = 0 := List.getD_eq_default _ _ (by omega)
      rw [hpast, UInt8.toNat_zero, Nat.zero_shiftLeft, Nat.or_zero] at hwindow
      rw [toNat_lowFive, toNat_shifted _ hj, hwindow]
      rfl
  · have hnext : n * 5 / 8 + 1 < bytes.length := by omega
    refine ⟨(bytes[n * 5 / 8].toUInt16 >>> UInt16.ofNat (n * 5 % 8) |||
      bytes[n * 5 / 8 + 1].toUInt16 <<< UInt16.ofNat (8 - n * 5 % 8)).toUInt8 &&& 0x1f, ?_, ?_⟩
    · simp only [nixDigit, index_of_lt hi, index_of_lt hnext, if_neg hlast]
      rfl
    · rw [List.getD_eq_getElem _ _ hnext] at hwindow
      rw [toNat_lowFive, UInt16.toNat_or, toNat_shifted _ hj, toNat_next _ hj, hwindow]
      rfl

/-- The characters are written from the last place down. -/
theorem encodeLoop_eq {len : ℕ} {at' : ℕ → UInt8} {out : List UInt8}
    (h : ∀ m < len, ∃ d, nixDigit bytes m = .ok d ∧ index nixBase32Chars d.toNat = .ok (at' m))
    (hn : n ≤ len) (hout : out.length = len) : encodeLoop bytes len n out =
      .ok (out.take (len - n) ++ (List.range n).reverse.map at') := by
  induction n generalizing out with
  | zero =>
    rw [encodeLoop, Nat.sub_zero, ← hout, List.take_length]
    simp
  | succ n ih =>
    obtain ⟨d, hd, hsymbol⟩ := h n hn
    have hplace : len - 1 - n = len - (n + 1) := by omega
    have htake : (out.set (len - (n + 1)) (at' n)).take (len - n) =
        out.take (len - (n + 1)) ++ [at' n] := by
      have hsucc : len - n = len - (n + 1) + 1 := by omega
      have hlt : len - (n + 1) < (out.set (len - (n + 1)) (at' n)).length := by
        rw [List.length_set]
        omega
      rw [hsucc, List.take_succ_eq_append_getElem hlt, List.take_set_of_le (Nat.le_refl _),
        List.getElem_set_self]
    have hloop : encodeLoop bytes len (n + 1) out =
        encodeLoop bytes len n (out.set (len - 1 - n) (at' n)) := by
      rw [encodeLoop, hd]
      exact congrArg (· >>= fun c => encodeLoop bytes len n (out.set (len - 1 - n) c)) hsymbol
    rw [hloop, ih (Nat.le_of_succ_le hn) (by rw [List.length_set, hout]), hplace, htake,
      List.append_assoc, List.range_succ, List.reverse_append]
    rfl

theorem nixAlphabet_ascii : Utf8.Ascii nixAlphabet := Utf8.ascii_of_all (by decide)

theorem idxOf_symbol : ∀ d < 32, nixAlphabet.idxOf (symbol d) = d := by decide

theorem symbol_mem : ∀ d < 32, symbol d ∈ nixAlphabet := by decide

/-- An encoding has a character for each window of five bits, the last one first. -/
def encoding (bytes : List UInt8) (len : ℕ) : Text :=
  ((unpack 5 len (bits bytes)).map symbol).reverse

theorem index_nixBase32Chars {d : ℕ} (h : d < 32) :
    index nixBase32Chars d = .ok (symbol d).toUInt8 := by
  have hlen : nixAlphabet.length = 32 := by decide
  have hchars : nixBase32Chars = nixAlphabet.map fun c => c.toUInt8 :=
    Utf8.encode_ascii nixAlphabet_ascii
  have hlt : d < nixAlphabet.length := hlen.symm ▸ h
  rw [hchars, index_of_lt (by rwa [List.length_map]), List.getElem_map, symbol,
    List.getD_eq_getElem _ _ hlt]

theorem mem_encoding {len : ℕ} (h : c ∈ encoding bytes len) : ∃ d < 32, c = symbol d := by
  obtain ⟨d, hd, rfl⟩ := List.mem_map.mp (List.mem_reverse.mp h)
  obtain ⟨i, -, rfl⟩ := List.mem_map.mp hd
  exact ⟨_, BitStream.window_lt, rfl⟩

theorem nixBase32Encode_eq : nixBase32Encode bytes = .ok (encoding bytes
    (bytes.length * 8 / 5 + if bytes.length * 8 % 5 = 0 then 0 else 1)) := by
  generalize hlen : (bytes.length * 8 / 5 + if bytes.length * 8 % 5 = 0 then 0 else 1) = len
  have hrange : ∀ m < len, 5 * m < 8 * bytes.length := by
    intro m hm
    rw [← hlen] at hm
    split_ifs at hm <;> omega
  have hdigit : ∀ m < len, ∃ d, nixDigit bytes m = .ok d ∧ index nixBase32Chars d.toNat =
      .ok (symbol (window 5 (bits bytes) (5 * m))).toUInt8 := by
    intro m hm
    obtain ⟨d, hd, hwindow⟩ := nixDigit_eq (hrange m hm)
    exact ⟨d, hd, by rw [hwindow]; exact index_nixBase32Chars BitStream.window_lt⟩
  have hloop := encodeLoop_eq hdigit (Nat.le_refl len)
    (List.length_replicate (n := len) (a := '0'.toUInt8))
  have hascii : Utf8.Ascii (encoding bytes len) := by
    intro c hc
    obtain ⟨d, hd, rfl⟩ := mem_encoding hc
    exact nixAlphabet_ascii _ (symbol_mem d hd)
  have hout : (List.range len).reverse.map
      (fun m => (symbol (window 5 (bits bytes) (5 * m))).toUInt8) =
        Utf8.encode (encoding bytes len) := by
    rw [Utf8.encode_ascii hascii, encoding, unpack, List.map_reverse, List.map_reverse, List.map_map,
      List.map_map]
    rfl
  rw [Nat.sub_self, List.take_zero, List.nil_append, hout] at hloop
  simp only [nixBase32Encode, hlen, hloop]
  exact congrArg Except.ok (by rw [Utf8.decode_encode]; rfl)

/-- The digits of an encoding are the windows. -/
theorem digitsOf_encoding (bytes : List UInt8) (len : ℕ) :
    digitsOf (encoding bytes len) = unpack 5 len (bits bytes) := by
  rw [digitsOf, encoding, List.reverse_reverse, List.map_map]
  refine (List.map_congr_left fun d hd => ?_).trans (List.map_id _)
  obtain ⟨i, -, rfl⟩ := List.mem_map.mp hd
  exact idxOf_symbol _ BitStream.window_lt

/-! ### Hashes -/

theorem pairs_of_isHex (hlen : s.length % 2 = 0) (h : ∀ c ∈ s, IsHex c) : Pairs s := by
  induction s using Pairs.induct with
  | case1 => exact trivial
  | case2 c => exact absurd hlen Nat.one_ne_zero
  | case3 c d t ih =>
    obtain ⟨hc, hd, ht⟩ : IsHex c ∧ IsHex d ∧ ∀ c ∈ t, IsHex c := by simpa using h
    have hmod : t.length % 2 = 0 := by
      simp only [List.length_cons] at hlen
      omega
    exact ⟨⟨.inl hc, hd⟩, ih hmod ht⟩

/-- Without a plus sign, the pairs are digits. -/
theorem Pairs.isHex_of_ne (h : Pairs s) (hc : c ∈ s) : IsHex c ∨ c = '+' := by
  induction s using Pairs.induct with
  | case1 => exact absurd hc List.not_mem_nil
  | case2 d => exact h.elim
  | case3 a b t ih =>
    obtain rfl | rfl | ht : c = a ∨ c = b ∨ c ∈ t := by simpa using hc
    · exact h.1.1
    · exact .inl h.1.2
    · exact ih h.2 ht

theorem Pairs.not_straddles (h : Pairs s) : ¬ Straddles s := by
  induction s using Pairs.induct with
  | case1 => exact id
  | case2 c => exact h.elim
  | case3 c d t ih =>
    have hc := utf8Size_of_lt h.1.ascii.1
    have hd := utf8Size_of_lt h.1.ascii.2
    rintro (hs | hs | hs)
    · omega
    · omega
    · exact ih h.2 hs.2

theorem spelled_lt : ∀ n ∈ spelled s, n < 2 ^ 8 := by
  induction s using spelled.induct with
  | case1 c d t ih =>
    rw [spelled, List.forall_mem_cons]
    have hc := digitValue_lt c
    have hd := digitValue_lt d
    exact ⟨by omega, ih⟩
  | case2 t ht =>
    rw [spelled]
    · exact fun n hn => absurd hn List.not_mem_nil
    · exact ht

theorem map_toNat_spelled (s : Text) :
    ((spelled s).map UInt8.ofNat).map UInt8.toNat = spelled s := by
  rw [List.map_map]
  refine (List.map_congr_left fun n hn => ?_).trans (List.map_id _)
  exact UInt8.toNat_ofNat_of_lt' (spelled_lt n hn)

/-- The bytes that a text of 64 characters spells, encoded. -/
def encoded (s : Text) : Text := encoding ((spelled s).map UInt8.ofNat) 52

theorem hexSha256ToNixBase32_of_length (h : hexToBytes s = .ok bytes) (hlen : bytes.length = 32) :
    hexSha256ToNixBase32 s = .ok (encoding bytes 52) := by
  have hencode : nixBase32Encode bytes = .ok (encoding bytes 52) := by
    rw [nixBase32Encode_eq, hlen]
    rfl
  rw [hexSha256ToNixBase32, h]
  exact (if_neg (not_not.mpr hlen)).trans (by rw [hencode]; rfl)

theorem hexSha256ToNixBase32_of_ne (h : hexToBytes s = .ok bytes) (hlen : bytes.length ≠ 32) :
    ∃ e, hexSha256ToNixBase32 s = .error (.failed e) := by
  rw [hexSha256ToNixBase32, h]
  exact ⟨_, if_pos hlen⟩

theorem hexSha256ToNixBase32_pairs (h : Pairs s) (hlen : s.length = 64) :
    hexSha256ToNixBase32 s = .ok (encoded s) := by
  have hbytes : ((spelled s).map UInt8.ofNat).length = 32 := by
    have := h.length.1
    rw [List.length_map]
    omega
  exact hexSha256ToNixBase32_of_length (hexToBytes_pairs h) hbytes

theorem hexSha256ToNixBase32_straddles (heven : (Utf8.encode s).length % 2 = 0)
    (h : Straddles s) : hexSha256ToNixBase32 s = .error (.fault .outOfBounds) := by
  rw [hexSha256ToNixBase32, hexToBytes_straddles heven h]
  rfl

/-- Other texts are errors. -/
theorem hexSha256ToNixBase32_failed (h : ¬ (Pairs s ∧ s.length = 64))
    (hs : ¬ ((Utf8.encode s).length % 2 = 0 ∧ Straddles s)) :
    ∃ e, hexSha256ToNixBase32 s = .error (.failed e) := by
  by_cases hpairs : Pairs s
  · refine hexSha256ToNixBase32_of_ne (hexToBytes_pairs hpairs) fun hbytes => h ⟨hpairs, ?_⟩
    have := hpairs.length.1
    rw [List.length_map] at hbytes
    omega
  · obtain ⟨e, he⟩ := hexToBytes_failed hpairs hs
    exact ⟨e, by rw [hexSha256ToNixBase32, he]; rfl⟩

/-- No panic, an encoding for hashes alone, and the encoding reads back as the hash. -/
structure RoundTrips (s : Text) : Prop where
  no_panic : ∀ f, hexSha256ToNixBase32 s ≠ .error (.fault f)
  ok_iff : (∃ out, hexSha256ToNixBase32 s = .ok out) ↔ IsHash s
  length : ∀ out, hexSha256ToNixBase32 s = .ok out → out.length = 52
  alphabet : ∀ out, hexSha256ToNixBase32 s = .ok out → ∀ c ∈ out, c ∈ nixAlphabet
  reads : ∀ out, hexSha256ToNixBase32 s = .ok out → unpack 8 32 (bit 5 (digitsOf out)) = spelled s
  past : ∀ out, hexSha256ToNixBase32 s = .ok out → ∀ m ≥ 256, bit 5 (digitsOf out) m = false
  apart : ∀ s', IsHash s' → hexSha256ToNixBase32 s' = hexSha256ToNixBase32 s →
    spelled s' = spelled s

/-- The stream of an encoding is the stream of the bytes. -/
theorem bit_encoded (h : Pairs s) (hlen : s.length = 64) (m : ℕ) :
    bit 5 (digitsOf (encoded s)) m = bit 8 (spelled s) m := by
  have hspelled : (spelled s).length = 32 := by
    have := h.length.1
    omega
  have hbits : bits ((spelled s).map UInt8.ofNat) = bit 8 (spelled s) := by
    rw [bits, map_toNat_spelled]
  rw [encoded, digitsOf_encoding, hbits]
  refine BitStream.bit_windows (by decide) fun k hk => BitStream.bit_eq_false (by decide) ?_
  omega

theorem reads_encoded (h : Pairs s) (hlen : s.length = 64) :
    unpack 8 32 (bit 5 (digitsOf (encoded s))) = spelled s := by
  have hspelled : (spelled s).length = 32 := by
    have := h.length.1
    omega
  rw [BitStream.unpack_congr fun m _ => bit_encoded h hlen m, ← hspelled]
  exact BitStream.unpack_bit spelled_lt

theorem IsHash.pairs (h : IsHash s) : Pairs s := pairs_of_isHex (by rw [h.1]) h.2

/-- A text round-trips unless a slice of it ends inside of a character or a plus sign
stands for a digit of it. -/
theorem roundTrips_iff (s : Text) : RoundTrips s ↔
    ¬ ((Utf8.encode s).length % 2 = 0 ∧ Straddles s) ∧ ¬ (Pairs s ∧ s.length = 64 ∧ '+' ∈ s) := by
  constructor
  · intro h
    refine ⟨fun hs => ?_, fun hplus => ?_⟩
    · exact h.no_panic _ (hexSha256ToNixBase32_straddles hs.1 hs.2)
    · have hhash := h.ok_iff.mp ⟨_, hexSha256ToNixBase32_pairs hplus.1 hplus.2.1⟩
      exact (hhash.2 '+' hplus.2.2).ne_plus rfl
  · rintro ⟨hs, hplus⟩
    by_cases hpairs : Pairs s ∧ s.length = 64
    · have hhash : IsHash s := by
        refine ⟨hpairs.2, fun c hc => (hpairs.1.isHex_of_ne hc).resolve_right ?_⟩
        rintro rfl
        exact hplus ⟨hpairs.1, hpairs.2, hc⟩
      have hok := hexSha256ToNixBase32_pairs hpairs.1 hpairs.2
      have hout : ∀ out, hexSha256ToNixBase32 s = .ok out → out = encoded s :=
        fun out h => Except.ok.inj (h.symm.trans hok)
      refine ⟨fun f => by rw [hok]; exact nofun, ⟨fun _ => hhash, fun _ => ⟨_, hok⟩⟩, ?_, ?_, ?_, ?_, ?_⟩
      · intro out h
        rw [hout out h, encoded, encoding, List.length_reverse, List.length_map,
          BitStream.length_unpack]
      · intro out h c hc
        rw [hout out h] at hc
        obtain ⟨d, hd, rfl⟩ := mem_encoding hc
        exact symbol_mem d hd
      · intro out h
        rw [hout out h, reads_encoded hpairs.1 hpairs.2]
      · intro out h m hm
        have hlen : (spelled s).length = 32 := by
          have := hpairs.1.length.1
          omega
        rw [hout out h, bit_encoded hpairs.1 hpairs.2, BitStream.bit_eq_false (by decide) (by omega)]
      · intro s' hs' h
        have hok' := hexSha256ToNixBase32_pairs hs'.pairs hs'.1
        have heq : encoded s' = encoded s := Except.ok.inj (hok'.symm.trans (h.trans hok))
        rw [← reads_encoded hs'.pairs hs'.1, heq, reads_encoded hpairs.1 hpairs.2]
    · obtain ⟨e, he⟩ := hexSha256ToNixBase32_failed hpairs hs
      have hno : ∀ out, hexSha256ToNixBase32 s ≠ .ok out := fun out => by rw [he]; exact nofun
      have hhash : ¬ IsHash s := fun h => hpairs ⟨h.pairs, h.1⟩
      refine ⟨fun f => by rw [he]; exact nofun, ⟨fun ⟨out, h⟩ => absurd h (hno out),
        fun h => absurd h hhash⟩, fun out h => absurd h (hno out), fun out h => absurd h (hno out),
        fun out h => absurd h (hno out), fun out h => absurd h (hno out), fun s' hs' h => ?_⟩
      exact absurd ((hexSha256ToNixBase32_pairs hs'.pairs hs'.1).symm.trans h).symm (hno _)

/-- Plus signs for digits, and a slice into a sign of three bytes. -/
theorem not_roundTrips : ¬ RoundTrips (List.replicate 32 ['+', '0']).flatten ∧
    ¬ RoundTrips ['€', '0'] := by
  constructor
  · intro h
    have hpairs : Pairs (List.replicate 32 ['+', '0']).flatten := by decide
    have hhash := h.ok_iff.mp ⟨_, hexSha256ToNixBase32_pairs hpairs (by decide)⟩
    exact (hhash.2 '+' (by decide)).ne_plus rfl
  · intro h
    have hstraddles : Straddles ['€', '0'] := .inl (by decide)
    exact h.no_panic _ (hexSha256ToNixBase32_straddles (by decide) hstraddles)

end Anodizer.Nix
