import Mathlib.Data.List.Basic
import Mathlib.Tactic.Common

/-! # Texts in UTF-8

Bytes are decoded to the text they encode, when there is one.
-/

namespace Utf8

def encode (t : List Char) : List UInt8 := t.flatMap String.utf8EncodeChar

def decode (bs : List UInt8) : Option (List Char) :=
  (ByteArray.mk bs.toArray).utf8Decode?.map Array.toList

variable {t s : List Char} {bs : List UInt8}

theorem encode_append (t s : List Char) : encode (t ++ s) = encode t ++ encode s :=
  List.flatMap_append

theorem mk_encode (t : List Char) : ByteArray.mk (encode t).toArray = t.utf8Encode := by
  rw [ByteArray.ext_iff, List.utf8Encode, List.data_toByteArray, encode]

@[simp] theorem decode_encode (t : List Char) : decode (encode t) = some t := by
  rw [decode, mk_encode, List.utf8Decode?_utf8Encode, Option.map_some, List.toList_toArray]

theorem encode_of_decode (h : decode bs = some t) : encode t = bs := by
  obtain ⟨a, ha, rfl⟩ := Option.map_eq_some_iff.mp h
  have hsome : (ByteArray.mk bs.toArray).utf8Decode?.isSome := by rw [ha]; rfl
  have hget : (ByteArray.mk bs.toArray).utf8Decode?.get hsome = a := by simp [ha]
  have hback := ByteArray.utf8Encode_get_utf8Decode? (h := hsome)
  rw [hget, ← mk_encode] at hback
  simpa using congrArg ByteArray.data hback

/-! ### Texts of one byte a character -/

def Ascii (t : List Char) : Prop := ∀ c ∈ t, c.toNat < 128

theorem ascii_of_all (h : t.all fun c => decide (c.toNat < 128)) : Ascii t := fun c hc =>
  of_decide_eq_true (List.all_eq_true.mp h c hc)

theorem length_encode (h : Ascii t) : (encode t).length = t.length := by
  induction t with
  | nil => rfl
  | cons c t ih =>
    obtain ⟨hc, ht⟩ := List.forall_mem_cons.mp h
    have hsize : c.utf8Size = 1 := by
      have hle : c.val ≤ 0x7f := UInt32.le_iff_toNat_le.mpr (Nat.le_of_lt_succ hc)
      simp [Char.utf8Size, hle]
    have htail : (encode t).length = t.length := ih ht
    rw [encode, List.flatMap_cons, List.length_append, String.length_utf8EncodeChar, hsize, ← encode,
      htail, List.length_cons]
    omega

/-- Each character of an ASCII text is one byte. -/
theorem encode_ascii (h : Ascii t) : encode t = t.map fun c => c.toUInt8 := by
  induction t with
  | nil => rfl
  | cons c t ih =>
    obtain ⟨hc, ht⟩ := List.forall_mem_cons.mp h
    have hle : c.val ≤ 0x7f := UInt32.le_iff_toNat_le.mpr (Nat.le_of_lt_succ hc)
    have hone : String.utf8EncodeChar c = [c.toUInt8] := by
      rw [String.utf8EncodeChar_eq_singleton (Char.utf8Size_eq_one_iff.mpr hle)]
      rfl
    rw [encode, List.flatMap_cons, hone, ← encode, ih ht]
    rfl

theorem Ascii.append (ht : Ascii t) (hs : Ascii s) : Ascii (t ++ s) := fun c hc =>
  (List.mem_append.mp hc).elim (ht c) (hs c)

theorem ascii_replicate {c : Char} (hc : c.toNat < 128) (n : ℕ) : Ascii (List.replicate n c) :=
  fun _ h => (List.eq_of_mem_replicate h).symm ▸ hc

end Utf8

/-! ## Texts cut at bytes

A text is cut behind a number of its bytes. The cut fails inside of a character.
-/

namespace Utf8

/-- The text in the first bytes, if they end with a character. -/
@[grind =] def cutAt : List Char → ℕ → Option (List Char)
  | _, 0 => some []
  | [], _ + 1 => none
  | c :: t, n + 1 =>
    if c.utf8Size ≤ n + 1 then (cutAt t (n + 1 - c.utf8Size)).map (c :: ·) else none

/-- The text from one byte up to another. Both have to be ends of characters. -/
def range (t : List Char) (start stop : ℕ) : Option (List Char) :=
  if start ≤ stop then (cutAt t start).bind fun u => cutAt (t.drop u.length) (stop - start) else none

/-- The number of bytes that two lists have in common before they differ. -/
@[grind =] def commonLength : List UInt8 → List UInt8 → ℕ
  | a :: as, b :: bs => if a = b then commonLength as bs + 1 else 0
  | _, _ => 0

def leadByte (c : Char) : Option UInt8 := (String.utf8EncodeChar c).head?

/-- The longest text that two texts begin with. -/
@[grind =] def common : List Char → List Char → List Char
  | c :: t, d :: s => if c = d then c :: common t s else []
  | _, _ => []

variable {c d : Char} {t s u : List Char} {as bs x y : List UInt8} {m n : ℕ}

theorem encode_cons (c : Char) (t : List Char) :
    encode (c :: t) = String.utf8EncodeChar c ++ encode t := List.flatMap_cons

theorem length_encode_cons (c : Char) (t : List Char) :
    (encode (c :: t)).length = c.utf8Size + (encode t).length := by
  rw [encode_cons, List.length_append, String.length_utf8EncodeChar]

theorem cutAt_cons (h : c.utf8Size ≤ n) : cutAt (c :: t) n = (cutAt t (n - c.utf8Size)).map (c :: ·) := by
  have hpos : 0 < n := Nat.lt_of_lt_of_le c.utf8Size_pos h
  obtain ⟨k, rfl⟩ := Nat.exists_eq_succ_of_ne_zero (Nat.ne_of_gt hpos)
  exact if_pos h

/-- A cut inside of the first character fails. -/
theorem cutAt_cons_of_lt (hpos : 0 < n) (h : n < c.utf8Size) : cutAt (c :: t) n = none := by
  obtain ⟨k, rfl⟩ := Nat.exists_eq_succ_of_ne_zero (Nat.ne_of_gt hpos)
  exact if_neg (Nat.not_le.mpr h)

theorem cutAt_append (t s : List Char) : cutAt (t ++ s) (encode t).length = some t := by
  induction t with
  | nil => cases s <;> rfl
  | cons c t ih =>
    rw [List.cons_append, length_encode_cons, cutAt_cons (Nat.le_add_right _ _),
      Nat.add_sub_cancel_left, ih]
    rfl

/-- Behind a text of a known number of bytes, the text is cut like the rest of it. -/
theorem range_append (h : (encode t).length = m) : range (t ++ s) m (m + n) = cutAt s n := by
  rw [range, if_pos (Nat.le_add_right m n), ← h, cutAt_append, Option.bind_some, List.drop_left,
    Nat.add_sub_cancel_left]

theorem commonLength_append (as bs x : List UInt8) :
    commonLength (x ++ as) (x ++ bs) = x.length + commonLength as bs := by
  induction x with
  | nil => simp
  | cons a x ih =>
    rw [List.cons_append, List.cons_append, commonLength, if_pos rfl, ih, List.length_cons]
    omega

/-- What two lists have in common, they share. -/
theorem take_commonLength (as bs : List UInt8) (h : n ≤ commonLength as bs) :
    as.take n = bs.take n := by
  induction as generalizing bs n with
  | nil =>
    cases bs with
    | nil => rfl
    | cons b bs => rw [Nat.le_zero.mp h]; rfl
  | cons a as ih =>
    cases bs with
    | nil => rw [Nat.le_zero.mp h]; rfl
    | cons b bs =>
      rw [commonLength] at h
      split at h
      · next hab =>
        cases n with
        | zero => rfl
        | succ n => rw [hab, List.take_succ_cons, List.take_succ_cons, ih bs (by omega)]
      · rw [Nat.le_zero.mp h]
        rfl

/-- The encoding of a character shows where it ends. -/
theorem char_eq_of_append (h : String.utf8EncodeChar c ++ x = String.utf8EncodeChar d ++ y) :
    c = d := by
  have hbytes := congrArg List.toByteArray h
  rw [List.toByteArray_append, List.toByteArray_append] at hbytes
  have hc := ByteArray.utf8DecodeChar?_utf8EncodeChar_append (b := x.toByteArray) (c := c)
  rw [hbytes, ByteArray.utf8DecodeChar?_utf8EncodeChar_append] at hc
  exact (Option.some.inj hc).symm

/-- Two characters differ before the first of them ends. -/
theorem commonLength_lt (h : c ≠ d) (x y : List UInt8) :
    commonLength (String.utf8EncodeChar c ++ x) (String.utf8EncodeChar d ++ y) < c.utf8Size := by
  by_contra hle
  have htake := take_commonLength _ _ (Nat.le_of_not_lt hle)
  rw [List.take_left' (String.length_utf8EncodeChar c)] at htake
  have hcut := List.take_append_drop c.utf8Size (String.utf8EncodeChar d ++ y)
  rw [← htake] at hcut
  exact h (char_eq_of_append hcut)

theorem commonLength_pos : 0 < commonLength (String.utf8EncodeChar c ++ x)
    (String.utf8EncodeChar d ++ y) ↔ leadByte c = leadByte d := by
  have hne : ∀ c : Char, ∃ a as, String.utf8EncodeChar c = a :: as := by
    intro c
    refine List.exists_cons_of_ne_nil fun hnil => ?_
    have hlen := String.length_utf8EncodeChar c
    rw [hnil] at hlen
    exact absurd hlen (Nat.ne_of_lt c.utf8Size_pos)
  obtain ⟨a, as, ha⟩ := hne c
  obtain ⟨b, bs, hb⟩ := hne d
  rw [leadByte, leadByte, ha, hb, List.cons_append, List.cons_append, commonLength]
  split <;> simp_all

/-- Where two texts part, their characters part with the first byte. -/
def Parts (t s : List Char) : Prop :=
  ∀ u c d, u ++ [c] <+: t → u ++ [d] <+: s → c ≠ d → leadByte c ≠ leadByte d

theorem parts_cons_self : Parts (c :: t) (c :: s) ↔ Parts t s := by
  constructor
  · intro h u a b ha hb
    exact h (c :: u) a b (List.cons_prefix_cons.mpr ⟨rfl, ha⟩) (List.cons_prefix_cons.mpr ⟨rfl, hb⟩)
  · intro h u a b ha hb hne
    cases u with
    | nil =>
      obtain ⟨rfl, -⟩ := List.cons_prefix_cons.mp ha
      obtain ⟨rfl, -⟩ := List.cons_prefix_cons.mp hb
      exact absurd rfl hne
    | cons e u =>
      exact h u a b (List.cons_prefix_cons.mp ha).2 (List.cons_prefix_cons.mp hb).2 hne

theorem parts_cons_ne (h : c ≠ d) : Parts (c :: t) (d :: s) ↔ leadByte c ≠ leadByte d := by
  constructor
  · intro hparts
    exact hparts [] c d (List.prefix_append [c] t) (List.prefix_append [d] s) h
  · intro hlead u a b ha hb _
    cases u with
    | nil =>
      obtain ⟨rfl, -⟩ := List.cons_prefix_cons.mp ha
      obtain ⟨rfl, -⟩ := List.cons_prefix_cons.mp hb
      exact hlead
    | cons e u =>
      have hc := (List.cons_prefix_cons.mp ha).1
      have hd := (List.cons_prefix_cons.mp hb).1
      exact absurd (hc.symm.trans hd) h

/-- A text is cut behind what its bytes have in common with another text. -/
theorem cutAt_commonLength (t s : List Char) :
    (Parts t s → cutAt t (commonLength (encode t) (encode s)) = some (common t s)) ∧
      (¬ Parts t s → cutAt t (commonLength (encode t) (encode s)) = none) := by
  induction t generalizing s with
  | nil =>
    have hzero : commonLength (encode []) (encode s) = 0 := by
      rw [encode, List.flatMap_nil, commonLength]
      simp
    rw [hzero]
    refine ⟨fun _ => by cases s <;> rfl, fun h => absurd ?_ h⟩
    intro u c d hc
    simp at hc
  | cons c t ih =>
    cases s with
    | nil =>
      have hzero : commonLength (encode (c :: t)) (encode []) = 0 := by
        rw [encode, encode, List.flatMap_nil, commonLength]
        simp
      rw [hzero]
      refine ⟨fun _ => rfl, fun h => absurd ?_ h⟩
      intro u a b _ hb
      simp at hb
    | cons d s =>
      rw [encode_cons, encode_cons]
      by_cases hcd : c = d
      · subst hcd
        have hpos := c.utf8Size_pos
        have hlen : commonLength (String.utf8EncodeChar c ++ encode t)
            (String.utf8EncodeChar c ++ encode s) =
              c.utf8Size - 1 + commonLength (encode t) (encode s) + 1 := by
          rw [commonLength_append, String.length_utf8EncodeChar]
          omega
        have hrest : c.utf8Size - 1 + commonLength (encode t) (encode s) + 1 - c.utf8Size =
            commonLength (encode t) (encode s) := by omega
        rw [hlen, cutAt, if_pos (by omega), hrest, parts_cons_self, common, if_pos rfl]
        obtain ⟨hsome, hnone⟩ := ih s
        exact ⟨fun h => by rw [hsome h]; rfl, fun h => by rw [hnone h]; rfl⟩
      · have hlt := commonLength_lt hcd (encode t) (encode s)
        have hpos := commonLength_pos (c := c) (d := d) (x := encode t) (y := encode s)
        rw [parts_cons_ne hcd, common, if_neg hcd]
        cases hlen : commonLength (String.utf8EncodeChar c ++ encode t)
            (String.utf8EncodeChar d ++ encode s) with
        | zero =>
          rw [hlen] at hpos
          refine ⟨fun _ => rfl, fun h => absurd (not_not.mp h) fun heq => ?_⟩
          exact absurd (hpos.mpr heq) (Nat.lt_irrefl 0)
        | succ n =>
          rw [hlen] at hpos hlt
          refine ⟨fun h => absurd (hpos.mp (Nat.succ_pos n)) h, fun _ => ?_⟩
          rw [cutAt, if_neg (by omega)]

/-- The common text is a prefix of both, and any such is a prefix of it. -/
theorem prefix_common : u <+: common t s ↔ u <+: t ∧ u <+: s := by
  induction u generalizing t s with
  | nil => simp
  | cons a u ih =>
    cases t with
    | nil => simp [common]
    | cons c t =>
      cases s with
      | nil => simp [common]
      | cons d s =>
        rw [common]
        by_cases hcd : c = d
        · subst hcd
          rw [if_pos rfl, List.cons_prefix_cons, List.cons_prefix_cons, List.cons_prefix_cons, ih]
          tauto
        · rw [if_neg hcd, List.cons_prefix_cons, List.cons_prefix_cons]
          simp only [List.prefix_nil, reduceCtorEq, false_iff]
          rintro ⟨⟨rfl, -⟩, rfl, -⟩
          exact hcd rfl

end Utf8
