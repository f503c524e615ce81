import Anodizer.VerifyRelease.Packages

/-! # The payload of an rpm

No bytes make the reader of the headers read past their end or overflow an index. Behind headers of
any size it finds the payload.
-/

namespace Anodizer.VerifyRelease

open Checked
open Elf (ofBytes usizeBits)

variable {bs pre rest : Bytes} {pos start stop n : ℕ}

/-! ### Alignment -/

/-- The multiple that `alignUp` gives. -/
def aligned (k n : ℕ) : ℕ := (n + k - 1) / k * k

theorem alignUp_of_lt (h : aligned k n < 2 ^ 64) : alignUp k n = .ok (aligned k n) := mul_of_lt h

theorem le_aligned (hk : 0 < k) (n : ℕ) : n ≤ aligned k n := by
  have := Nat.lt_div_mul_add hk (a := n + k - 1)
  rw [aligned]
  omega

theorem aligned_lt (hk : 0 < k) (n : ℕ) : aligned k n < n + k := by
  have := Nat.div_mul_le_self (n + k - 1) k
  rw [aligned]
  omega

/-- What starts at a multiple is aligned like what starts at zero. -/
theorem aligned_add (hk : 0 < k) (h : k ∣ pos) (n : ℕ) : aligned k (pos + n) = pos + aligned k n := by
  obtain ⟨m, rfl⟩ := h
  have hsum : k * m + n + k - 1 = n + k - 1 + m * k := by
    rw [Nat.mul_comm]
    omega
  rw [aligned, aligned, hsum, Nat.add_mul_div_right _ _ hk, Nat.add_mul, Nat.add_comm, Nat.mul_comm]

theorem dvd_aligned (k n : ℕ) : k ∣ aligned k n := Nat.dvd_mul_left k _

/-- Zeros up to the next multiple. -/
def padded (k : ℕ) (b : Bytes) : Bytes := b ++ List.replicate (aligned k b.length - b.length) 0

theorem length_padded (hk : 0 < k) (b : Bytes) : (padded k b).length = aligned k b.length := by
  have := le_aligned hk b.length
  rw [padded, List.length_append, List.length_replicate]
  omega

/-! ### Headers of rpm -/

/-- A number in so many bs, the highest first. -/
def toBeBytes : ℕ → ℕ → Bytes
  | 0, _ => []
  | k + 1, n => toBeBytes k (n / 256) ++ [UInt8.ofNat (n % 256)]

theorem length_toBeBytes (k n : ℕ) : (toBeBytes k n).length = k := by
  induction k generalizing n with
  | zero => rfl
  | succ k ih => rw [toBeBytes, List.length_append, ih, List.length_singleton]

theorem ofBytes_toBeBytes (k n : ℕ) : ofBytes (toBeBytes k n).reverse = n % 256 ^ k := by
  induction k generalizing n with
  | zero => simp [toBeBytes, ofBytes, Nat.mod_one]
  | succ k ih =>
    have hbyte : (UInt8.ofNat (n % 256)).toNat = n % 256 := by
      rw [UInt8.toNat_ofNat']
      omega
    rw [toBeBytes, List.reverse_append, List.reverse_singleton, List.singleton_append, ofBytes, ih,
      hbyte, Nat.pow_succ, Nat.mul_comm (256 ^ k), Nat.mod_mul]

theorem fromBeBytes_eq (h : start + 4 ≤ bs.length) :
    fromBeBytes bs start = .ok (ofBytes ((bs.drop start).take 4).reverse) := by
  have hindex : ∀ i, index bs (start + i) = index (bs.drop start) i := by
    intro i
    rw [index, index, List.getElem?_drop]
  have hread := mapM_index (a := 4) (l := bs.drop start) (by rw [List.length_drop]; omega)
  rw [fromBeBytes]
  simp only [hindex, hread]
  rfl

theorem ofBytes_lt (h : bs.length ≤ 4) : ofBytes bs < 2 ^ 32 := by
  have hlt := Elf.ofBytes_lt bs
  exact Nat.lt_of_lt_of_le hlt (Nat.pow_le_pow_right (by decide : 256 > 0) h)

/-- The number in four bs. -/
def word (fixed : Bytes) (offset : ℕ) : ℕ := ofBytes ((fixed.drop offset).take 4).reverse

theorem word_lt (fixed : Bytes) (offset : ℕ) : word fixed offset < 2 ^ 32 :=
  ofBytes_lt (by rw [List.length_reverse]; exact List.length_take_le _ _)

/-- The fixed part, the entries of the index and the store. -/
def sectionSize (fixed : Bytes) : ℕ := 16 + word fixed 8 * 16 + word fixed 12

section Sections

variable {fixed : Bytes}

theorem headerSectionEnd_short (hstart : start + 16 < 2 ^ 64)
    (h : range bs start (start + 16) = none) : headerSectionEnd bs start = .ok none := by
  have hadd : add usizeBits start 16 = .ok (start + 16) := add_of_lt hstart
  rw [headerSectionEnd, hadd]
  simp only [checked, Except.mapError, Bind.bind, Except.bind, h]

theorem headerSectionEnd_of_range (hlen : bs.length < 2 ^ 63)
    (h : range bs start (start + 16) = some fixed) : headerSectionEnd bs start =
      .ok (if fixed.take 4 = rpmHeaderMagic ∧ start + sectionSize fixed ≤ bs.length then
        some (start + sectionSize fixed) else none) := by
  have hle := le_of_range h
  have hfixed : fixed.length = 16 := by
    rw [range_of_le (by omega) hle] at h
    obtain rfl := Option.some.inj h
    rw [List.length_take, List.length_drop]
    omega
  have hword := word_lt fixed 8
  have hword' := word_lt fixed 12
  have hadd : add usizeBits start 16 = .ok (start + 16) := add_of_lt (by rw [usizeBits]; omega)
  have hmagic : slice fixed 0 4 = .ok (fixed.take 4) := slice_of_le (by omega) (by omega)
  have hindex : fromBeBytes fixed 8 = .ok (word fixed 8) := fromBeBytes_eq (by omega)
  have hsize : fromBeBytes fixed 12 = .ok (word fixed 12) := fromBeBytes_eq (by omega)
  have hstart : checkedAdd usizeBits start 16 = some (start + 16) :=
    checkedAdd_of_lt (by rw [usizeBits]; omega)
  have hmul : checkedMul usizeBits (word fixed 8) 16 = some (word fixed 8 * 16) :=
    checkedMul_of_lt (by rw [usizeBits]; omega)
  have hentries : checkedAdd usizeBits (start + 16) (word fixed 8 * 16) =
      some (start + 16 + word fixed 8 * 16) := checkedAdd_of_lt (by rw [usizeBits]; omega)
  have hstore : checkedAdd usizeBits (start + 16 + word fixed 8 * 16) (word fixed 12) =
      some (start + sectionSize fixed) := by
    rw [checkedAdd_of_lt (by rw [usizeBits]; omega), sectionSize]
    exact congrArg some (by omega)
  rw [headerSectionEnd, hadd]
  simp only [checked, Except.mapError, Bind.bind, Except.bind, h, hmagic, hindex, hsize, hstart,
    Option.bind, hmul, hentries, hstore, context]
  by_cases hm : fixed.take 4 = rpmHeaderMagic
  · by_cases hend : bs.length < start + sectionSize fixed
    · rw [if_neg (not_not.mpr hm), if_pos hend, if_neg (by omega)]
      rfl
    · rw [if_neg (not_not.mpr hm), if_neg hend, if_pos ⟨hm, by omega⟩]
  · rw [if_pos hm, if_neg fun hc => hm hc.1]
    rfl

/-- A section ends in the package. -/
theorem headerSectionEnd_runs (hlen : bs.length < 2 ^ 63) (hstart : start + 16 < 2 ^ 64) :
    headerSectionEnd bs start = .ok none ∨
      ∃ stop ≤ bs.length, headerSectionEnd bs start = .ok (some stop) := by
  cases hrange : range bs start (start + 16) with
  | none => exact .inl (headerSectionEnd_short hstart hrange)
  | some fixed =>
    rw [headerSectionEnd_of_range hlen hrange]
    split
    · next h => exact .inr ⟨_, h.2, rfl⟩
    · exact .inl rfl

end Sections

theorem findPayload_runs (hlen : bs.length < 2 ^ 63) : ∃ out, findPayload bs = .ok out := by
  rw [findPayload]
  split
  · exact ⟨none, rfl⟩
  · rcases headerSectionEnd_runs hlen (show leadLen + 16 < 2 ^ 64 by decide) with
      hsig | ⟨sigEnd, hsigEnd, hsig⟩
    · rw [hsig]
      exact ⟨none, rfl⟩
    · have halign := aligned_lt (show 0 < 8 by decide) sigEnd
      have hmain : alignUp 8 sigEnd = .ok (aligned 8 sigEnd) := alignUp_of_lt (by omega)
      rw [hsig]
      simp only [hmain, checked, Except.mapError, Bind.bind, Except.bind]
      rcases headerSectionEnd_runs hlen (show aligned 8 sigEnd + 16 < 2 ^ 64 by omega) with
        hstart | ⟨payloadStart, hpayload, hstart⟩
      · rw [hstart]
        exact ⟨none, rfl⟩
      · rw [hstart]
        dsimp only
        split
        · exact ⟨none, rfl⟩
        · rw [slice_of_le hpayload (Nat.le_refl _)]
          exact ⟨_, rfl⟩

/-- A header section of rpm: the index and the store, of any size. -/
structure HeaderSection where
  reserved : Bytes
  nindex : ℕ
  hsize : ℕ
  entries : Bytes
  length_reserved : reserved.length = 4
  nindex_lt : nindex < 2 ^ 32
  hsize_lt : hsize < 2 ^ 32
  length_entries : entries.length = nindex * 16 + hsize

namespace HeaderSection

def fixed (s : HeaderSection) : Bytes :=
  rpmHeaderMagic ++ (s.reserved ++ (toBeBytes 4 s.nindex ++ toBeBytes 4 s.hsize))

def bytes (s : HeaderSection) : Bytes := s.fixed ++ s.entries

variable (s : HeaderSection)

theorem length_fixed : s.fixed.length = 16 := by
  simp [fixed, rpmHeaderMagic, s.length_reserved, length_toBeBytes]

theorem word_of_append {fixed pre rest : Bytes} {n : ℕ} (h : fixed = pre ++ (toBeBytes 4 n ++ rest))
    (hlen : pre.length = start) (hn : n < 2 ^ 32) : word fixed start = n := by
  rw [word, h, ← hlen, List.drop_left, List.take_left' (length_toBeBytes 4 n), ofBytes_toBeBytes]
  exact Nat.mod_eq_of_lt hn

theorem sectionSize_fixed : sectionSize s.fixed = s.bytes.length := by
  have hindex : word s.fixed 8 = s.nindex :=
    word_of_append (show s.fixed = (rpmHeaderMagic ++ s.reserved) ++
      (toBeBytes 4 s.nindex ++ toBeBytes 4 s.hsize) by simp [fixed])
      (by simp [rpmHeaderMagic, s.length_reserved]) s.nindex_lt
  have hsize : word s.fixed 12 = s.hsize :=
    word_of_append (show s.fixed = (rpmHeaderMagic ++ (s.reserved ++ toBeBytes 4 s.nindex)) ++
      (toBeBytes 4 s.hsize ++ []) by simp [fixed])
      (by simp [rpmHeaderMagic, s.length_reserved, length_toBeBytes]) s.hsize_lt
  rw [sectionSize, hindex, hsize, bytes, List.length_append, length_fixed, s.length_entries]
  omega

end HeaderSection

theorem headerSectionEnd_section {s : HeaderSection} (hlen : bs.length < 2 ^ 63)
    (h : bs = pre ++ (s.bytes ++ rest)) (hstart : pre.length = start) :
    headerSectionEnd bs start = .ok (some (start + s.bytes.length)) := by
  have hrange : range bs start (start + 16) = some s.fixed :=
    range_of_append (show bs = pre ++ (s.fixed ++ (s.entries ++ rest)) by
      rw [h, HeaderSection.bytes, List.append_assoc]) hstart (by rw [s.length_fixed])
  have hend : start + s.bytes.length ≤ bs.length := by
    rw [h, List.length_append, List.length_append]
    omega
  have hmagic : s.fixed.take 4 = rpmHeaderMagic := List.take_left' rfl
  rw [headerSectionEnd_of_range hlen hrange, s.sectionSize_fixed, if_pos ⟨hmagic, hend⟩]

/-- A package of rpm. The signature header is padded to eight bs. -/
structure Rpm where
  lead : Bytes
  signature : HeaderSection
  padding : Bytes
  main : HeaderSection
  payload : Bytes
  magic : rpmLeadMagic <+: lead
  length_lead : lead.length = leadLen
  length_padding : padding.length = aligned 8 signature.bytes.length - signature.bytes.length
  payload_ne : payload ≠ []

def Rpm.bytes (r : Rpm) : Bytes :=
  r.lead ++ (r.signature.bytes ++ (r.padding ++ (r.main.bytes ++ r.payload)))

theorem findPayload_rpm (r : Rpm) (hlen : r.bytes.length < 2 ^ 63) :
    findPayload r.bytes = .ok (some r.payload) := by
  have hmagic : rpmLeadMagic.isPrefixOf r.bytes :=
    List.isPrefixOf_iff_prefix.mpr (r.magic.trans (List.prefix_append _ _))
  have hbytes : r.bytes.length = leadLen + (r.signature.bytes.length + (r.padding.length +
      (r.main.bytes.length + r.payload.length))) := by
    simp [Rpm.bytes, r.length_lead]
  have hpad := le_aligned (show 0 < 8 by decide) r.signature.bytes.length
  have hsig : headerSectionEnd r.bytes leadLen =
      .ok (some (leadLen + r.signature.bytes.length)) :=
    headerSectionEnd_section hlen rfl r.length_lead
  have hmain : aligned 8 (leadLen + r.signature.bytes.length) =
      leadLen + (r.signature.bytes.length + r.padding.length) := by
    rw [aligned_add (by decide) (by decide), r.length_padding]
    omega
  have halign : alignUp 8 (leadLen + r.signature.bytes.length) =
      .ok (leadLen + (r.signature.bytes.length + r.padding.length)) := by
    rw [← hmain]
    exact alignUp_of_lt (by omega)
  have hstart : headerSectionEnd r.bytes (leadLen + (r.signature.bytes.length + r.padding.length)) =
      .ok (some (leadLen + (r.signature.bytes.length + r.padding.length) + r.main.bytes.length)) := by
    have hcut : r.bytes = (r.lead ++ (r.signature.bytes ++ r.padding)) ++
        (r.main.bytes ++ r.payload) := by simp [Rpm.bytes]
    exact headerSectionEnd_section hlen hcut (by simp [r.length_lead])
  have hpayload : 0 < r.payload.length := List.length_pos_iff.mpr r.payload_ne
  have hslice : slice r.bytes (leadLen + (r.signature.bytes.length + r.padding.length) +
      r.main.bytes.length) r.bytes.length = .ok r.payload := by
    have hcut : r.bytes = (r.lead ++ (r.signature.bytes ++ (r.padding ++ r.main.bytes))) ++
        (r.payload ++ []) := by simp [Rpm.bytes]
    refine slice_of_append hcut ?_ (by omega)
    simp only [List.length_append, r.length_lead]
    omega
  rw [findPayload, if_neg (by rw [hmagic]; simp; omega)]
  simp only [hsig, halign, hstart, hslice, checked, Except.mapError, Bind.bind, Except.bind]
  rw [if_neg (by omega)]
  rfl

end Anodizer.VerifyRelease
