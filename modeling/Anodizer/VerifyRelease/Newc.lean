import Anodizer.VerifyRelease.Payload
import Mathlib.Data.List.MinMax

/-! # The largest ELF member of an archive of cpio

The scan of an archive ends on all bytes. Of the members that an archive is laid out to hold it finds
the first longest ELF.
-/

namespace Anodizer.VerifyRelease

open Checked
open Elf (usizeBits)
open Template (Text)
open Walk (Next walk)

variable {bs pre rest : Bytes} {pos : ℕ}

/-! ### Archives of cpio -/

section Cpio

variable {best : Option Bytes}

/-- A pass reads in the archive, and ends at most three bytes behind it. -/
theorem cpioPass_runs (hlen : bs.length < 2 ^ 63) (hpos : pos ≤ bs.length + 3) :
    ∃ next, cpioPass bs pos best = .ok next ∧ ∀ pos' best', next = .on pos' best' →
      pos < pos' ∧ pos' ≤ bs.length + 3 ∧ pos ≤ bs.length := by
  have hadd : add usizeBits pos headerLen = .ok (pos + headerLen) :=
    add_of_lt (by rw [usizeBits, headerLen]; omega)
  rw [cpioPass, hadd]
  simp only [Bind.bind, Except.bind]
  by_cases hshort : bs.length < pos + headerLen
  · rw [if_pos hshort]
    exact ⟨_, rfl, by simp⟩
  rw [if_neg hshort, slice_of_le (by omega) (by omega)]
  have hheader : ((bs.drop pos).take (pos + headerLen - pos)).length = 110 := by
    rw [List.length_take, List.length_drop]
    rw [headerLen] at hshort ⊢
    omega
  generalize (bs.drop pos).take (pos + headerLen - pos) = header at hheader ⊢
  simp only [slice_of_le (Nat.zero_le 6) (show 6 ≤ header.length by omega)]
  split
  · exact ⟨_, rfl, by simp⟩
  cases hexField header 6 with
  | none => exact ⟨_, rfl, by simp⟩
  | some filesize =>
    cases hexField header 11 with
    | none => exact ⟨_, rfl, by simp⟩
    | some namesize =>
      dsimp only
      cases hend : checkedAdd usizeBits (pos + headerLen) namesize with
      | none => exact ⟨_, rfl, by simp⟩
      | some nameEnd =>
        obtain rfl := eq_of_checkedAdd hend
        dsimp only
        split
        · exact ⟨_, rfl, by simp⟩
        have halign := aligned_lt (show 0 < 4 by decide) (pos + headerLen + namesize)
        have hle := le_aligned (show 0 < 4 by decide) (pos + headerLen + namesize)
        rw [slice_of_le (by omega) (by omega),
          alignUp_of_lt (show aligned 4 (pos + headerLen + namesize) < 2 ^ 64 by omega)]
        dsimp only
        split
        · exact ⟨_, rfl, by simp⟩
        cases hdata : checkedAdd usizeBits (aligned 4 (pos + headerLen + namesize)) filesize with
        | none => exact ⟨_, rfl, by simp⟩
        | some dataEnd =>
          obtain rfl := eq_of_checkedAdd hdata
          dsimp only
          split
          · exact ⟨_, rfl, by simp⟩
          have hlt := aligned_lt (show 0 < 4 by decide)
            (aligned 4 (pos + headerLen + namesize) + filesize)
          have hge := le_aligned (show 0 < 4 by decide)
            (aligned 4 (pos + headerLen + namesize) + filesize)
          rw [slice_of_le (by omega) (by omega), alignUp_of_lt (by omega)]
          refine ⟨_, rfl, ?_⟩
          rintro pos' best' hnext
          obtain ⟨rfl, -⟩ := Next.on.inj hnext
          have hheader : headerLen = 110 := rfl
          omega

theorem cpioPass_advances (hlen : bs.length < 2 ^ 63) : Walk.Advances (cpioPass bs) bs.length := by
  intro pos best pos' best' hstep
  have hpos : pos ≤ bs.length := by
    by_contra hpos
    rw [cpioPass] at hstep
    cases hadd : add usizeBits pos headerLen with
    | error e => simp [hadd, Bind.bind, Except.bind] at hstep
    | ok r =>
      have hshort : bs.length < r := by
        rw [eq_of_add hadd]
        omega
      simp [hadd, Bind.bind, Except.bind, hshort, Pure.pure, Except.pure] at hstep
  obtain ⟨next, hnext, hon⟩ := cpioPass_runs hlen (show pos ≤ bs.length + 3 by omega)
  rw [hstep] at hnext
  obtain ⟨hlt, -, hle⟩ := hon pos' best' (Except.ok.inj hnext).symm
  exact ⟨hlt, hle⟩

/-- A scan ends on all bytes, without a fault. -/
theorem largestElfInCpioNewc_runs (hlen : bs.length < 2 ^ 63) :
    ∃ out, largestElfInCpioNewc bs = some (.ok out) := by
  obtain ⟨r, hr⟩ := Option.isSome_iff_exists.mp
    (Walk.walk_isSome (cpioPass_advances hlen) 0 none)
  have hok : ∃ out, r = .ok out := by
    refine Walk.run_cases (I := fun pos _ => pos ≤ bs.length + 3) (P := fun r => ∃ out, r = .ok out)
      ?_ (fun _ _ out _ _ => ⟨out, rfl⟩) ?_ (Nat.zero_le _) hr
    · intro pos best e hpos hstep
      obtain ⟨next, hnext, -⟩ := cpioPass_runs hlen hpos
      rw [hstep] at hnext
      cases hnext
    · intro pos best pos' best' hpos hstep
      obtain ⟨next, hnext, hon⟩ := cpioPass_runs hlen hpos
      rw [hstep] at hnext
      exact (hon pos' best' (Except.ok.inj hnext).symm).2.1
  obtain ⟨out, rfl⟩ := hok
  exact ⟨out, hr⟩

/-! ### Members of cpio -/

def hexDigit (upper : Bool) (d : ℕ) : Char :=
  if upper then (Nat.digitChar d).toUpper else Nat.digitChar d

/-- A number in so many digits of base 16. -/
def hexDigits (upper : Bool) : ℕ → ℕ → Text
  | 0, _ => []
  | k + 1, n => hexDigits upper k (n / 16) ++ [hexDigit upper (n % 16)]

theorem toDigit_hexDigit (upper : Bool) : ∀ d < 16, toDigit (hexDigit upper d) = some d ∧
    (hexDigit upper d).toNat < 128 ∧ hexDigit upper d ≠ '+' := by
  cases upper <;> decide

theorem length_hexDigits (upper : Bool) (k n : ℕ) : (hexDigits upper k n).length = k := by
  induction k generalizing n with
  | zero => rfl
  | succ k ih => rw [hexDigits, List.length_append, ih, List.length_singleton]

theorem mem_hexDigits {upper : Bool} {k n : ℕ} {c : Char} (h : c ∈ hexDigits upper k n) :
    ∃ d < 16, c = hexDigit upper d := by
  induction k generalizing n with
  | zero => cases h
  | succ k ih =>
    rcases List.mem_append.mp h with h | h
    · exact ih h
    · exact ⟨n % 16, Nat.mod_lt _ (by decide), List.mem_singleton.mp h⟩

theorem mapM_hexDigits (upper : Bool) (k n : ℕ) :
    ((hexDigits upper k n).mapM toDigit).map ofDigits = some (n % 16 ^ k) := by
  induction k generalizing n with
  | zero => simp [hexDigits, ofDigits, Nat.mod_one]
  | succ k ih =>
    obtain ⟨ds, hds, hvalue⟩ := Option.map_eq_some_iff.mp (ih (n / 16))
    have hdigit := (toDigit_hexDigit upper (n % 16) (Nat.mod_lt _ (by decide))).1
    have hlast : ofDigits (ds ++ [n % 16]) = 16 * ofDigits ds + n % 16 := by
      rw [ofDigits, List.foldl_append]
      rfl
    rw [hexDigits, List.mapM_append, hds]
    simp only [List.mapM_cons, List.mapM_nil, hdigit, Option.pure_def, Option.bind_eq_bind,
      Option.bind_some, Option.map_some, hlast, hvalue]
    rw [Nat.pow_succ, Nat.mul_comm (16 ^ k), Nat.mod_mul, Nat.add_comm]

theorem ascii_hexDigits (upper : Bool) (k n : ℕ) : Utf8.Ascii (hexDigits upper k n) := by
  intro c hc
  obtain ⟨d, hd, rfl⟩ := mem_hexDigits hc
  exact (toDigit_hexDigit upper d hd).2.1

theorem fromStrRadix_hexDigits {upper : Bool} {n : ℕ} (hn : n < 16 ^ 8) :
    fromStrRadix (hexDigits upper 8 n) = some n := by
  have hlen := length_hexDigits upper 8 n
  have hplus : (hexDigits upper 8 n).head? ≠ some '+' := by
    intro hhead
    obtain ⟨d, hd, hc⟩ := mem_hexDigits (List.mem_of_mem_head? hhead)
    exact (toDigit_hexDigit upper d hd).2.2 hc.symm
  have hne : hexDigits upper 8 n ≠ [] := by
    rintro hnil
    rw [hnil] at hlen
    cases hlen
  rw [fromStrRadix]
  simp only [if_neg hplus, if_neg hne, mapM_hexDigits, Nat.mod_eq_of_lt hn, Option.filter_some]
  exact if_pos (decide_eq_true (Nat.lt_trans hn (by decide)))

/-- A member of an archive. Its sizes are written in digits of either case, and the fields that are
not read hold anything. -/
structure NewcMember where
  crc : Bool
  upper : Bool
  inoToMtime : Bytes
  devices : Bytes
  check : Bytes
  name : Bytes
  data : Bytes
  length_inoToMtime : inoToMtime.length = 48
  length_devices : devices.length = 32
  length_check : check.length = 8
  name_lt : name.length + 1 < 16 ^ 8
  data_lt : data.length < 16 ^ 8

namespace NewcMember

def header (m : NewcMember) : Bytes :=
  cpioMagic m.crc ++ (m.inoToMtime ++ (Utf8.encode (hexDigits m.upper 8 m.data.length) ++
    (m.devices ++ (Utf8.encode (hexDigits m.upper 8 (m.name.length + 1)) ++ m.check))))

def bytes (m : NewcMember) : Bytes := padded 4 (m.header ++ (m.name ++ [0])) ++ padded 4 m.data

variable (m : NewcMember)

theorem length_hexField (n : ℕ) : (Utf8.encode (hexDigits m.upper 8 n)).length = 8 := by
  rw [Utf8.length_encode (ascii_hexDigits _ _ _), length_hexDigits]

theorem length_magic (crc : Bool) : (cpioMagic crc).length = 6 := by
  cases crc <;> exact Utf8.length_encode (Utf8.ascii_of_all (by decide))

theorem length_header : m.header.length = headerLen := by
  simp [header, length_magic, m.length_inoToMtime, m.length_devices, m.length_check,
    m.length_hexField, headerLen]

theorem hexField_of_append {header pre rest : Bytes} {upper : Bool} {n idx : ℕ}
    (h : header = pre ++ (Utf8.encode (hexDigits upper 8 n) ++ rest))
    (hlen : pre.length = 6 + idx * 8) (hn : n < 16 ^ 8) : hexField header idx = some n := by
  have hfield : (Utf8.encode (hexDigits upper 8 n)).length = 8 := by
    rw [Utf8.length_encode (ascii_hexDigits _ _ _), length_hexDigits]
  rw [hexField, range_of_append h hlen (by omega)]
  simp only [Option.bind_eq_bind, Option.bind_some, Utf8.decode_encode, fromStrRadix_hexDigits hn]

theorem hexField_filesize : hexField m.header 6 = some m.data.length :=
  hexField_of_append (show m.header = (cpioMagic m.crc ++ m.inoToMtime) ++ _ by
    rw [header, List.append_assoc]) (by simp [length_magic, m.length_inoToMtime]) m.data_lt

theorem hexField_namesize : hexField m.header 11 = some (m.name.length + 1) :=
  hexField_of_append (show m.header = (cpioMagic m.crc ++ (m.inoToMtime ++
    (Utf8.encode (hexDigits m.upper 8 m.data.length) ++ m.devices))) ++
      (Utf8.encode (hexDigits m.upper 8 (m.name.length + 1)) ++ m.check) by
        simp only [header, List.append_assoc])
    (by simp [length_magic, m.length_inoToMtime, m.length_hexField, m.length_devices]) m.name_lt

theorem length_bytes : m.bytes.length =
    aligned 4 (headerLen + (m.name.length + 1)) + aligned 4 m.data.length := by
  rw [bytes, List.length_append, length_padded (by decide), length_padded (by decide),
    List.length_append, length_header, List.length_append, List.length_singleton]

theorem dvd_length_bytes : 4 ∣ m.bytes.length := by
  rw [length_bytes]
  exact Nat.dvd_add (dvd_aligned 4 _) (dvd_aligned 4 _)

end NewcMember

/-- What a pass over a member comes to. -/
theorem cpioPass_member {m : NewcMember} (best : Option Bytes) (hlen : bs.length < 2 ^ 63)
    (h : bs = pre ++ (m.bytes ++ rest)) (hpre : pre.length = pos) (hdvd : 4 ∣ pos) :
    cpioPass bs pos best = .ok (if m.name = trailer then .done best
      else .on (pos + m.bytes.length) (better best m.data)) := by
  have hbytes := m.length_bytes
  have hle := le_aligned (show 0 < 4 by decide) (headerLen + (m.name.length + 1))
  have hge := le_aligned (show 0 < 4 by decide) m.data.length
  have htotal : bs.length = pos + (m.bytes.length + rest.length) := by
    rw [h, List.length_append, List.length_append, hpre]
  have hnameEnd : aligned 4 (pos + headerLen + (m.name.length + 1)) =
      pos + aligned 4 (headerLen + (m.name.length + 1)) := by
    rw [Nat.add_assoc, aligned_add (by decide) hdvd]
  have hdataEnd : aligned 4 (pos + aligned 4 (headerLen + (m.name.length + 1)) + m.data.length) =
      pos + m.bytes.length := by
    rw [aligned_add (by decide) (Nat.dvd_add hdvd (dvd_aligned 4 _)), hbytes, Nat.add_assoc]
  have hadd : add usizeBits pos headerLen = .ok (pos + headerLen) :=
    add_of_lt (by rw [usizeBits]; omega)
  have hcut : bs = (pre ++ m.header) ++ ((m.name ++ [0]) ++ (List.replicate
      (aligned 4 (m.header ++ (m.name ++ [0])).length - (m.header ++ (m.name ++ [0])).length) 0 ++
        (padded 4 m.data ++ rest))) := by
    rw [h, NewcMember.bytes, padded]
    simp only [List.append_assoc]
  have hcut' : bs = (pre ++ padded 4 (m.header ++ (m.name ++ [0]))) ++ (m.data ++
      (List.replicate (aligned 4 m.data.length - m.data.length) 0 ++ rest)) := by
    rw [h, NewcMember.bytes, padded, padded]
    simp only [List.append_assoc]
  have hheader : slice bs pos (pos + headerLen) = .ok m.header := by
    rw [List.append_assoc] at hcut
    exact slice_of_append hcut hpre (by rw [m.length_header])
  have hname : slice bs (pos + headerLen) (pos + headerLen + (m.name.length + 1)) =
      .ok (m.name ++ [0]) :=
    slice_of_append hcut (by rw [List.length_append, hpre, m.length_header])
      (by rw [List.length_append, List.length_singleton])
  have hdata : slice bs (pos + aligned 4 (headerLen + (m.name.length + 1)))
      (pos + aligned 4 (headerLen + (m.name.length + 1)) + m.data.length) = .ok m.data := by
    refine slice_of_append hcut' ?_ rfl
    rw [List.length_append, hpre, length_padded (by decide), List.length_append, m.length_header,
      List.length_append, List.length_singleton]
  have hmagic : slice m.header 0 6 = .ok (cpioMagic m.crc) :=
    slice_of_append (show m.header = [] ++ (cpioMagic m.crc ++ _) from rfl) rfl
      (by rw [NewcMember.length_magic])
  have hknown : ¬ (cpioMagic m.crc ≠ cpioMagic false ∧ cpioMagic m.crc ≠ cpioMagic true) := by
    cases m.crc <;> simp
  have hstop : checkedAdd usizeBits (pos + headerLen) (m.name.length + 1) =
      some (pos + headerLen + (m.name.length + 1)) := checkedAdd_of_lt (by rw [usizeBits]; omega)
  have hstart : alignUp 4 (pos + headerLen + (m.name.length + 1)) =
      .ok (pos + aligned 4 (headerLen + (m.name.length + 1))) := by
    rw [alignUp_of_lt (by omega), hnameEnd]
  have hdataStop : checkedAdd usizeBits (pos + aligned 4 (headerLen + (m.name.length + 1)))
      m.data.length = some (pos + aligned 4 (headerLen + (m.name.length + 1)) + m.data.length) :=
    checkedAdd_of_lt (by rw [usizeBits]; omega)
  have hnext : alignUp 4 (pos + aligned 4 (headerLen + (m.name.length + 1)) + m.data.length) =
      .ok (pos + m.bytes.length) := by
    rw [alignUp_of_lt (by omega), hdataEnd]
  rw [cpioPass, hadd]
  simp only [Bind.bind, Except.bind, hheader, hmagic, m.hexField_filesize, m.hexField_namesize,
    hstop, hname, hstart, hdataStop, hdata, hnext]
  rw [if_neg (by omega), if_neg hknown, if_neg (by omega)]
  by_cases htrailer : m.name = trailer
  · rw [if_pos htrailer, if_pos (by rw [htrailer])]
    rfl
  · rw [if_neg htrailer, if_neg fun hc => htrailer (List.append_cancel_right hc),
      if_neg (by omega)]
    rfl

/-- An archive with members of any other names before its trailer, and anything behind it. -/
structure CpioArchive where
  members : List NewcMember
  trailing : NewcMember
  rest : Bytes
  members_name : ∀ m ∈ members, m.name ≠ trailer
  trailing_name : trailing.name = trailer

def CpioArchive.bytes (a : CpioArchive) : Bytes :=
  a.members.flatMap NewcMember.bytes ++ (a.trailing.bytes ++ a.rest)

theorem walk_members {ms : List NewcMember} {t : NewcMember} (pre : Bytes) (hlen : bs.length < 2 ^ 63)
    (hms : ∀ m ∈ ms, m.name ≠ trailer) (ht : t.name = trailer)
    (h : bs = pre ++ (ms.flatMap NewcMember.bytes ++ (t.bytes ++ rest))) (hdvd : 4 ∣ pre.length) :
    walk (cpioPass bs) bs.length pre.length best =
      some (.ok ((ms.map NewcMember.data).foldl better best)) := by
  induction ms generalizing pre best with
  | nil =>
    have hpass := cpioPass_member best hlen h rfl hdvd
    rw [if_pos ht] at hpass
    exact Walk.walk_done hpass
  | cons m ms ih =>
    obtain ⟨hm, hms⟩ := List.forall_mem_cons.mp hms
    have hcut : bs = pre ++ (m.bytes ++ (ms.flatMap NewcMember.bytes ++ (t.bytes ++ rest))) := by
      rw [h, List.flatMap_cons, List.append_assoc]
    have hpass := cpioPass_member best hlen hcut rfl hdvd
    rw [if_neg hm] at hpass
    have hpre : pre.length + m.bytes.length = (pre ++ m.bytes).length := List.length_append.symm
    rw [Walk.walk_on (cpioPass_advances hlen) hpass, hpre,
      ih (pre ++ m.bytes) hms (by rw [hcut, List.append_assoc]) (by
        rw [← hpre]
        exact Nat.dvd_add hdvd m.dvd_length_bytes)]
    rfl

/-- The best of a list is its first longest ELF member. -/
theorem foldl_better (datas : List Bytes) :
    datas.foldl better none = (datas.filter isElf).argmax List.length := by
  induction datas using List.reverseRecOn with
  | nil => rfl
  | append_singleton datas data ih =>
    rw [List.foldl_append, ih, List.filter_append]
    cases helf : isElf data with
    | false => simp [better, helf]
    | true =>
      have hone : [data].filter isElf = [data] := by simp [helf]
      rw [hone, List.argmax_concat]
      cases (datas.filter isElf).argmax List.length with
      | none => simp [better, helf]
      | some best => simp [better, helf]

/-- The first longest of a kind is longer than those before it and no shorter than those behind. -/
theorem argmax_filter_eq_some {α : Type*} {p : α → Bool} {f : α → ℕ} {l : List α} {m : α}
    (h : (l.filter p).argmax f = some m) : ∃ before after, l = before ++ m :: after ∧ p m ∧
      (∀ x ∈ before, p x → f x < f m) ∧ ∀ x ∈ after, p x → f x ≤ f m := by
  induction l with
  | nil => cases h
  | cons a l ih =>
    by_cases ha : p a
    · rw [List.filter_cons_of_pos ha, List.argmax_cons] at h
      cases hrest : (l.filter p).argmax f with
      | none =>
        have hnone : ∀ x ∈ l, ¬ p x := by simpa using List.argmax_eq_none.mp hrest
        simp only [hrest, Option.some.injEq] at h
        exact ⟨[], l, by rw [h]; rfl, h ▸ ha, by simp, fun x hx hp => absurd hp (hnone x hx)⟩
      | some c =>
        simp only [hrest] at h
        split at h
        · next hlt =>
          obtain rfl := Option.some.inj h
          obtain ⟨before, after, rfl, hc, hbefore, hafter⟩ := ih hrest
          exact ⟨a :: before, after, rfl, hc, List.forall_mem_cons.mpr ⟨fun _ => hlt, hbefore⟩,
            hafter⟩
        · next hge =>
          obtain rfl := Option.some.inj h
          refine ⟨[], l, rfl, ha, by simp, fun x hx hp => ?_⟩
          have hle := List.le_of_mem_argmax (List.mem_filter.mpr ⟨hx, hp⟩) (Option.mem_def.mpr hrest)
          omega
    · rw [List.filter_cons_of_neg ha] at h
      obtain ⟨before, after, rfl, hm, hbefore, hafter⟩ := ih h
      exact ⟨a :: before, after, rfl, hm,
        List.forall_mem_cons.mpr ⟨fun hp => absurd hp ha, hbefore⟩, hafter⟩

theorem argmax_filter_iff {α : Type*} {p : α → Bool} {f : α → ℕ} {l : List α} {m : α} :
    (l.filter p).argmax f = some m ↔ ∃ before after, l = before ++ m :: after ∧ p m ∧
      (∀ x ∈ before, p x → f x < f m) ∧ ∀ x ∈ after, p x → f x ≤ f m := by
  refine ⟨argmax_filter_eq_some, ?_⟩
  rintro ⟨before, after, rfl, hm, hbefore, hafter⟩
  have hmem : m ∈ (before ++ m :: after).filter p := List.mem_filter.mpr ⟨by simp, hm⟩
  cases hmax : ((before ++ m :: after).filter p).argmax f with
  | none => exact absurd hmem (List.argmax_eq_none.mp hmax ▸ List.not_mem_nil)
  | some c =>
    obtain ⟨before', after', hcut, hc, hbefore', hafter'⟩ := argmax_filter_eq_some hmax
    rcases List.append_eq_append_iff.mp hcut with ⟨as, rfl, htail⟩ | ⟨as, rfl, htail⟩
    · cases as with
      | nil => exact congrArg some (List.cons.inj htail).1.symm
      | cons b as =>
        obtain ⟨rfl, rfl⟩ := List.cons.inj htail
        have hlt := hbefore' m (by simp) hm
        have hle := hafter c (by simp) hc
        omega
    · cases as with
      | nil => exact congrArg some (List.cons.inj htail).1
      | cons b as =>
        obtain ⟨rfl, rfl⟩ := List.cons.inj htail
        have hlt := hbefore c (by simp) hc
        have hle := hafter' m (by simp) hm
        omega

theorem largestElfInCpioNewc_archive (a : CpioArchive) (hlen : a.bytes.length < 2 ^ 63) :
    largestElfInCpioNewc a.bytes =
      some (.ok (((a.members.map NewcMember.data).filter isElf).argmax List.length)) := by
  rw [← foldl_better]
  exact walk_members [] hlen a.members_name a.trailing_name rfl (Nat.dvd_zero 4)

end Cpio

end Anodizer.VerifyRelease
