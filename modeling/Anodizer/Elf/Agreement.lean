import Anodizer.Elf.Probe

/-! # The probes agree

Where the probe of the file answers, the probe in memory gives the same answer, and the probe in
memory always answers. The probe of the file reads past its table when the entries are too small
for their type.
-/

namespace Anodizer.Elf

open Checked

/-- The program headers that an image states. -/
structure Table where
  isLe : Bool
  offset : ℕ
  entrySize : ℕ
  count : ℕ
  deriving DecidableEq, Repr

/-- The table of an image that the probes look at. -/
def tableOf (bytes : List UInt8) : Option Table :=
  let is64bit := bytes[4]? == some 2
  let isLe := bytes[5]? == some 1
  if bytes.take 4 ≠ magic ∨ bytes.length < minLen is64bit then none
  else
    match phLocator bytes is64bit isLe with
    | .error _ => none
    | .ok (phOffset, phEntrySize, phCount) =>
      if phCount = 0 ∨ phEntrySize = 0 then none else some ⟨isLe, phOffset, phEntrySize, phCount⟩

/-- The type of an entry. -/
def Table.typeAt (t : Table) (bytes : List UInt8) (i : ℕ) : ℕ :=
  decodeUint ((bytes.drop (t.offset + i * t.entrySize)).take 4) t.isLe

/-- The type of an entry lies in the table. -/
def Table.Holds (t : Table) (i : ℕ) : Prop := i * t.entrySize + 4 ≤ t.entrySize * t.count

instance (t : Table) : DecidablePred t.Holds := fun _ => inferInstanceAs (Decidable (_ ≤ _))

/-- The type of an entry lies in the image. -/
def Table.Reaches (t : Table) (bytes : List UInt8) (i : ℕ) : Prop :=
  t.offset + i * t.entrySize + 4 ≤ bytes.length

instance (t : Table) (bytes : List UInt8) : DecidablePred (t.Reaches bytes) :=
  fun _ => inferInstanceAs (Decidable (_ ≤ _))

variable {bytes : List UInt8} {t : Table} {i n : ℕ}

/-! ### The header -/

theorem slice_congr {l l' : List UInt8} {k start stop : ℕ} (h : l.take k = l'.take k)
    (hn : stop ≤ k) : slice l start stop = slice l' start stop := by
  rw [slice, slice, range_congr h hn]

theorem phLocator_congr {hdr hdr' : List UInt8} {is64bit isLe : Bool} {k : ℕ}
    (h : hdr.take k = hdr'.take k) (hk : minLen is64bit ≤ k) :
    phLocator hdr is64bit isLe = phLocator hdr' is64bit isLe := by
  cases is64bit with
  | true =>
    have hk : 58 ≤ k := hk
    simp only [phLocator, if_true]
    rw [slice_congr h (by omega), slice_congr h (by omega), slice_congr h hk]
  | false =>
    have hk : 46 ≤ k := hk
    simp only [phLocator, Bool.false_eq_true, if_false]
    rw [slice_congr h (by omega), slice_congr h (by omega), slice_congr h hk]

theorem minLen_ge (is64bit : Bool) : 46 ≤ minLen is64bit ∧ minLen is64bit ≤ 58 := by
  cases is64bit <;> decide

theorem length_of_magic (h : bytes.take 4 = magic) : 4 ≤ bytes.length := by
  have hlen := congrArg List.length h
  rw [List.length_take] at hlen
  have hmagic : magic.length = 4 := rfl
  omega

theorem bytes_tableOf (bytes : List UInt8) : isDynamicallyLinkedBytes bytes =
    match tableOf bytes with
    | none => .ok false
    | some t => answer
      (Loop.run (scanBytes bytes t.isLe t.offset t.entrySize) (List.range t.count) ()) := by
  by_cases hlen : bytes.length < 6
  · have hnone : tableOf bytes = none := by
      have hmin := (minLen_ge (bytes[4]? == some 2)).1
      rw [tableOf, if_pos (.inr (by omega))]
    rw [hnone, isDynamicallyLinkedBytes, if_pos hlen]
    rfl
  have hslice : slice bytes 0 4 = .ok (bytes.take 4) := slice_of_le (by omega) (by omega)
  have h4 := index_of_lt (l := bytes) (show 4 < bytes.length by omega)
  have h5 := index_of_lt (l := bytes) (show 5 < bytes.length by omega)
  have h4' : (bytes[4]? == some 2) = (bytes[4] == 2) := by
    rw [List.getElem?_eq_getElem (by omega)]
    rfl
  have h5' : (bytes[5]? == some 1) = (bytes[5] == 1) := by
    rw [List.getElem?_eq_getElem (by omega)]
    rfl
  simp only [isDynamicallyLinkedBytes, if_neg hlen, hslice, h4, h5, tableOf, h4', h5']
  by_cases hmagic : bytes.take 4 = magic
  · by_cases hmin : bytes.length < minLen (bytes[4] == 2)
    · simp [hmagic, hmin, pure, Except.pure, bind, Except.bind]
    · obtain ⟨off, size, count, hloc, -⟩ :=
        @phLocator_ok bytes (bytes[5] == 1) (bytes[4] == 2) (Nat.not_lt.mp hmin)
      by_cases hzero : count = 0 ∨ size = 0
      · simp [hmagic, hmin, hloc, hzero, pure, Except.pure, bind, Except.bind]
      · simp [hmagic, hmin, hloc, hzero, bind, Except.bind]
  · simp [hmagic, pure, Except.pure, bind, Except.bind]

/-- The buffer starts as the file does. -/
theorem take_headerBuffer (bytes : List UInt8) :
    (headerBuffer bytes).take (min 64 bytes.length) = bytes.take (min 64 bytes.length) := by
  rw [headerBuffer, List.take_append_of_le_length (by simp), List.take_take,
    Nat.min_eq_left (Nat.min_le_left ..)]

theorem length_headerBuffer (bytes : List UInt8) : (headerBuffer bytes).length = 64 := by
  rw [headerBuffer, List.length_append, List.length_take, List.length_replicate]
  omega

theorem file_tableOf (bytes : List UInt8) : isDynamicallyLinked (.content bytes) =
    match tableOf bytes with
    | none => .ok false
    | some t => readExactAt bytes t.offset (t.entrySize * t.count) >>= fun phBuf =>
      answer (Loop.run (scanTable phBuf t.isLe t.entrySize) (List.range t.count) ()) := by
  have hlength := length_headerBuffer bytes
  have htake := take_headerBuffer bytes
  have hslice : slice (headerBuffer bytes) 0 4 = .ok ((headerBuffer bytes).take 4) :=
    slice_of_le (by omega) (by omega)
  have h4 := index_of_lt (l := headerBuffer bytes) (show 4 < _ by omega)
  have h5 := index_of_lt (l := headerBuffer bytes) (show 5 < _ by omega)
  simp only [isDynamicallyLinked, hslice, h4, h5]
  by_cases hshort : bytes.length < 46
  · have hmin := fun c => (minLen_ge c).1
    have hnone : tableOf bytes = none := by
      have := hmin (bytes[4]? == some 2)
      rw [tableOf, if_pos (.inr (by omega))]
    have hn : min 64 bytes.length < minLen ((headerBuffer bytes)[4] == 2) := by
      have := hmin ((headerBuffer bytes)[4] == 2)
      omega
    rw [hnone]
    by_cases hmagic : (headerBuffer bytes).take 4 = magic
    · simp [hmagic, hn, checked, Except.mapError, pure, Except.pure, bind, Except.bind]
    · simp [hmagic, checked, Except.mapError, pure, Except.pure, bind, Except.bind]
  have hn : 46 ≤ min 64 bytes.length := by omega
  have htake' : ∀ k ≤ 46, (headerBuffer bytes).take k = bytes.take k := by
    intro k hk
    rw [← Nat.min_eq_left (Nat.le_trans hk hn), ← List.take_take, htake, List.take_take]
  have hget : ∀ k < 46, (headerBuffer bytes)[k]? = bytes[k]? := by
    intro k hk
    rw [← List.getElem?_take_of_lt hk, htake' 46 (Nat.le_refl _), List.getElem?_take_of_lt hk]
  have h4' : (bytes[4]? == some 2) = ((headerBuffer bytes)[4] == 2) := by
    rw [← hget 4 (by omega), List.getElem?_eq_getElem (by omega)]
    rfl
  have h5' : (bytes[5]? == some 1) = ((headerBuffer bytes)[5] == 1) := by
    rw [← hget 5 (by omega), List.getElem?_eq_getElem (by omega)]
    rfl
  simp only [tableOf, h4', h5', htake' 4 (by omega)]
  generalize (headerBuffer bytes)[4] = b4
  generalize (headerBuffer bytes)[5] = b5
  by_cases hmagic : bytes.take 4 = magic
  · have hclass := (minLen_ge (b4 == 2)).2
    by_cases hmin : bytes.length < minLen (b4 == 2)
    · have hmin' : min 64 bytes.length < minLen (b4 == 2) := by omega
      simp [hmagic, hmin, hmin', checked, Except.mapError, pure, Except.pure, bind, Except.bind]
    · have hmin' : ¬ min 64 bytes.length < minLen (b4 == 2) := by omega
      obtain ⟨off, size, count, hloc, hsize, hcount⟩ :=
        @phLocator_ok bytes (b5 == 1) (b4 == 2) (Nat.not_lt.mp hmin)
      have hmul : mul 64 size count = .ok (size * count) :=
        mul_of_lt (Nat.lt_trans (Nat.mul_lt_mul'' hsize hcount) (by decide))
      have hloc' := (phLocator_congr htake (Nat.not_lt.mp hmin')).trans hloc
      by_cases hzero : count = 0 ∨ size = 0
      · simp [hmagic, hmin, hmin', hloc, hloc', hzero, checked, Except.mapError, pure, Except.pure,
          bind, Except.bind]
      · simp [hmagic, hmin, hmin', hloc, hloc', hzero, hmul, checked, Except.mapError, bind,
          Except.bind]
  · simp [hmagic, checked, Except.mapError, pure, Except.pure, bind, Except.bind]

/-! ### The table -/

theorem tableOf_spec (h : tableOf bytes = some t) :
    0 < t.entrySize ∧ t.entrySize < 2 ^ 16 ∧ 0 < t.count ∧ t.count < 2 ^ 16 := by
  simp only [tableOf] at h
  split at h
  · cases h
  · next hlong =>
    rw [not_or, Nat.not_lt] at hlong
    obtain ⟨off, size, count, hloc, hsize, hcount⟩ :=
      @phLocator_ok bytes (bytes[5]? == some 1) _ hlong.2
    rw [hloc] at h
    dsimp only at h
    split at h
    · cases h
    · next hzero =>
      obtain rfl := Option.some.inj h
      rw [not_or] at hzero
      exact ⟨Nat.pos_of_ne_zero hzero.2, hsize, Nat.pos_of_ne_zero hzero.1, hcount⟩

variable (t) in
theorem fieldOf_eq (hlen : bytes.length < 2 ^ 63) (i : ℕ) : fieldOf bytes t.offset t.entrySize i =
    if t.Reaches bytes i then some ((bytes.drop (t.offset + i * t.entrySize)).take 4) else none := by
  by_cases h : t.Reaches bytes i
  · have hin : t.offset + i * t.entrySize + 4 ≤ bytes.length := h
    have hmul : checkedMul usizeBits i t.entrySize = some (i * t.entrySize) :=
      checkedMul_of_lt (by rw [usizeBits]; omega)
    have hadd : checkedAdd usizeBits (i * t.entrySize) t.offset =
        some (t.offset + i * t.entrySize) := by
      rw [checkedAdd_of_lt (by rw [usizeBits]; omega), Nat.add_comm]
    have hstop : checkedAdd usizeBits (t.offset + i * t.entrySize) 4 =
        some (t.offset + i * t.entrySize + 4) := checkedAdd_of_lt (by rw [usizeBits]; omega)
    have hrange := range_of_le (Nat.le_add_right (t.offset + i * t.entrySize) 4) hin
    rw [Nat.add_sub_cancel_left] at hrange
    rw [if_pos h]
    simp only [fieldOf, hmul, hadd, hstop, hrange, Option.bind_eq_bind, Option.bind_some]
  · rw [if_neg h, ← Option.not_isSome_iff_eq_none]
    intro hsome
    obtain ⟨field, hfield⟩ := Option.isSome_iff_exists.mp hsome
    simp only [fieldOf, Option.bind_eq_bind, Option.bind_eq_some_iff] at hfield
    obtain ⟨r, hr, start, hstart, stop, hstop, hrange⟩ := hfield
    obtain rfl := eq_of_checkedMul hr
    obtain rfl := eq_of_checkedAdd hstart
    obtain rfl := eq_of_checkedAdd hstop
    have hin := le_of_range hrange
    simp only [Table.Reaches] at h
    omega

variable (t) in
/-- A pass over an entry of the image. -/
theorem scanBytes_eq (hlen : bytes.length < 2 ^ 63) (i : ℕ) :
    scanBytes bytes t.isLe t.offset t.entrySize i () =
      if t.Reaches bytes i then
        if t.typeAt bytes i = ptInterp then .stop (.ok true) else .next ()
      else .stop (.ok false) := by
  rw [scanBytes, fieldOf_eq t hlen]
  by_cases h : t.Reaches bytes i
  · have hfour : 4 ≤ ((bytes.drop (t.offset + i * t.entrySize)).take 4).length := by
      rw [List.length_take, List.length_drop]
      simp only [Table.Reaches] at h
      omega
    simp only [if_pos h, readU32, readUint_eq hfour, List.take_take, Nat.min_self]
    rfl
  · simp only [if_neg h]

/-- A pass over an entry of the table that was read. -/
theorem scanTable_eq (hin : t.offset + t.entrySize * t.count ≤ bytes.length)
    (hsize : t.entrySize < 2 ^ 16) (hi : i < 2 ^ 16) :
    scanTable ((bytes.drop t.offset).take (t.entrySize * t.count)) t.isLe t.entrySize i () =
      if t.Holds i then
        if t.typeAt bytes i = ptInterp then .stop (.ok true) else .next ()
      else .stop (.error (.fault .outOfBounds)) := by
  have hlt : i * t.entrySize < 2 ^ 16 * 2 ^ 16 := Nat.mul_lt_mul'' hi hsize
  have hmul : mul usizeBits i t.entrySize = .ok (i * t.entrySize) :=
    mul_of_lt (by rw [usizeBits]; omega)
  have hadd : add usizeBits (i * t.entrySize) 4 = .ok (i * t.entrySize + 4) :=
    add_of_lt (by rw [usizeBits]; omega)
  have hlen : ((bytes.drop t.offset).take (t.entrySize * t.count)).length =
      t.entrySize * t.count := by
    rw [List.length_take, List.length_drop]
    omega
  by_cases h : t.Holds i
  · have hreach : t.offset + i * t.entrySize + 4 ≤ bytes.length := by
      simp only [Table.Holds] at h
      omega
    have hslice : slice ((bytes.drop t.offset).take (t.entrySize * t.count)) (i * t.entrySize)
        (i * t.entrySize + 4) = .ok ((bytes.drop (t.offset + i * t.entrySize)).take 4) := by
      rw [slice, range_slice h hin, ← Nat.add_assoc,
        range_of_le (Nat.le_add_right ..) hreach, Nat.add_sub_cancel_left, orFault]
    have hfour : 4 ≤ ((bytes.drop (t.offset + i * t.entrySize)).take 4).length := by
      rw [List.length_take, List.length_drop]
      omega
    simp only [if_pos h, scanTable, hmul, hadd, hslice, bind, Except.bind, readU32,
      readUint_eq hfour, List.take_take, Nat.min_self]
    rfl
  · have hslice : slice ((bytes.drop t.offset).take (t.entrySize * t.count)) (i * t.entrySize)
        (i * t.entrySize + 4) = .error .outOfBounds := by
      refine slice_of_lt ?_
      simp only [Table.Holds] at h
      omega
    simp only [if_neg h, scanTable, hmul, hadd, hslice, bind, Except.bind]

/-! ### The scans -/

/-- Both probes answer for every content, the one of the file when it answers as the other. -/
structure ProbesAgree (bytes : List UInt8) : Prop where
  bytes_runs : ∃ b, isDynamicallyLinkedBytes bytes = .ok b
  file_runs : ∀ f, isDynamicallyLinked (.content bytes) ≠ .error (.fault f)
  agree : ∀ b, isDynamicallyLinked (.content bytes) = .ok b → isDynamicallyLinkedBytes bytes = .ok b

/-- A table in the file whose entries are smaller than their type holds an entry of the
interpreter. -/
def SmallEntriesFound (bytes : List UInt8) : Prop :=
  ∀ t ∈ tableOf bytes, t.entrySize < 4 → t.offset + t.entrySize * t.count ≤ bytes.length →
    ∃ i, t.Holds i ∧ t.typeAt bytes i = ptInterp

theorem reaches_pred (h : t.Reaches bytes (i + 1)) : t.Reaches bytes i := by
  simp only [Table.Reaches, Nat.add_mul] at h ⊢
  omega

theorem holds_pred (h : t.Holds (i + 1)) : t.Holds i := by
  simp only [Table.Holds, Nat.add_mul] at h ⊢
  omega

theorem bytes_none (h : tableOf bytes = none) : isDynamicallyLinkedBytes bytes = .ok false := by
  rw [bytes_tableOf, h]

theorem file_none (h : tableOf bytes = none) :
    isDynamicallyLinked (.content bytes) = .ok false := by
  rw [file_tableOf, h]

theorem bytes_some (hlen : bytes.length < 2 ^ 63) (h : tableOf bytes = some t) :
    (∃ i < t.count, t.Reaches bytes i ∧ t.typeAt bytes i = ptInterp) ∧
        isDynamicallyLinkedBytes bytes = .ok true ∨
      (∀ i < t.count, t.Reaches bytes i → t.typeAt bytes i ≠ ptInterp) ∧
        isDynamicallyLinkedBytes bytes = .ok false := by
  rw [bytes_tableOf, h]
  rcases Loop.run_range_cases (n := t.count) (fun i _ => scanBytes_eq t hlen i)
    fun _ => reaches_pred with ⟨hfound, hrun⟩ | ⟨hall, hrun⟩ | ⟨hno, -, hrun⟩
  · exact .inl ⟨hfound, congrArg answer hrun⟩
  · exact .inr ⟨fun i hi _ => (hall i hi).2, congrArg answer hrun⟩
  · exact .inr ⟨hno, congrArg answer hrun⟩

/-- A table that lies in the file is scanned. -/
theorem file_some (hlen : bytes.length < 2 ^ 63) (h : tableOf bytes = some t)
    (hin : t.offset + t.entrySize * t.count ≤ bytes.length) :
    (∃ i < t.count, t.Holds i ∧ t.typeAt bytes i = ptInterp) ∧
        isDynamicallyLinked (.content bytes) = .ok true ∨
      (∀ i < t.count, t.Holds i ∧ t.typeAt bytes i ≠ ptInterp) ∧
        isDynamicallyLinked (.content bytes) = .ok false ∨
      (∀ i < t.count, t.Holds i → t.typeAt bytes i ≠ ptInterp) ∧ (∃ i < t.count, ¬ t.Holds i) ∧
        isDynamicallyLinked (.content bytes) = .error (.fault .outOfBounds) := by
  obtain ⟨-, hsize, -, hcount⟩ := tableOf_spec h
  have hread : readExactAt bytes t.offset (t.entrySize * t.count) =
      .ok ((bytes.drop t.offset).take (t.entrySize * t.count)) := by
    rw [readExactAt, if_neg (by omega), if_pos hin]
  have hfile : isDynamicallyLinked (.content bytes) = answer (Loop.run
      (scanTable ((bytes.drop t.offset).take (t.entrySize * t.count)) t.isLe t.entrySize)
      (List.range t.count) ()) := by
    rw [file_tableOf, h]
    simp only [hread]
    rfl
  rw [hfile]
  rcases Loop.run_range_cases (n := t.count)
    (fun i hi => scanTable_eq hin hsize (Nat.lt_trans hi hcount)) fun _ => holds_pred with
    ⟨hfound, hrun⟩ | ⟨hall, hrun⟩ | ⟨hno, hout, hrun⟩
  · exact .inl ⟨hfound, congrArg answer hrun⟩
  · exact .inr (.inl ⟨hall, congrArg answer hrun⟩)
  · exact .inr (.inr ⟨hno, hout, congrArg answer hrun⟩)

/-- A table that does not lie in the file is not read. -/
theorem file_short (h : tableOf bytes = some t)
    (hout : ¬ t.offset + t.entrySize * t.count ≤ bytes.length) :
    ∃ e, isDynamicallyLinked (.content bytes) = .error (.io e) := by
  have hread : ∃ e, readExactAt bytes t.offset (t.entrySize * t.count) = .error (.io e) := by
    rw [readExactAt, if_neg hout]
    split
    · exact ⟨_, rfl⟩
    · exact ⟨_, rfl⟩
  obtain ⟨e, he⟩ := hread
  refine ⟨e, ?_⟩
  rw [file_tableOf, h]
  simp only [he]
  rfl

theorem lt_of_holds (h : t.Holds i) : i < t.count := by
  by_contra hge
  have hmul := Nat.mul_le_mul_right t.entrySize (Nat.le_of_not_lt hge)
  simp only [Table.Holds] at h
  rw [Nat.mul_comm t.count] at hmul
  omega

/-- Entries of the size of their type all lie in their table, smaller ones do not. -/
theorem holds_iff (hpos : 0 < t.count) : (∀ i < t.count, t.Holds i) ↔ 4 ≤ t.entrySize := by
  obtain ⟨n, hn⟩ := Nat.exists_eq_succ_of_ne_zero (Nat.ne_of_gt hpos)
  have hsize : t.entrySize * t.count = n * t.entrySize + t.entrySize := by
    rw [hn, Nat.mul_comm, Nat.succ_mul]
  constructor
  · intro h
    have hlast := h n (by omega)
    simp only [Table.Holds] at hlast
    omega
  · intro h i hi
    have hmul := Nat.mul_le_mul_right t.entrySize (show i ≤ n by omega)
    simp only [Table.Holds]
    omega

/-- The probe in memory always answers. -/
theorem isDynamicallyLinkedBytes_runs (s : Image) :
    ∃ b, isDynamicallyLinkedBytes s.bytes = .ok b := by
  cases ht : tableOf s.bytes with
  | none => exact ⟨false, bytes_none ht⟩
  | some t =>
    rcases bytes_some s.length_lt ht with ⟨-, h⟩ | ⟨-, h⟩
    · exact ⟨true, h⟩
    · exact ⟨false, h⟩

/-- Where the probe of the file answers, so does the probe in memory. -/
theorem isDynamicallyLinked_agree (s : Image) {b : Bool}
    (h : isDynamicallyLinked (.content s.bytes) = .ok b) :
    isDynamicallyLinkedBytes s.bytes = .ok b := by
  cases ht : tableOf s.bytes with
  | none =>
    rw [file_none ht] at h
    rw [bytes_none ht, Except.ok.inj h]
  | some t =>
    by_cases hin : t.offset + t.entrySize * t.count ≤ s.bytes.length
    · have hreach : ∀ i, t.Holds i → t.Reaches s.bytes i := by
        intro i hi
        simp only [Table.Holds, Table.Reaches] at hi ⊢
        omega
      have hfile := file_some s.length_lt ht hin
      rw [h] at hfile
      rcases hfile with ⟨⟨i, hi, hold, htype⟩, hb⟩ | ⟨hall, hb⟩ | ⟨-, -, hb⟩
      · rcases bytes_some s.length_lt ht with ⟨-, hbytes⟩ | ⟨hno, -⟩
        · rw [hbytes, Except.ok.inj hb]
        · exact absurd htype (hno i hi (hreach i hold))
      · rcases bytes_some s.length_lt ht with ⟨⟨i, hi, -, htype⟩, -⟩ | ⟨-, hbytes⟩
        · exact absurd htype (hall i hi).2
        · rw [hbytes, Except.ok.inj hb]
      · cases hb
    · obtain ⟨e, he⟩ := file_short ht hin
      rw [he] at h
      cases h

/-- The probes run and agree exactly when no table of entries smaller than their type is scanned to
its end. -/
theorem probesAgree_iff (s : Image) : ProbesAgree s.bytes ↔ SmallEntriesFound s.bytes := by
  constructor
  · intro h t ht hsmall hin
    rcases file_some s.length_lt ht hin with ⟨⟨i, -, hfound⟩, -⟩ | ⟨hall, -⟩ | ⟨-, -, hfault⟩
    · exact ⟨i, hfound⟩
    · have hsize := (holds_iff (tableOf_spec ht).2.2.1).mp fun i hi => (hall i hi).1
      omega
    · exact absurd hfault (h.file_runs _)
  · intro h
    refine ⟨isDynamicallyLinkedBytes_runs s, fun f hf => ?_, fun b => isDynamicallyLinked_agree s⟩
    cases ht : tableOf s.bytes with
    | none =>
      rw [file_none ht] at hf
      cases hf
    | some t =>
      by_cases hin : t.offset + t.entrySize * t.count ≤ s.bytes.length
      · rcases file_some s.length_lt ht hin with ⟨-, hok⟩ | ⟨-, hok⟩ | ⟨hno, ⟨i, hi, hout⟩, -⟩
        · rw [hok] at hf
          cases hf
        · rw [hok] at hf
          cases hf
        · by_cases hsmall : t.entrySize < 4
          · obtain ⟨j, hj, htype⟩ := h t ht hsmall hin
            exact hno j (lt_of_holds hj) hj htype
          · exact hout ((holds_iff (tableOf_spec ht).2.2.1).mpr (by omega) i hi)
      · obtain ⟨e, he⟩ := file_short ht hin
        rw [he] at hf
        cases hf

/-- A 32-bit header of little-endian fields, and one byte that it calls its table. -/
def oneByteTable : List UInt8 :=
  magic ++ [1, 1] ++ List.replicate 22 0 ++ [52, 0, 0, 0] ++ List.replicate 10 0 ++ [1, 0, 1, 0] ++
    List.replicate 6 0 ++ [3]

theorem oneByteTable_faults : ¬ ProbesAgree oneByteTable := fun h =>
  h.file_runs .outOfBounds (by decide +kernel)

end Anodizer.Elf
