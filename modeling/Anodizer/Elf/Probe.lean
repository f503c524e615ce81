import Anodizer.Lib.Checked
import Anodizer.Lib.Loop

/-! # ELF probes

Two probes look for a program header of the interpreter: one in a file, read header first, and one
in an image held in memory. They agree on every image, and only the probe of the file can fault.
-/

namespace Anodizer.Elf

open Checked

/-- The content of a file, no longer than a slice can be. -/
structure Image where
  bytes : List UInt8
  length_lt : bytes.length < 2 ^ 63

/-! ### Fields -/

def ofBytes : List UInt8 → ℕ
  | [] => 0
  | b :: bs => b.toNat + 256 * ofBytes bs

/-- The number that bytes of either order stand for. -/
def decodeUint (bs : List UInt8) (isLe : Bool) : ℕ := ofBytes (if isLe then bs else bs.reverse)

def readUint (width : ℕ) (b : List UInt8) (isLe : Bool) : Result ℕ := do
  let bs ← (List.range width).mapM (index b)
  .ok (decodeUint bs isLe)

def readU16 (b : List UInt8) (isLe : Bool) : Result ℕ := readUint 2 b isLe

def readU32 (b : List UInt8) (isLe : Bool) : Result ℕ := readUint 4 b isLe

def readU64 (b : List UInt8) (isLe : Bool) : Result ℕ := readUint 8 b isLe

/-- The offset of the program headers, the size of one and their number. -/
def phLocator (hdr : List UInt8) (is64bit isLe : Bool) : Result (ℕ × ℕ × ℕ) :=
  if is64bit then do
    let phOffset ← readU64 (← slice hdr 32 40) isLe
    let phEntrySize ← readU16 (← slice hdr 54 56) isLe
    let phCount ← readU16 (← slice hdr 56 58) isLe
    .ok (phOffset, phEntrySize, phCount)
  else do
    let phOffset ← readU32 (← slice hdr 28 32) isLe
    let phEntrySize ← readU16 (← slice hdr 42 44) isLe
    let phCount ← readU16 (← slice hdr 44 46) isLe
    .ok (phOffset, phEntrySize, phCount)

def magic : List UInt8 := [0x7f, 0x45, 0x4c, 0x46]

def minLen (is64bit : Bool) : ℕ := if is64bit then 58 else 46

/-- The type of the program header of the interpreter. -/
def ptInterp : ℕ := 3

/-- The bits of an index. -/
def usizeBits : ℕ := 64

/-! ### The image in memory -/

/-- The type field of an entry, when it lies in the image. -/
def fieldOf (bytes : List UInt8) (phOffset phEntrySize i : ℕ) : Option (List UInt8) := do
  let rel ← checkedMul usizeBits i phEntrySize
  let start ← checkedAdd usizeBits rel phOffset
  let stop ← checkedAdd usizeBits start 4
  range bytes start stop

/-- One pass over an entry: the answer ends the scan. -/
def scanBytes (bytes : List UInt8) (isLe : Bool) (phOffset phEntrySize i : ℕ) (_ : Unit) :
    Loop.Flow Unit (Result Bool) :=
  match fieldOf bytes phOffset phEntrySize i with
  | none => .stop (.ok false)
  | some field =>
    match readU32 field isLe with
    | .error f => .stop (.error f)
    | .ok pType => if pType = ptInterp then .stop (.ok true) else .next ()

/-- What a scan answers that finds nothing. -/
def answer {ε : Type} : Loop.Flow Unit (Except ε Bool) → Except ε Bool
  | .next () => .ok false
  | .stop r => r

def isDynamicallyLinkedBytes (bytes : List UInt8) : Result Bool := do
  if bytes.length < 6 then return false
  if (← slice bytes 0 4) ≠ magic then return false
  let is64bit := (← index bytes 4) == 2
  let isLe := (← index bytes 5) == 1
  if bytes.length < minLen is64bit then return false
  let (phOffset, phEntrySize, phCount) ← phLocator bytes is64bit isLe
  if phCount = 0 ∨ phEntrySize = 0 then return false
  answer (Loop.run (scanBytes bytes isLe phOffset phEntrySize) (List.range phCount) ())

/-! ### The file -/

inductive IoError
  | invalidInput
  | unexpectedEof
  | other (message : String)
  deriving DecidableEq, Repr

inductive Stop
  | fault (f : Fault)
  | io (e : IoError)
  deriving DecidableEq, Repr

/-- What opening the path gives. -/
inductive File
  | notFound
  | unreadable (e : IoError)
  | content (bytes : List UInt8)

abbrev Probe (α : Type) := Except Stop α

def checked {α : Type} (r : Result α) : Probe α := r.mapError .fault

/-- The first read fills the buffer as far as the file goes. -/
def headerBuffer (bytes : List UInt8) : List UInt8 :=
  bytes.take 64 ++ List.replicate (64 - bytes.length) 0

/-- Seek, then fill a buffer. The operating system takes no offset past the signed range. -/
def readExactAt (bytes : List UInt8) (offset len : ℕ) : Probe (List UInt8) :=
  if 2 ^ 63 ≤ offset then .error (.io .invalidInput)
  else if offset + len ≤ bytes.length then .ok ((bytes.drop offset).take len)
  else .error (.io .unexpectedEof)

def scanTable (phBuf : List UInt8) (isLe : Bool) (phEntrySize i : ℕ) (_ : Unit) :
    Loop.Flow Unit (Probe Bool) :=
  let pType := do
    let entryStart ← mul usizeBits i phEntrySize
    let entryStop ← add usizeBits entryStart 4
    readU32 (← slice phBuf entryStart entryStop) isLe
  match pType with
  | .error f => .stop (.error (.fault f))
  | .ok pType => if pType = ptInterp then .stop (.ok true) else .next ()

def isDynamicallyLinked : File → Probe Bool
  | .notFound => .ok false
  | .unreadable e => .error (.io e)
  | .content bytes => do
    let buf := headerBuffer bytes
    let n := min 64 bytes.length
    if (← checked (slice buf 0 4)) ≠ magic then return false
    let is64bit := (← checked (index buf 4)) == 2
    let isLe := (← checked (index buf 5)) == 1
    if n < minLen is64bit then return false
    let (phOffset, phEntrySize, phCount) ← checked (phLocator buf is64bit isLe)
    if phCount = 0 ∨ phEntrySize = 0 then return false
    let totalSize ← checked (mul 64 phEntrySize phCount)
    let phBuf ← readExactAt bytes phOffset totalSize
    answer (Loop.run (scanTable phBuf isLe phEntrySize) (List.range phCount) ())

/-! ### Reading -/

section Reading

variable {b hdr hdr' : List UInt8} {isLe is64bit : Bool} {width : ℕ}

theorem readUint_eq (h : width ≤ b.length) :
    readUint width b isLe = .ok (decodeUint (b.take width) isLe) := by
  rw [readUint, mapM_index h]
  rfl

theorem ofBytes_lt (bs : List UInt8) : ofBytes bs < 256 ^ bs.length := by
  induction bs with
  | nil => exact Nat.one_pos
  | cons b bs ih =>
    have hb := b.toNat_lt
    rw [ofBytes, List.length_cons, Nat.pow_succ]
    omega

theorem decodeUint_lt (bs : List UInt8) (isLe : Bool) : decodeUint bs isLe < 256 ^ bs.length := by
  cases isLe with
  | true => exact ofBytes_lt bs
  | false =>
    have h := ofBytes_lt bs.reverse
    rwa [List.length_reverse] at h

/-- A field of a header that is long enough. -/
theorem read_slice {start : ℕ} (h : start + width ≤ hdr.length) :
    ∃ v < 256 ^ width, (slice hdr start (start + width) >>= fun b => readUint width b isLe) =
      .ok v := by
  have hlen : ((hdr.drop start).take width).length = width := by
    rw [List.length_take, List.length_drop]
    omega
  refine ⟨decodeUint ((hdr.drop start).take width) isLe, ?_, ?_⟩
  · have hlt := decodeUint_lt ((hdr.drop start).take width) isLe
    rwa [hlen] at hlt
  · rw [slice_of_le (Nat.le_add_right ..) h, Nat.add_sub_cancel_left]
    change readUint width _ isLe = _
    rw [readUint_eq (Nat.le_of_eq hlen.symm), List.take_take, Nat.min_self]

/-- The header of an image that is long enough for its class states its table. -/
theorem phLocator_ok (h : minLen is64bit ≤ hdr.length) : ∃ phOffset phEntrySize phCount,
    phLocator hdr is64bit isLe = .ok (phOffset, phEntrySize, phCount) ∧
      phEntrySize < 2 ^ 16 ∧ phCount < 2 ^ 16 := by
  cases is64bit with
  | true =>
    have h : 58 ≤ hdr.length := h
    obtain ⟨off, -, hoff⟩ := @read_slice hdr isLe 8 32 (by omega)
    obtain ⟨size, hsize, hsize'⟩ := @read_slice hdr isLe 2 54 (by omega)
    obtain ⟨count, hcount, hcount'⟩ := @read_slice hdr isLe 2 56 (by omega)
    refine ⟨off, size, count, ?_, hsize, hcount⟩
    simp only [phLocator, if_true, readU64, readU16]
    rw [← bind_assoc, hoff]
    simp only [← bind_assoc, hsize', hcount']
    rfl
  | false =>
    have h : 46 ≤ hdr.length := h
    obtain ⟨off, -, hoff⟩ := @read_slice hdr isLe 4 28 (by omega)
    obtain ⟨size, hsize, hsize'⟩ := @read_slice hdr isLe 2 42 (by omega)
    obtain ⟨count, hcount, hcount'⟩ := @read_slice hdr isLe 2 44 (by omega)
    refine ⟨off, size, count, ?_, hsize, hcount⟩
    simp only [phLocator, Bool.false_eq_true, if_false, readU32, readU16]
    rw [← bind_assoc, hoff]
    simp only [← bind_assoc, hsize', hcount']
    rfl

end Reading

end Anodizer.Elf
