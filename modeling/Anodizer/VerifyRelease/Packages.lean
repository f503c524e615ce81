import Anodizer.Elf.Probe
import Anodizer.Git.SemVer
import Anodizer.Lib.Utf8
import Anodizer.Lib.Walk
import Anodizer.Template.StringLit

/-! # Packages of rpm

A package is a lead, a signature header padded to eight bytes, a main header and a payload, which
is a compressed archive of cpio in the newc format. The largest ELF member of the archive is looked
for.
-/

namespace Anodizer.VerifyRelease

open Checked
open Elf (decodeUint usizeBits)
open Template (Text)
open Walk (Next walk)

abbrev Bytes := List UInt8

/-- Why a reader gives up. -/
inductive Stop
  | fault (f : Fault)
  | failed (context : Text)
  deriving DecidableEq, Repr

def checked {α : Type} (r : Result α) : Except Stop α := r.mapError .fault

/-- A missing value is an error with a message. -/
def context {α : Type} (message : String) : Option α → Except Stop α
  | some a => .ok a
  | none => .error (.failed message.toList)

/-! ### Headers -/

def rpmLeadMagic : Bytes := [0xed, 0xab, 0xee, 0xdb]

def rpmHeaderMagic : Bytes := [0x8e, 0xad, 0xe8, 0x01]

def leadLen : ℕ := 96

/-- Four bytes, the highest first. -/
def fromBeBytes (fixed : Bytes) (offset : ℕ) : Result ℕ := do
  let bs ← (List.range 4).mapM fun i => index fixed (offset + i)
  .ok (decodeUint bs false)

/-- The least multiple that is not smaller. -/
def alignUp (k n : ℕ) : Result ℕ := mul usizeBits ((n + k - 1) / k) k

def headerSectionEnd (rpmBytes : Bytes) (start : ℕ) : Except Stop (Option ℕ) := do
  let stop ← checked (add usizeBits start 16)
  match range rpmBytes start stop with
  | none => .ok none
  | some fixed =>
    if (← checked (slice fixed 0 4)) ≠ rpmHeaderMagic then return none
    let nindex ← checked (fromBeBytes fixed 8)
    let hsize ← checked (fromBeBytes fixed 12)
    let sectionEnd ← context "verify-release: rpm header size overflows" do
      let v ← checkedAdd usizeBits start 16
      let v ← checkedAdd usizeBits v (← checkedMul usizeBits nindex 16)
      checkedAdd usizeBits v hsize
    if rpmBytes.length < sectionEnd then return none
    .ok (some sectionEnd)

def findPayload (rpmBytes : Bytes) : Except Stop (Option Bytes) := do
  if ¬ rpmLeadMagic.isPrefixOf rpmBytes ∨ rpmBytes.length < leadLen then return none
  match ← headerSectionEnd rpmBytes leadLen with
  | none => .ok none
  | some sigEnd =>
    let mainStart ← checked (alignUp 8 sigEnd)
    match ← headerSectionEnd rpmBytes mainStart with
    | none => .ok none
    | some payloadStart =>
      if rpmBytes.length ≤ payloadStart then return none
      return some (← checked (slice rpmBytes payloadStart rpmBytes.length))

/-! ### Archives of cpio -/

def headerLen : ℕ := 110

def elfMagic : Bytes := [0x7f, 0x45, 0x4c, 0x46]

/-- The value of a digit of base 16. -/
def toDigit (c : Char) : Option ℕ :=
  if c.isDigit then some (c.toNat - '0'.toNat)
  else if 'a' ≤ c ∧ c ≤ 'f' then some (c.toNat - 'a'.toNat + 10)
  else if 'A' ≤ c ∧ c ≤ 'F' then some (c.toNat - 'A'.toNat + 10)
  else none

def ofDigits (ds : List ℕ) : ℕ := ds.foldl (fun n d => 16 * n + d) 0

/-- A number of base 16, with an optional plus sign. -/
def fromStrRadix (s : Text) : Option ℕ :=
  let digits := if s.head? = some '+' then s.tail else s
  if digits = [] then none
  else ((digits.mapM toDigit).map ofDigits).filter (· < 2 ^ usizeBits)

def hexField (header : Bytes) (idx : ℕ) : Option ℕ := do
  let f ← range header (6 + idx * 8) (6 + (idx + 1) * 8)
  fromStrRadix (← Utf8.decode f)

def cpioMagic (crc : Bool) : Bytes := Utf8.encode (if crc then "070702" else "070701").toList

def trailer : Bytes := Utf8.encode "TRAILER!!!".toList

def isElf (data : Bytes) : Bool := elfMagic.isPrefixOf data

/-- A longer ELF member replaces the best one so far. -/
def better (best : Option Bytes) (data : Bytes) : Option Bytes :=
  if isElf data ∧ best.all (·.length < data.length) then some data else best

/-- One pass of the scan, over the member at a place. -/
def cpioPass (cpio : Bytes) (pos : ℕ) (best : Option Bytes) :
    Result (Next (Option Bytes) (Option Bytes)) := do
  if cpio.length < (← add usizeBits pos headerLen) then return .done best
  let header ← slice cpio pos (pos + headerLen)
  let magic ← slice header 0 6
  if magic ≠ cpioMagic false ∧ magic ≠ cpioMagic true then return .done best
  match hexField header 6, hexField header 11 with
  | some filesize, some namesize =>
    let nameStart ← add usizeBits pos headerLen
    match checkedAdd usizeBits nameStart namesize with
    | none => return .done none
    | some nameEnd =>
      if cpio.length < nameEnd then return .done best
      let name ← slice cpio nameStart nameEnd
      if name = trailer ++ [0] then return .done best
      let dataStart ← alignUp 4 nameEnd
      match checkedAdd usizeBits dataStart filesize with
      | none => return .done none
      | some dataEnd =>
        if cpio.length < dataEnd then return .done best
        let data ← slice cpio dataStart dataEnd
        return .on (← alignUp 4 dataEnd) (better best data)
  | _, _ => return .done none

def largestElfInCpioNewc (cpio : Bytes) : Option (Result (Option Bytes)) :=
  walk (cpioPass cpio) cpio.length 0 none

end Anodizer.VerifyRelease

/-! ## Packages of deb

A package is an archive of ar. Its member data.tar holds the files, compressed in one of several
ways.
-/

namespace Anodizer.VerifyRelease

open Checked
open Elf (usizeBits)
open Template (Text)
open Walk (Next walk)

def arMagic : Bytes := Utf8.encode "!<arch>\n".toList

/-- The decoders of the linked libraries. They may reject their input. -/
structure Codecs where
  gz : Bytes → Option Bytes
  xz : Bytes → Option Bytes
  zst : Bytes → Option Bytes

def decompressDataTar (codecs : Codecs) (name : Text) (member : Bytes) :
    Except Stop (Option Bytes) :=
  if ¬ "data.tar".toList.isPrefixOf name then .ok none
  else if ".gz".toList.isSuffixOf name then
    (context "verify-release: gunzip .deb data.tar.gz" (codecs.gz member)).map some
  else if ".xz".toList.isSuffixOf name then
    (context "verify-release: unxz .deb data.tar.xz" (codecs.xz member)).map some
  else if ".zst".toList.isSuffixOf name then
    (context "verify-release: unzstd .deb data.tar.zst" (codecs.zst member)).map some
  else if name = "data.tar".toList then .ok (some member)
  else .ok none

/-- The name of a member. Bytes that are no text name nothing. -/
def memberName (field : Bytes) : Text :=
  (((Utf8.decode field).getD []).rdropWhile (· = ' ')).rdropWhile (· = '/')

def memberSize (field : Bytes) : Option ℕ :=
  (Utf8.decode field).bind fun s => Git.parseU64 (Template.trim s)

/-- One pass of the scan, over the member at a place. -/
def arPass (codecs : Codecs) (debBytes : Bytes) (pos : ℕ) (_ : Unit) :
    Except Stop (Next Unit (Option Bytes)) := do
  if debBytes.length < (← checked (add usizeBits pos 60)) then return .done none
  let header ← checked (slice debBytes pos (pos + 60))
  let name := memberName (← checked (slice header 0 16))
  let size ← context "verify-release: parse ar member size in .deb"
    (memberSize (← checked (slice header 48 58)))
  let dataStart ← checked (add usizeBits pos 60)
  let dataEnd ← context "verify-release: ar member size overruns .deb"
    ((checkedAdd usizeBits dataStart size).filter (· ≤ debBytes.length))
  let member ← checked (slice debBytes dataStart dataEnd)
  match ← decompressDataTar codecs name member with
  | some decompressed => return .done (some decompressed)
  | none => return .on (← checked (add usizeBits dataEnd (size % 2))) ()

def findDataTar (codecs : Codecs) (debBytes : Bytes) : Option (Except Stop (Option Bytes)) :=
  if ¬ arMagic.isPrefixOf debBytes then some (.ok none)
  else walk (arPass codecs debBytes) debBytes.length arMagic.length ()

end Anodizer.VerifyRelease
