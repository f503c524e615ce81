import Anodizer.Lib.BitStream
import Anodizer.Lib.Utf8
import Anodizer.VerifyRelease.Packages

/-! # Hashes in the base 32 of Nix

A hash is spelled in hexadecimal digits, two for each byte. Nix spells it in digits of five bits,
the last digit first.
-/

namespace Anodizer.Nix

open BitStream (bit window unpack)
open Checked
open Template (Text)
open VerifyRelease (Stop checked toDigit)

/-! ### Decoding hexadecimal digits -/

def emptyInteger : Text := "cannot parse integer from empty string".toList

def invalidDigit : Text := "invalid digit found in string".toList

def posOverflow : Text := "number too large to fit in target type".toList

/-- A further digit of base 16 of an unsigned byte. -/
def pushDigit (n : ℕ) (c : Char) : Except Text ℕ :=
  match toDigit c with
  | none => .error invalidDigit
  | some d => if 16 * n + d < 2 ^ 8 then .ok (16 * n + d) else .error posOverflow

/-- `u8::from_str_radix` of base 16, with an optional plus sign. -/
def fromStrRadix (src : Text) : Except Text UInt8 :=
  if src = [] then .error emptyInteger
  else if src = ['+'] then .error invalidDigit
  else ((if src.head? = some '+' then src.tail else src).foldlM pushDigit 0).map UInt8.ofNat

/-- The byte that is spelled at an offset. Slicing inside of a character is a fault. -/
def hexPiece (hex : Text) (i : ℕ) : Except Stop UInt8 := do
  let piece ← checked (orFault .outOfBounds (Utf8.range hex i (i + 2)))
  (fromStrRadix piece).mapError fun e =>
    .failed ("nix: invalid hex at offset ".toList ++ Nat.toDigits 10 i ++ ": ".toList ++ e)

def hexToBytes (hex : Text) : Except Stop (List UInt8) :=
  let len := (Utf8.encode hex).length
  if len % 2 ≠ 0 then
    .error (.failed ("nix: hex string has odd length: '".toList ++ hex ++ "'".toList))
  else (List.range' 0 (len / 2) 2).mapM (hexPiece hex)

/-! ### Encoding in digits of five bits -/

def nixAlphabet : Text := "0123456789abcdfghijklmnpqrsvwxyz".toList

def nixBase32Chars : List UInt8 := Utf8.encode nixAlphabet

/-- The five bits of a digit, taken from a byte and, but for the last byte, from the next one. -/
def nixDigit (bytes : List UInt8) (n : ℕ) : Result UInt8 := do
  let b := n * 5
  let i := b / 8
  let j := b % 8
  let byte ← index bytes i
  let shifted := byte.toUInt16 >>> UInt16.ofNat j
  let c ← if bytes.length - 1 ≤ i then pure shifted
    else do
      let next ← index bytes (i + 1)
      pure (shifted ||| next.toUInt16 <<< UInt16.ofNat (8 - j))
  return c.toUInt8 &&& 0x1f

/-- The digits below a place are written, from the highest one down. -/
def encodeLoop (bytes : List UInt8) (len : ℕ) : ℕ → List UInt8 → Result (List UInt8)
  | 0, out => .ok out
  | n + 1, out => do
    let c ← nixDigit bytes n
    let symbol ← index nixBase32Chars c.toNat
    encodeLoop bytes len n (out.set (len - 1 - n) symbol)

def nixBase32Encode (bytes : List UInt8) : Result Text := do
  let hashSize := bytes.length
  let len := hashSize * 8 / 5 + if hashSize * 8 % 5 = 0 then 0 else 1
  let out ← encodeLoop bytes len len (List.replicate len '0'.toUInt8)
  return (Utf8.decode out).getD []

def hexSha256ToNixBase32 (hex : Text) : Except Stop Text := do
  let bytes ← hexToBytes hex
  if bytes.length ≠ 32 then
    .error (.failed ("nix: expected 32 bytes for SHA256 hash, got ".toList ++
      Nat.toDigits 10 bytes.length ++ " (hex: '".toList ++ hex ++ "')".toList))
  else checked (nixBase32Encode bytes)

end Anodizer.Nix
