import Anodizer.Lib.FirstDiff
import Anodizer.Lib.Utf8
import Anodizer.Template.StringLit

/-! # Where two runs drift

Each run leaves the first and the last bytes of an artifact. The samples of the first run are
compared with those of the others, and the first difference is reported, with the lines around it if
the artifact is a small text.
-/

namespace Anodizer.Determinism

open Checked
open FirstDiff (findDiff)
open Template (Text)

abbrev Bytes := List UInt8

def newline : UInt8 := 10

/-! ### Samples -/

def headSampleBytes : ℕ := 16 * 1024

def tailSampleBytes : ℕ := 16 * 1024

/-- What a run keeps of an artifact. -/
structure ArtifactInfo where
  headSample : Bytes
  tailSample : Bytes
  sizeBytes : ℕ
  deriving DecidableEq, Repr

/-- Both samples cover every byte of a content that is no longer than they are. -/
def sample (bytes : Bytes) : ArtifactInfo where
  headSample := bytes.take (min bytes.length headSampleBytes)
  tailSample :=
    if bytes.length ≤ headSampleBytes then []
    else bytes.drop (max (bytes.length - tailSampleBytes) headSampleBytes)
  sizeBytes := bytes.length

/-! ### Lines -/

/-- The last index at which a kind of byte stands. -/
def rposition (p : UInt8 → Bool) (l : Bytes) : Option ℕ :=
  (l.reverse.findIdx? p).map fun i => l.length - 1 - i

def reconstructFull (head tail : Bytes) (size : ℕ) : Result (Option Bytes) :=
  if head.length + tail.length < size then .ok none
  else if size < tail.length then .ok none
  else
    let tailStart := size - tail.length
    if head.length < tailStart then .ok none
    else do return some ((← slice head 0 tailStart) ++ tail)

/-- The number of the line at an offset, and the line. -/
def lineAtOffset (bytes : Bytes) (absOffset : ℕ) : Result (ℕ × Bytes) := do
  let clamped := min absOffset (bytes.length - 1)
  let before ← slice bytes 0 (clamped + 1)
  let lineStart := ((rposition (· = newline) before).map (· + 1)).getD 0
  let rest ← slice bytes lineStart bytes.length
  let lineEnd := ((rest.findIdx? (· = newline)).map (lineStart + ·)).getD bytes.length
  let above ← slice bytes 0 lineStart
  let line ← slice bytes lineStart lineEnd
  return (above.count newline + 1, line)

def textExtensions : List Text :=
  [".json".toList, ".txt".toList, ".yaml".toList, ".yml".toList, ".toml".toList, ".csv".toList,
    ".md".toList]

/-! ### Reports -/

/-- The lines of both runs at an offset. -/
abbrev Quote := (ℕ × Bytes) × (ℕ × Bytes)

/-- What is said about the first run and another. -/
inductive Summary
  | firstDiff (run offset : ℕ) (byte₀ byte : UInt8) (quote : Option Quote)
  | headLengths (run length₀ length : ℕ)
  | tailDiff (run offset size : ℕ) (byte₀ byte : UInt8) (quote : Option Quote)
  | sizesDiffer (run headLength tailLength size₀ size : ℕ)
  | sizesEqual (headLength tailLength size : ℕ)
  deriving DecidableEq, Repr

section Summarize

variable (toLowercase : Text → Text)

def looksTextual (name : Text) (head : Bytes) : Bool :=
  textExtensions.any (·.isSuffixOf (toLowercase name)) && !head.contains 0

/-- The lines at an offset, when the artifact is a text that the samples cover. -/
def textDiff (name : Text) (samples : List ArtifactInfo) (idx absOffset : ℕ) :
    Result (Option Quote) := do
  let s₀ ← index samples 0
  let s ← index samples idx
  if ¬ looksTextual toLowercase name s₀.headSample then return none
  match ← reconstructFull s₀.headSample s₀.tailSample s₀.sizeBytes with
  | none => return none
  | some bytes₀ =>
    match ← reconstructFull s.headSample s.tailSample s.sizeBytes with
    | none => return none
    | some bytes => return some (← lineAtOffset bytes₀ absOffset, ← lineAtOffset bytes absOffset)

/-- The runs behind the first one, with their numbers. -/
def others (samples : List ArtifactInfo) : List (ArtifactInfo × ℕ) := samples.tail.zipIdx 1

def headDiff (s₀ : ArtifactInfo) (run : ArtifactInfo × ℕ) :
    Result (Option (ArtifactInfo × ℕ × ℕ)) := do
  let common := min s₀.headSample.length run.1.headSample.length
  return (← findDiff s₀.headSample run.1.headSample (List.range common)).map (run.1, run.2, ·)

def tailDiff (s₀ : ArtifactInfo) (run : ArtifactInfo × ℕ) :
    Result (Option (ArtifactInfo × ℕ × ℕ)) := do
  if run.1.tailSample = [] ∨ run.1.sizeBytes ≠ s₀.sizeBytes ∨
      run.1.tailSample.length ≠ s₀.tailSample.length then return none
  return (← findDiff s₀.tailSample run.1.tailSample (List.range s₀.tailSample.length)).map
    (run.1, run.2, ·)

/-- What is said when the heads agree: a difference in the tails comes first. -/
def summarizeTails (name : Text) (samples : List ArtifactInfo) (s₀ : ArtifactInfo) :
    Option (ArtifactInfo × ℕ × ℕ) → Result Summary
  | some (s, run, inTail) => do
    let absOffset := s₀.sizeBytes - s₀.tailSample.length + inTail
    let byte₀ ← index s₀.tailSample inTail
    let byte ← index s.tailSample inTail
    return .tailDiff run absOffset s₀.sizeBytes byte₀ byte
      (← textDiff toLowercase name samples run absOffset)
  | none =>
    match (others samples).find? (·.1.sizeBytes ≠ s₀.sizeBytes) with
    | some (s, run) =>
      return .sizesDiffer run s₀.headSample.length s₀.tailSample.length s₀.sizeBytes s.sizeBytes
    | none => return .sizesEqual s₀.headSample.length s₀.tailSample.length s₀.sizeBytes

def summarizeSamples (name : Text) (samples : List ArtifactInfo) : Result Summary := do
  let s₀ ← index samples 0
  match ← (others samples).findSomeM? (headDiff s₀) with
  | some (s, run, offset) =>
    let byte₀ ← index s₀.headSample offset
    let byte ← index s.headSample offset
    return .firstDiff run offset byte₀ byte (← textDiff toLowercase name samples run offset)
  | none =>
    match (others samples).find? (·.1.headSample.length ≠ s₀.headSample.length) with
    | some (s, run) => return .headLengths run s₀.headSample.length s.headSample.length
    | none =>
      if s₀.tailSample = [] then summarizeTails toLowercase name samples s₀ none
      else
        summarizeTails toLowercase name samples s₀ (← (others samples).findSomeM? (tailDiff s₀))

end Summarize

/-! ### Messages -/

def truncationEllipsis : Text := "...".toList

/-- The characters that fit in a number of bytes. -/
def fitting : ℕ → Text → Text
  | _, [] => []
  | n, c :: t => if c.utf8Size ≤ n then c :: fitting (n - c.utf8Size) t else []

def truncateWithEllipsis (s : Text) (maxLen : ℕ) : Text :=
  if (Utf8.encode s).length ≤ maxLen then s
  else if maxLen < truncationEllipsis.length then []
  else fitting (maxLen - truncationEllipsis.length) s ++ truncationEllipsis

def hex (n : ℕ) : Text := "0x".toList ++ Nat.toDigits 16 n

def hexByte (b : UInt8) : Text :=
  "0x".toList ++ List.replicate (2 - (Nat.toDigits 16 b.toNat).length) '0' ++
    Nat.toDigits 16 b.toNat

def decimal (n : ℕ) : Text := Nat.toDigits 10 n

section Messages

variable (fromUtf8Lossy : Bytes → Text)

def quoteText (run : ℕ) : Option Quote → Text
  | none => []
  | some ((n₀, line₀), (n, line)) =>
    "\ntext drift detected:\n  run0 line ".toList ++ decimal n₀ ++ ": ".toList ++
      truncateWithEllipsis (fromUtf8Lossy line₀) 240 ++ "\n  run".toList ++ decimal run ++
      " line ".toList ++ decimal n ++ ": ".toList ++ truncateWithEllipsis (fromUtf8Lossy line) 240

def bytesText (run : ℕ) (byte₀ byte : UInt8) : Text :=
  "run0=".toList ++ hexByte byte₀ ++ ", run".toList ++ decimal run ++ "=".toList ++ hexByte byte ++
    ")".toList

def noDiffText (headLength tailLength : ℕ) : Text :=
  "no diff in first ".toList ++ decimal headLength ++ " or last ".toList ++ decimal tailLength ++
    " bytes; ".toList

def unsampledText : Text := " (drift in un-sampled middle)".toList

def Summary.text : Summary → Text
  | firstDiff run offset byte₀ byte quote =>
    "first diff at offset ".toList ++ hex offset ++ " (".toList ++ bytesText run byte₀ byte ++
      quoteText fromUtf8Lossy run quote
  | headLengths run length₀ length =>
    "head samples differ in length: run0=".toList ++ decimal length₀ ++ " bytes, run".toList ++
      decimal run ++ "=".toList ++ decimal length ++ " bytes".toList
  | tailDiff run offset size byte₀ byte quote =>
    "tail diff at offset ".toList ++ hex offset ++ " (size ".toList ++ decimal size ++ ", ".toList ++
      bytesText run byte₀ byte ++ quoteText fromUtf8Lossy run quote
  | sizesDiffer run headLength tailLength size₀ size =>
    noDiffText headLength tailLength ++ "total size run0=".toList ++ decimal size₀ ++ " run".toList ++
      decimal run ++ "=".toList ++ decimal size ++ unsampledText
  | sizesEqual headLength tailLength size =>
    noDiffText headLength tailLength ++ "sizes equal at ".toList ++ decimal size ++ " bytes".toList ++
      unsampledText

/-- The report on an artifact that two or more runs hold. -/
def summarizeDrift (toLowercase : Text → Text) (name : Text)
    (perRunHashes : List (Text → Option ArtifactInfo)) : Result (Option Text) :=
  let samples := perRunHashes.filterMap (· name)
  if samples.length < 2 then .ok none
  else do return some ((← summarizeSamples toLowercase name samples).text fromUtf8Lossy)

end Messages

end Anodizer.Determinism
