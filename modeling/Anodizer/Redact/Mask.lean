import Anodizer.Git.FamilyMembership
import Anodizer.Git.SemVer
import Anodizer.Lib.Scan
import Mathlib.Data.List.Infix
import Mathlib.Data.List.Sort

/-! # Masking secrets

The values of the environment that look like credentials are replaced by the names of their
variables, wherever they stand alone or are too long to stand somewhere by accident.
-/

namespace Anodizer.Redact

open Template (Text)
open Git (byteLength)

/-- The character tables the heuristics use. -/
structure RedactTables where
  alphanumeric : Char → Bool
  uppercase : Char → Text
  alphanumeric_ascii : ∀ c, c.toNat < 128 → alphanumeric c = c.isAlphanum
  uppercase_ascii : ∀ c, c.toNat < 128 → uppercase c = [c.toUpper]

/-- Tables that know the ASCII characters only. -/
def RedactTables.ascii : RedactTables where
  alphanumeric := Char.isAlphanum
  uppercase c := [c.toUpper]
  alphanumeric_ascii _ _ := rfl
  uppercase_ascii _ _ := rfl

/-! ### The secrets -/

def secretKeySuffixes : List Text :=
  ["_KEY".toList, "_SECRET".toList, "_PASSWORD".toList, "_TOKEN".toList, "_PASSPHRASE".toList]

def secretKeySubstrings : List Text := ["CREDENTIAL".toList, "APIKEY".toList]

def secretValuePrefixes : List Text :=
  ["sk-".toList, "ghp_".toList, "ghs_".toList, "gho_".toList, "ghu_".toList, "github_pat_".toList,
    "dckr_pat_".toList, "glpat-".toList, "AIza".toList, "ya29.".toList, "xox".toList]

/-- A flag, which is no credential whatever its key. -/
def isBooleanShape (value : Text) : Bool :=
  value.map Char.toLower ∈ ["true".toList, "false".toList, "yes".toList, "no".toList, "on".toList,
    "off".toList, "0".toList, "1".toList]

section Secrets

variable (u : RedactTables)

def isSecretEnv (key value : Text) : Bool :=
  if value = [] then false
  else
    let keyUpper := key.flatMap u.uppercase
    if !isBooleanShape value && (secretKeySuffixes.any (·.isSuffixOf keyUpper) ||
        secretKeySubstrings.any (· <:+: keyUpper)) then true
    else secretValuePrefixes.any (·.isPrefixOf value)

/-- The longer value first, and of values of one length the one of the smaller key. -/
def comparePairs (a b : Text × Text) : Ordering :=
  (cmp (byteLength b.2) (byteLength a.2)).then (cmp a.1 b.1)

def secretPairs (env : List (Text × Text)) : List (Text × Text) :=
  (env.filter fun kv => kv.2 ≠ [] && isSecretEnv u kv.1 kv.2).insertionSort
    fun a b => comparePairs a b ≠ .gt

/-! ### Masking -/

def isWordChar (c : Char) : Bool := u.alphanumeric c || c == '_'

def alwaysMaskLen : ℕ := 8

def edgeOk (edge valueEdge : Option Char) : Bool :=
  !valueEdge.any (isWordChar u) || !edge.any (isWordChar u)

/-- An occurrence may be masked if it is long, or no part of a longer word. -/
def standsAlone (before : Option Char) (value : Text) (after : Option Char) : Bool :=
  if value.length ≥ alwaysMaskLen then true
  else edgeOk u before value.head? && edgeOk u after value.getLast?

/-- One step of the masking: a secret that may be masked, or one character. -/
def maskStep (secrets : Text → Option (Text × Text)) (prev : Option Char) (c : Char) (cs : Text) :
    Scan.Step (Option Char) Char Char :=
  match secrets (c :: cs) with
  | some (key, value) =>
    if standsAlone u prev value ((c :: cs).drop value.length).head? then
      ⟨'$' :: key, value.getLast?, (c :: cs).drop value.length⟩
    else ⟨[c], some c, cs⟩
  | none => ⟨[c], some c, cs⟩

/-- What is masked, the character before what is left, and what is left. -/
def maskFrom (input : Text) (secrets : Text → Option (Text × Text)) (stop : Text → Bool)
    (before : Option Char) : Scan.Stopped (Option Char) Char Char :=
  Scan.scanTo (maskStep u secrets) stop before input

/-- The first of the secrets that the text starts with. -/
def matchAt (secrets : List (Text × Text)) (rest : Text) : Option (Text × Text) :=
  secrets.find? fun kv => kv.2.isPrefixOf rest

/-- Secret values are replaced by `$` and their keys. -/
def string (input : Text) (env : List (Text × Text)) : Text :=
  let secrets := secretPairs u env
  if secrets = [] then input
  else (maskFrom u input (matchAt secrets) (fun _ => false) none).emit

end Secrets

example : string .ascii "token sk-live12 in task-1".toList
    [("A".toList, "sk-live12".toList), ("SHORT_KEY".toList, "sk".toList)] =
      "token $A in task-1".toList := by decide +kernel

/-! ### Steps -/

section Steps

variable {u : RedactTables} {env secrets : List (Text × Text)} {key value rest : Text}

theorem mem_secretPairs {kv : Text × Text} :
    kv ∈ secretPairs u env ↔ kv ∈ env ∧ kv.2 ≠ [] ∧ isSecretEnv u kv.1 kv.2 := by
  simp [secretPairs, List.mem_insertionSort]

theorem secretPairs_nonempty {kv : Text × Text} (h : kv ∈ secretPairs u env) : kv.2 ≠ [] :=
  (mem_secretPairs.mp h).2.1

theorem matchAt_some (h : matchAt secrets rest = some (key, value)) :
    (key, value) ∈ secrets ∧ value <+: rest :=
  ⟨List.mem_of_find?_eq_some h, List.isPrefixOf_iff_prefix.mp (by simpa using List.find?_some h)⟩

/-- A step leaves an end of its input. -/
theorem maskStep_leavesSuffix (h : ∀ kv ∈ secrets, kv.2 ≠ []) :
    Scan.LeavesSuffix (maskStep u (matchAt secrets)) := by
  intro prev c cs
  rw [maskStep]
  split
  · next key value hmatch =>
    obtain ⟨hmem, -⟩ := matchAt_some hmatch
    split
    · obtain ⟨d, ds, hd⟩ := List.exists_cons_of_ne_nil (h _ hmem)
      have hvalue : value = d :: ds := hd
      rw [hvalue, List.length_cons, List.drop_succ_cons]
      exact List.drop_suffix _ _
    · exact List.suffix_refl cs
  · exact List.suffix_refl cs

theorem maskStep_shrinks : Scan.Shrinks (maskStep u (matchAt (secretPairs u env))) :=
  (maskStep_leavesSuffix fun _ h => secretPairs_nonempty h).shrinks

/-- Without secrets nothing is masked. -/
theorem scan_no_secrets (prev : Option Char) (input : Text) :
    Scan.scan (maskStep u (matchAt [])) prev input = input := by
  refine Scan.scan_copies (I := fun _ _ => True) (fun prev c cs _ => ?_) trivial
  exact ⟨rfl, Nat.le_refl _, trivial⟩

theorem string_eq_scan (env : List (Text × Text)) (input : Text) :
    string u input env = Scan.scan (maskStep u (matchAt (secretPairs u env))) none input := by
  rw [string]
  split
  · next hnone =>
    rw [hnone]
    exact (scan_no_secrets none input).symm
  · exact (Scan.scanTo_never maskStep_shrinks none input).1

end Steps

end Anodizer.Redact
