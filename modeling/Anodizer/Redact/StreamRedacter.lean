import Anodizer.Redact.Mask
import Mathlib.Data.List.Find
import Mathlib.Data.List.MinMax

/-! # Masking a stream

A stream comes in chunks that may cut a secret. What could still grow into a secret is withheld
until more of the stream has come, so that the chunks are masked as the whole stream would be.
-/

namespace Anodizer.Redact

open Template (Text)
open Git (byteLength byteLength_append byteLength_pos)

structure StreamRedacter where
  secrets : List (Text × Text)
  maxLen : ℕ
  pending : Text
  prev : Option Char
  deriving DecidableEq, Repr

namespace StreamRedacter

def new (u : RedactTables) (env : List (Text × Text)) : StreamRedacter where
  secrets := secretPairs u env
  maxLen := ((secretPairs u env).map fun kv => byteLength kv.2).foldr max 0
  pending := []
  prev := none

/-- The text is the start of a secret, or all of one. -/
def isIncompleteSecret (r : StreamRedacter) (s : Text) : Bool :=
  byteLength s ≤ r.maxLen &&
    r.secrets.any fun kv => byteLength kv.2 ≥ byteLength s && s.isPrefixOf kv.2

/-- A character of the last bytes of the text could start a secret. -/
def hasIncompleteSuffix (r : StreamRedacter) (s : Text) : Bool :=
  if r.maxLen = 0 then false
  else
    let start := byteLength s - r.maxLen
    (s.tails.filter fun t => t ≠ [] && byteLength s - byteLength t ≥ start).any
      r.isIncompleteSecret

section Methods

variable (u : RedactTables)

def replaceAll (r : StreamRedacter) (s : Text) (prev : Option Char) : Text × Option Char :=
  let masked := maskFrom u s (matchAt r.secrets) (fun _ => false) prev
  (masked.emit, masked.state)

/-- What can be emitted, what is withheld and the character before it. -/
def replacePartial (r : StreamRedacter) (s : Text) : Text × Text × Option Char :=
  if !r.hasIncompleteSuffix s then
    let all := r.replaceAll u s r.prev
    (all.1, [], all.2)
  else
    let masked := maskFrom u s (matchAt r.secrets) r.isIncompleteSecret r.prev
    (masked.emit, masked.rest, masked.state)

/-- The text that can be emitted once the chunk has come. -/
def push (r : StreamRedacter) (chunk : Text) : Text × StreamRedacter :=
  if r.secrets = [] then (chunk, r)
  else
    let out := r.replacePartial u (r.pending ++ chunk)
    (out.1, { r with pending := out.2.1, prev := out.2.2 })

/-- What is still withheld, masked as the end of the stream. -/
def flush (r : StreamRedacter) : Text × StreamRedacter :=
  if r.pending = [] then ([], r)
  else
    let all := r.replaceAll u r.pending r.prev
    (all.1, { r with pending := [], prev := all.2 })

/-- The output of the chunks, and the redacter after them. -/
def pushAll (r : StreamRedacter) : List Text → Text × StreamRedacter
  | [] => ([], r)
  | chunk :: chunks =>
    let out := r.push u chunk
    let rest := pushAll out.2 chunks
    (out.1 ++ rest.1, rest.2)

end Methods

/-! ### One push -/

variable {u : RedactTables} {env : List (Text × Text)} {r : StreamRedacter} {s chunk : Text}

/-- What a redacter keeps: its secrets are not empty, and none is longer than the longest. What it
withholds is the start of a secret. -/
structure Sound (r : StreamRedacter) : Prop where
  nonempty : ∀ kv ∈ r.secrets, kv.2 ≠ []
  le_maxLen : ∀ kv ∈ r.secrets, byteLength kv.2 ≤ r.maxLen
  pending : r.pending = [] ∨ ∃ kv ∈ r.secrets, r.pending <+: kv.2

theorem sound_new : (new u env).Sound where
  nonempty _ h := secretPairs_nonempty h
  le_maxLen _ h := List.le_max_of_le' 0 (List.mem_map_of_mem h) le_rfl
  pending := .inl rfl

theorem isIncompleteSecret_iff (h : r.Sound) :
    r.isIncompleteSecret s ↔ ∃ kv ∈ r.secrets, s <+: kv.2 := by
  have hlen : ∀ {x y : Text}, x <+: y → byteLength x ≤ byteLength y := by
    rintro x - ⟨y, rfl⟩
    rw [byteLength_append]
    exact Nat.le_add_right _ _
  simp only [isIncompleteSecret, Bool.and_eq_true, decide_eq_true_eq, List.any_eq_true,
    List.isPrefixOf_iff_prefix]
  constructor
  · rintro ⟨-, kv, hkv, -, hpre⟩
    exact ⟨kv, hkv, hpre⟩
  · rintro ⟨kv, hkv, hpre⟩
    exact ⟨(hlen hpre).trans (h.le_maxLen kv hkv), kv, hkv, hlen hpre, hpre⟩

/-- A text that starts no secret is decided: what follows it does not change the step. -/
theorem decides (h : r.Sound) :
    Scan.Decides (maskStep u (matchAt r.secrets)) r.isIncompleteSecret := by
  intro prev c cs more hstop
  have hno : ∀ kv ∈ r.secrets, ¬ c :: cs <+: kv.2 := fun kv hkv hpre =>
    Bool.false_ne_true (hstop.symm.trans ((isIncompleteSecret_iff h).mpr ⟨kv, hkv, hpre⟩))
  have hmatch : matchAt r.secrets (c :: (cs ++ more)) = matchAt r.secrets (c :: cs) := by
    refine List.find?_congr fun kv hkv => ?_
    rw [Bool.eq_iff_iff, List.isPrefixOf_iff_prefix, List.isPrefixOf_iff_prefix]
    refine ⟨fun hpre => ?_, fun hpre => hpre.trans (List.prefix_append (c :: cs) more)⟩
    rcases List.prefix_or_prefix_of_prefix hpre (List.prefix_append (c :: cs) more) with hle | hle
    · exact hle
    · exact absurd hle (hno kv hkv)
  rw [maskStep, maskStep, hmatch]
  cases hfound : matchAt r.secrets (c :: cs) with
  | none => rfl
  | some kv =>
    obtain ⟨key, value⟩ := kv
    obtain ⟨hmem, x, hx⟩ := matchAt_some hfound
    have hne : x ≠ [] := by
      rintro rfl
      rw [List.append_nil] at hx
      exact hno _ hmem (hx ▸ List.prefix_refl value)
    have hdrop : (c :: (cs ++ more)).drop value.length = (c :: cs).drop value.length ++ more := by
      rw [← List.cons_append, ← hx, List.append_assoc, List.drop_left, List.drop_left]
    have hhead : ((c :: cs).drop value.length ++ more).head? =
        ((c :: cs).drop value.length).head? := by
      rw [← hx, List.drop_left, List.head?_append_of_ne_nil _ hne]
    simp only [hdrop, hhead]
    split <;> rfl

theorem leavesSuffix (h : r.Sound) : Scan.LeavesSuffix (maskStep u (matchAt r.secrets)) :=
  maskStep_leavesSuffix h.nonempty

/-- The last bytes of the text hold every start of a secret that it could end with. -/
theorem not_incomplete_of_suffix (h : r.Sound) (hno : r.hasIncompleteSuffix s = false) {t : Text}
    (ht : t <:+ s) (hne : t ≠ []) : r.isIncompleteSecret t = false := by
  by_contra hinc
  rw [Bool.not_eq_false] at hinc
  obtain ⟨kv, hkv, -⟩ := (isIncompleteSecret_iff h).mp hinc
  have hpos : 0 < r.maxLen := (byteLength_pos (h.nonempty kv hkv)).trans_le (h.le_maxLen kv hkv)
  have hlen : byteLength t ≤ r.maxLen := by
    rw [isIncompleteSecret, Bool.and_eq_true, decide_eq_true_eq] at hinc
    exact hinc.1
  simp only [hasIncompleteSuffix, if_neg hpos.ne', List.any_eq_false, List.mem_filter,
    List.mem_tails, Bool.and_eq_true, decide_eq_true_eq] at hno
  exact hno t ⟨ht, hne, by omega⟩ hinc

/-- The fast rejection changes nothing. -/
theorem replacePartial_eq (h : r.Sound) : r.replacePartial u s =
    ((maskFrom u s (matchAt r.secrets) r.isIncompleteSecret r.prev).emit,
      (maskFrom u s (matchAt r.secrets) r.isIncompleteSecret r.prev).rest,
      (maskFrom u s (matchAt r.secrets) r.isIncompleteSecret r.prev).state) := by
  rw [replacePartial]
  cases hno : r.hasIncompleteSuffix s with
  | true => rfl
  | false =>
    have hsame : maskFrom u s (matchAt r.secrets) r.isIncompleteSecret r.prev =
        maskFrom u s (matchAt r.secrets) (fun _ => false) r.prev :=
      Scan.scanTo_congr (leavesSuffix h) _ _ fun t ht hne => not_incomplete_of_suffix h hno ht hne
    have hrest := (Scan.scanTo_never (leavesSuffix (u := u) h).shrinks r.prev s).2
    rw [hsame, Bool.not_false, if_pos rfl]
    exact congrArg _ (congrArg (·, _) hrest.symm)

/-- The masking of what the redacter withholds and of what is to come. -/
def whole (u : RedactTables) (r : StreamRedacter) (rest : Text) : Text :=
  Scan.scan (maskStep u (matchAt r.secrets)) r.prev (r.pending ++ rest)

theorem whole_of_no_secrets (h : r.secrets = []) (rest : Text) :
    whole u r rest = r.pending ++ rest := by
  rw [whole, h]
  exact scan_no_secrets r.prev _

theorem flush_eq_whole (h : r.Sound) : (r.flush u).1 = whole u r [] := by
  rw [flush, whole, List.append_nil]
  split
  · next hnil => rw [hnil, Scan.scan_nil]
  · exact (Scan.scanTo_never (leavesSuffix h).shrinks _ _).1

theorem flush_flush : ((r.flush u).2.flush u).1 = [] := by
  have hpending : (r.flush u).2.pending = [] := by
    rw [flush]
    split
    · assumption
    · rfl
  rw [flush, if_pos hpending]

/-- A push emits the masking up to where it stops, and leaves the rest of it to do. -/
theorem push_whole (h : r.Sound) (rest : Text) :
    (r.push u chunk).1 ++ whole u (r.push u chunk).2 rest = whole u r (chunk ++ rest) := by
  rw [push]
  split
  · next hnone =>
    have hpending : r.pending = [] := by
      refine h.pending.resolve_right ?_
      rintro ⟨kv, hkv, -⟩
      rw [hnone] at hkv
      exact absurd hkv List.not_mem_nil
    rw [whole_of_no_secrets hnone, whole_of_no_secrets hnone, hpending]
    rfl
  · have hscan := Scan.scan_append_of_decides (leavesSuffix (u := u) h).shrinks (decides h) rest
      r.prev (r.pending ++ chunk)
    rw [replacePartial_eq h]
    rw [List.append_assoc] at hscan
    exact hscan.symm

theorem push_secrets : (r.push u chunk).2.secrets = r.secrets := by
  rw [push]
  split <;> rfl

theorem Sound.push (h : r.Sound) : (r.push u chunk).2.Sound := by
  rw [StreamRedacter.push]
  split
  · exact h
  · refine ⟨h.nonempty, h.le_maxLen, ?_⟩
    rw [replacePartial_eq h]
    have hrest : (maskFrom u (r.pending ++ chunk) (matchAt r.secrets) r.isIncompleteSecret
        r.prev).rest = [] ∨ _ := Scan.scanTo_rest (leavesSuffix h).shrinks _ _
    rcases hrest with hnil | hstop
    · exact .inl hnil
    · exact .inr ((isIncompleteSecret_iff h).mp hstop)

/-! ### The stream -/

theorem pushAll_whole (h : r.Sound) (chunks : List Text) (rest : Text) :
    (r.pushAll u chunks).1 ++ whole u (r.pushAll u chunks).2 rest =
      whole u r (chunks.flatten ++ rest) := by
  induction chunks generalizing r with
  | nil => rfl
  | cons chunk chunks ih =>
    rw [pushAll, List.append_assoc, ih h.push, List.flatten_cons, List.append_assoc, push_whole h]

theorem Sound.pushAll (h : r.Sound) (chunks : List Text) : (r.pushAll u chunks).2.Sound := by
  induction chunks generalizing r with
  | nil => exact h
  | cons chunk chunks ih => exact ih h.push

theorem pushAll_secrets (chunks : List Text) : (r.pushAll u chunks).2.secrets = r.secrets := by
  induction chunks generalizing r with
  | nil => rfl
  | cons chunk chunks ih => exact ih.trans push_secrets

theorem string_eq_whole (env : List (Text × Text)) (input : Text) :
    string u input env = whole u (new u env) input :=
  string_eq_scan env input

/-- A stream is masked as the whole text is, however it is cut into chunks. After every push, what
is withheld is no longer than a secret. -/
theorem stream_eq_string (u : RedactTables) (env : List (Text × Text)) (chunks : List Text) :
    let out := (new u env).pushAll u chunks
    out.1 ++ (out.2.flush u).1 = string u chunks.flatten env ∧
      ((out.2.flush u).2.flush u).1 = [] ∧
      (out.2.pending = [] ∨ ∃ kv ∈ secretPairs u env, byteLength out.2.pending ≤ byteLength kv.2) := by
  have hsound : ((new u env).pushAll u chunks).2.Sound := sound_new.pushAll chunks
  refine ⟨?_, flush_flush, hsound.pending.imp_right ?_⟩
  · rw [flush_eq_whole hsound, pushAll_whole sound_new, List.append_nil, string_eq_whole]
  · rintro ⟨kv, hkv, x, hx⟩
    rw [pushAll_secrets] at hkv
    refine ⟨kv, hkv, ?_⟩
    rw [← hx, byteLength_append]
    exact Nat.le_add_right _ _

example : ((new .ascii [("API_KEY".toList, "abcdefgh".toList)]).pushAll .ascii
    ["value abcd".toList, "efgh done".toList]).1 = "value $API_KEY done".toList := by decide +kernel

end StreamRedacter

end Anodizer.Redact
