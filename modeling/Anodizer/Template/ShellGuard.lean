import Anodizer.Lib.Replace
import Anodizer.Template.StringLit

/-! # Lengths of shell parameters

Tera reads `{#` as the start of a comment, so the `${#` of a shell is replaced by a mark
while a template renders, and put back afterwards.
-/

namespace Anodizer.Template

open Replace (replace)

def shellParamlen : Text := ['$', '\x7b', '#']

def shellParamlenMark : Replace.Mark shellParamlen where
  edge := Char.ofNat 0xE000
  inner := "ANODIZER_SHELL_PARAMLEN".toList
  edge_not_mem_inner := by decide +kernel
  edge_not_mem_needle := by decide
  needle_ne_nil := by decide
  head_not_mem_inner := by
    rintro a ⟨⟩
    decide +kernel

/-- The mark that stands for `${#` while a template renders. -/
def shellParamlenSentinel : Text := shellParamlenMark.text

/-- Replace every `${#` by the mark. A template that holds the mark already is refused. -/
def protectShellParamLength (s : Text) : Except Text Text :=
  if contains s shellParamlenSentinel then
    .error "template contains the reserved shell-guard sentinel".toList
  else if contains s shellParamlen then .ok (replace shellParamlen shellParamlenSentinel s)
  else .ok s

/-- Replace every mark by `${#`. -/
def restoreShellParamLength (s : Text) : Text :=
  if contains s shellParamlenSentinel then replace shellParamlenSentinel shellParamlen s else s

variable {s p needle new : Text}

theorem contains_iff_mem : contains s needle ↔ needle <:+: s := by
  rw [contains, List.any_eq_true, List.infix_iff_prefix_suffix]
  simp only [List.mem_tails, List.isPrefixOf_iff_prefix]
  exact exists_congr fun t => and_comm

theorem replace_of_not_contains (h : ¬ contains s needle) :
    replace needle new s = s := by
  rw [contains_iff_mem] at h
  induction s with
  | nil => rfl
  | cons a s ih =>
    rw [List.infix_cons_iff, not_or] at h
    rw [Replace.replace_cons h.1, ih h.2]

/-- A template without the mark is accepted, and every `${#` in it is replaced. -/
theorem protectShellParamLength_eq_ok : protectShellParamLength s = .ok p ↔
    ¬ contains s shellParamlenSentinel ∧ replace shellParamlen shellParamlenSentinel s = p := by
  unfold protectShellParamLength
  split
  · next h => simp [h]
  · next h =>
    split
    · simp [h]
    · next hnone =>
      rw [replace_of_not_contains hnone]
      simp [h]

theorem restoreShellParamLength_eq :
    restoreShellParamLength s = replace shellParamlenSentinel shellParamlen s := by
  unfold restoreShellParamLength
  split
  · rfl
  · next h => exact (replace_of_not_contains h).symm

/-- The mark without its last character, in front of a `${#`. -/
def halfSentinelParamlen : Text := shellParamlenMark.half ++ shellParamlen

/-- What was protected is restored exactly where no `${#` completes a mark that the template
holds but for its last character. -/
theorem restore_protected_iff (h : protectShellParamLength s = .ok p) :
    restoreShellParamLength p = s ↔ ¬ contains s halfSentinelParamlen := by
  obtain ⟨hfree, rfl⟩ := protectShellParamLength_eq_ok.mp h
  rw [restoreShellParamLength_eq, contains_iff_mem]
  exact shellParamlenMark.restore_iff (contains_iff_mem.not.mp hfree)

example : protectShellParamLength "n=$\x7b#f[@]\x7d".toList =
    .ok ("n=".toList ++ shellParamlenSentinel ++ "f[@]\x7d".toList) := by decide

theorem restore_protected_loop :
    restoreShellParamLength ("(( ".toList ++ shellParamlenSentinel ++ "f[@]\x7d ))".toList) =
      "(( $\x7b#f[@]\x7d ))".toList :=
  (restore_protected_iff (s := "(( $\x7b#f[@]\x7d ))".toList) (by decide)).mpr (by decide)

/-- A template that is accepted and not restored. -/
theorem restore_half_sentinel : ∃ s p, protectShellParamLength s = .ok p ∧
    restoreShellParamLength p ≠ s :=
  ⟨halfSentinelParamlen, _, rfl, by decide⟩

end Anodizer.Template
