import Anodizer.Git.Spelling
import Anodizer.Lib.Squeeze

/-! # Lines of a changelog

A changelog is read line by line. Headings open its sections, and the links of
its footer start at the link of the unreleased changes.
-/

namespace Anodizer.Changelog

open Regex
open Template (Text CharTables)
open Git

def trimEnd (s : Text) : Text := s.rdropWhile Template.isWhitespace

def isBlank (line : Text) : Bool := (Template.trim line).isEmpty

/-- A heading of the second level. -/
def isSectionHeading (line : Text) : Bool := "## ".toList.isPrefixOf line

def isTitle (line : Text) : Bool := "# ".toList.isPrefixOf line

/-- The text up to the closing bracket, and the text from there. -/
def upToBracket (s : Text) : Option (Text × Text) :=
  if ']' ∈ s then some (s.takeWhile (· ≠ ']'), s.dropWhile (· ≠ ']')) else none

/-- The label in the brackets of a heading. -/
def headingLabel (line : Text) : Option Text := do
  let rest ← "##".toList.isPrefixOf? (trimEnd line)
  let rest ← ['['].isPrefixOf? (Template.trimStart rest)
  let (label, _) ← upToBracket rest
  some label

/-- The tag of a section heading. -/
def sectionHeadingTag (line : Text) : Option Text := headingLabel line

def isVersionHeading (line version : Text) : Bool := headingLabel line = some version

def eqIgnoreCase (a b : Text) : Bool := a.map Char.toLower = b.map Char.toLower

def isUnreleasedHeading (line : Text) : Bool :=
  ("##".toList.isPrefixOf? (trimEnd line)).any fun rest =>
    eqIgnoreCase (Template.trimStart rest) "[unreleased]".toList

/-- The URL of the link of the unreleased changes. -/
def parseUnreleasedFooter (line : Text) : Option Text := do
  let rest ← ['['].isPrefixOf? (Template.trim line)
  let (label, after) ← upToBracket rest
  if eqIgnoreCase label "unreleased".toList then
    (("]:".toList).isPrefixOf? after).map Template.trim
  else none

def isCodeFence (line : Text) : Bool :=
  let t := Template.trimStart line
  "\x60\x60\x60".toList.isPrefixOf t || "~~~".toList.isPrefixOf t

/-! ### Lines that the release writes -/

def heading (tag date : Text) : Text := "## [".toList ++ (tag ++ ("] - ".toList ++ date))

/-- A reference link. -/
def link (label url : Text) : Text := '[' :: (label ++ ("]: ".toList ++ url))

def unreleasedLink (base tag : Text) : Text :=
  link "Unreleased".toList (base ++ ("/compare/".toList ++ (tag ++ "...HEAD".toList)))

def compareLink (base fromTag tag : Text) : Text :=
  link tag (base ++ ("/compare/".toList ++ (fromTag ++ ("...".toList ++ tag))))

def releaseLink (base tag : Text) : Text := link tag (base ++ ("/releases/tag/".toList ++ tag))

/-! ### Blank lines -/

variable {line tag date : Text}

theorem trimStart_eq_nil {s : Text} :
    Template.trimStart s = [] ↔ ∀ c ∈ s, Template.isWhitespace c := by
  rw [Template.trimStart, List.dropWhile_eq_nil_iff]

theorem isBlank_iff : isBlank line ↔ ∀ c ∈ line, Template.isWhitespace c := by
  rw [isBlank, List.isEmpty_iff, Template.trim, List.reverse_eq_nil_iff, trimStart_eq_nil]
  constructor
  · intro h c hc
    by_contra hws
    have hmem : c ∈ Template.trimStart line := by
      rw [← List.takeWhile_append_dropWhile (p := Template.isWhitespace) (l := line)] at hc
      rcases List.mem_append.mp hc with hc | hc
      · exact absurd (List.mem_takeWhile_imp hc) hws
      · exact hc
    exact hws (h c (List.mem_reverse.mpr hmem))
  · intro h c hc
    exact h c ((List.dropWhile_sublist _).mem (List.mem_reverse.mp hc))

theorem not_isBlank {c : Char} (hc : c ∈ line) (hws : Template.isWhitespace c = false) :
    isBlank line = false := by
  rw [← Bool.not_eq_true, isBlank_iff]
  intro h
  rw [h c hc] at hws
  cases hws

theorem trimEnd_append (s t : Text) {c : Char} (hc : Template.isWhitespace c = false) :
    trimEnd (s ++ c :: t) = s ++ c :: trimEnd t := Squeeze.rdropWhile_append_cons hc s t

/-! ### Reading the lines back -/

theorem upToBracket_append {s t : Text} (h : ']' ∉ s) :
    upToBracket (s ++ ']' :: t) = some (s, ']' :: t) := by
  have hs : ∀ c ∈ s, (decide (c ≠ ']')) = true := by
    intro c hc
    simpa using fun heq : c = ']' => h (heq ▸ hc)
  have hmem : ']' ∈ s ++ ']' :: t := by simp
  rw [upToBracket, if_pos hmem, List.takeWhile_append_of_pos hs, List.dropWhile_append_of_pos hs]
  simp

theorem isSectionHeading_heading (tag date : Text) : isSectionHeading (heading tag date) := rfl

theorem trimEnd_heading (tag date : Text) :
    trimEnd (heading tag date) = "## [".toList ++ (tag ++ "] -".toList ++ trimEnd (' ' :: date)) := by
  have hcut : heading tag date = ("## [".toList ++ tag ++ "] ".toList) ++ '-' :: (' ' :: date) := by
    simp [heading]
  rw [hcut, trimEnd_append _ _ (by decide)]
  simp

/-- The label of a section is its tag. -/
theorem headingLabel_heading (h : ']' ∉ tag) : headingLabel (heading tag date) = some tag := by
  have hcut : tag ++ "] -".toList ++ trimEnd (' ' :: date) =
      tag ++ ']' :: (" -".toList ++ trimEnd (' ' :: date)) := by simp
  rw [headingLabel, trimEnd_heading, hcut]
  simp only [Option.bind_eq_bind]
  show (upToBracket (tag ++ ']' :: (" -".toList ++ trimEnd (' ' :: date)))).bind _ = _
  rw [upToBracket_append h]
  rfl

theorem isUnreleasedHeading_heading (tag date : Text) :
    isUnreleasedHeading (heading tag date) = false := by
  rw [isUnreleasedHeading, trimEnd_heading]
  show eqIgnoreCase _ _ = false
  rw [eqIgnoreCase, decide_eq_false_iff_not]
  intro heq
  have hdash : '-' ∈ ('[' :: (tag ++ "] -".toList ++ trimEnd (' ' :: date))).map Char.toLower := by
    simp
  have hnot : '-' ∉ "[unreleased]".toList.map Char.toLower := by decide
  exact hnot (heq ▸ hdash)

/-- A line that starts with a bracket is no heading. -/
theorem bracket_line {s : Text} : isSectionHeading ('[' :: s) = false ∧ headingLabel ('[' :: s) = none ∧
    isUnreleasedHeading ('[' :: s) = false ∧ isBlank ('[' :: s) = false := by
  have htrim : trimEnd ('[' :: s) = '[' :: trimEnd s := trimEnd_append [] s (by decide)
  refine ⟨rfl, ?_, ?_, not_isBlank List.mem_cons_self (by decide)⟩
  · rw [headingLabel, htrim]
    rfl
  · rw [isUnreleasedHeading, htrim]
    rfl

theorem parse_link {label url : Text} (h : ']' ∉ label) : parseUnreleasedFooter (link label url) =
    if eqIgnoreCase label "unreleased".toList then some (Template.trim (trimEnd (' ' :: url)))
    else none := by
  have hcut : link label url = ('[' :: (label ++ "]".toList)) ++ ':' :: (' ' :: url) := by
    simp [link]
  have htrim : Template.trim (link label url) =
      '[' :: (label ++ ']' :: (':' :: trimEnd (' ' :: url))) := by
    have hstart : Template.trim (link label url) = trimEnd (link label url) := rfl
    rw [hstart, hcut, trimEnd_append _ _ (by decide)]
    simp
  rw [parseUnreleasedFooter, htrim]
  show (upToBracket (label ++ ']' :: (':' :: trimEnd (' ' :: url)))).bind _ = _
  rw [upToBracket_append h]
  rfl

/-- A title is no heading of the second level. -/
theorem title_line (h : isTitle line) : isSectionHeading line = false ∧ headingLabel line = none ∧
    isUnreleasedHeading line = false ∧ isBlank line = false ∧ parseUnreleasedFooter line = none := by
  obtain ⟨s, rfl⟩ := List.isPrefixOf_iff_prefix.mp h
  have htrim : trimEnd ("# ".toList ++ s) = '#' :: trimEnd (' ' :: s) :=
    trimEnd_append [] (' ' :: s) (by decide)
  have hnone : "##".toList.isPrefixOf? (trimEnd ("# ".toList ++ s)) = none := by
    rw [htrim]
    by_cases hs : ∀ c ∈ ' ' :: s, Template.isWhitespace c
    · rw [trimEnd, List.rdropWhile_eq_nil_iff.mpr hs]
      rfl
    · have hpre : trimEnd (' ' :: s) <+: ' ' :: s := List.rdropWhile_prefix _ _
      have hne : trimEnd (' ' :: s) ≠ [] := fun h => hs (List.rdropWhile_eq_nil_iff.mp h)
      obtain ⟨c, t, ht⟩ := List.exists_cons_of_ne_nil hne
      rw [ht] at hpre ⊢
      obtain ⟨rfl, -⟩ := List.cons_prefix_cons.mp hpre
      rfl
  refine ⟨rfl, ?_, ?_, not_isBlank (c := '#') (by simp) (by decide), ?_⟩
  · rw [headingLabel, hnone]
    rfl
  · rw [isUnreleasedHeading, hnone]
    rfl
  · have htrim' : Template.trim ("# ".toList ++ s) = '#' :: trimEnd (' ' :: s) := htrim
    rw [parseUnreleasedFooter, htrim']
    rfl

end Anodizer.Changelog
