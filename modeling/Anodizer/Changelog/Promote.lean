import Anodizer.Changelog.Headings
import Anodizer.Lib.Lines

/-! # Promoting a section

The section of a new tag is slotted among the dated sections of the root
changelog, and the links of the footer are rolled.
-/

namespace Anodizer.Changelog

open Regex
open Template (Text CharTables)
open Git

inductive Chronology
  | date
  | tag
  deriving DecidableEq, Repr

/-! ### Slots -/

section Slots

variable (u : CharTables)

def versionCoreRe : Re :=
  .cat [digitsRe u, .lit ".", digitsRe u, .opt (.cat [.lit ".", digitsRe u]),
    .opt (.cat [.char fun c => c == '-' || c == '+', .star true notNewline]), .textEnd]

/-- The text of a tag before its version. -/
def tagPrefix (anchor : Text) : Text :=
  match (findIter (versionCoreRe u) anchor).head? with
  | some m => anchor.take (anchor.length - (m.text ++ m.rest).length)
  | none => anchor

example : tagPrefix .ascii "py3-v1.2.3".toList = "py3-v".toList := by decide +kernel
example : tagPrefix .ascii "release-2024.01.0".toList = "release-".toList := by decide +kernel

/-- A new tag goes before an existing one of a later prefix, or of an older version. -/
def goesBefore (tag existingTag : Text) : Bool :=
  match cmp (tagPrefix u tag) (tagPrefix u existingTag) with
  | .lt => true
  | .gt => false
  | .eq =>
    match parseSemverTag u tag, parseSemverTag u existingTag with
    | some nv, some ev => nv.compare ev = .gt
    | some _, none => true
    | none, _ => cmp tag existingTag = .gt

/-- The headings of the sections, with their places. -/
def headingIdxs (sections : List Text) : List (Text × ℕ) :=
  sections.zipIdx.filter fun li => isSectionHeading li.1

def tagInsertIndex (sections : List Text) (tag : Text) : ℕ :=
  (((headingIdxs sections).find? fun li =>
    (sectionHeadingTag li.1).any (goesBefore u tag)).map (·.2)).getD sections.length

/-- The promoted section among the sections there are. -/
def slotSections (sections promoted : List Text) (tag : Text) (chronology : Chronology) :
    List Text :=
  let insertAt := match chronology with
    | .date => ((headingIdxs sections).head?.map (·.2)).getD sections.length
    | .tag => tagInsertIndex u sections tag
  sections.take insertAt ++ promoted ++ sections.drop insertAt

end Slots

/-! ### The footer -/

def pushCompareFooter (base oldAnchor newTag toVersion : Text) : List Text :=
  [unreleasedLink base newTag,
    link toVersion (base ++ ("/compare/".toList ++ (oldAnchor ++ ("...".toList ++ newTag))))]

/-- The links that a release adds. -/
def rolledLinks (base tag : Text) : Option Text → List Text
  | some f => pushCompareFooter base f tag tag
  | none => [unreleasedLink base tag, releaseLink base tag]

/-- The links of a release come first, then those there are. -/
def pushRootFooter (out footer : List Text) (tag : Text) (fromTag base : Option Text) : List Text :=
  match base with
  | none => out ++ footer
  | some base =>
    out.rdropWhile isBlank ++ [] :: rolledLinks base tag fromTag ++
      footer.filter fun line => (parseUnreleasedFooter line).isNone

def notFooter (line : Text) : Bool := (parseUnreleasedFooter line).isNone

/-- The sections end where the footer starts. -/
def appendSlottedSection (u : CharTables) (out tail promoted : List Text) (tag : Text)
    (fromTag : Option Text) (chronology : Chronology) (base : Option Text) : List Text :=
  pushRootFooter
    (out ++ slotSections u (tail.takeWhile notFooter) promoted tag chronology)
    (tail.dropWhile notFooter) tag fromTag base

/-! ### The end of the file -/

/-- The lines kept so far, the run of blank lines at their end, and whether a fence is open. -/
structure Collapse where
  out : List Text
  blanks : ℕ
  inFence : Bool

def Collapse.push (s : Collapse) (line : Text) : Collapse :=
  if isCodeFence line then ⟨s.out ++ [line], 0, !s.inFence⟩
  else if !s.inFence && isBlank line then
    ⟨if 2 ≤ s.blanks + 1 then s.out else s.out ++ [[]], s.blanks + 1, s.inFence⟩
  else ⟨s.out ++ [line], if isBlank line then s.blanks else 0, s.inFence⟩

/-- The lines without the runs of blank lines, those in a fence apart. -/
def collapsed (lines : List Text) : List Text :=
  let s := lines.foldl Collapse.push ⟨[], 0, false⟩
  if s.inFence then s.out else s.out.rdropWhile isBlank

def finish (lines : List Text) (trailingNewline : Bool) : Text :=
  ['\n'].intercalate (collapsed lines) ++ if trailingNewline then ['\n'] else []

/-! ### Promotion -/

structure MultitrackPromoteArgs where
  existing : Option Text
  h1 : Text
  crateName : Text
  tag : Text
  fromTag : Option Text
  chronology : Chronology
  generatedBody : Text
  base : Option Text

/-- The section of a tag: its heading, its body and a blank line. -/
def buildPromotedSection (today : Except Text Text) (tag body : Text) : Except Text (List Text) :=
  today.map fun date => heading tag date :: Lines.lines body ++ [[]]

/-- Cut a list after the first element of a kind. -/
def cutAfter {α : Type*} (p : α → Bool) : List α → Option (List α × List α)
  | [] => none
  | a :: l => if p a then some ([a], l) else (cutAfter p l).map fun ht => (a :: ht.1, ht.2)

theorem cutAfter_cases {α : Type*} {p : α → Bool} (l : List α) :
    cutAfter p l = none ∧ (∀ a ∈ l, p a = false) ∨
      ∃ init a rest, cutAfter p l = some (init ++ [a], rest) ∧ l = init ++ a :: rest ∧ p a ∧
        ∀ x ∈ init, p x = false := by
  induction l with
  | nil => exact .inl ⟨rfl, by simp⟩
  | cons a l ih =>
    by_cases ha : p a
    · exact .inr ⟨[], a, l, by simp [cutAfter, ha], rfl, ha, by simp⟩
    · rw [Bool.not_eq_true] at ha
      rcases ih with ⟨hnone, hl⟩ | ⟨init, a', rest, hsome, rfl, ha', hinit⟩
      · exact .inl ⟨by simp [cutAfter, ha, hnone], List.forall_mem_cons.mpr ⟨ha, hl⟩⟩
      · exact .inr ⟨a :: init, a', rest, by simp [cutAfter, ha, hsome], rfl, ha',
          List.forall_mem_cons.mpr ⟨ha, hinit⟩⟩

/-- The root changelog with the section of the tag, or nothing when there is nothing to release.
A root with unreleased changes is left to `promoteSubsection`. -/
def promoteMultitrackSection (u : CharTables) (today : Except Text Text)
    (promoteSubsection : MultitrackPromoteArgs → Except Text (Option Text))
    (args : MultitrackPromoteArgs) : Except Text (Option Text) :=
  if args.existing.any fun e => (Lines.lines e).any isUnreleasedHeading then promoteSubsection args
  else if args.generatedBody = [] then .ok none
  else
    let existing := args.existing.getD []
    let lines := Lines.lines existing
    if lines.any (isVersionHeading · args.tag) then .ok (some existing)
    else
      let (head, rest) := (cutAfter isTitle lines).getD ([args.h1], lines)
      let tail := rest.dropWhile isBlank
      (buildPromotedSection today args.tag args.generatedBody).map fun promoted =>
        let out := appendSlottedSection u (head ++ [[]]) tail promoted args.tag args.fromTag
          args.chronology args.base
        some (finish out (existing.isEmpty || existing.getLast? = some '\n'))

/-! ### Runs of blank lines -/

section Collapsed

variable {line : Text}

/-- The lines up to the length of their runs of blank lines. -/
def squeezed (ls : List Text) : List Text := Squeeze.squeeze isBlank [] ls

/-- A blank line counts as one more of the run at the end. -/
def Collapse.pad (s : Collapse) : List Text := if s.blanks = 0 then [] else [[]]

theorem squeezed_congr (a : List Text) {l l' : List Text} (h : squeezed l' = squeezed l) :
    squeezed (a ++ l') = squeezed (a ++ l) := Squeeze.squeeze_congr a h

theorem squeezed_blank_blank (hb : isBlank line) (l : List Text) :
    squeezed ([] :: line :: l) = squeezed ([] :: l) := Squeeze.squeeze_gap_gap rfl rfl hb l

/-- What a line adds, and that it only shortens a run of blank lines. -/
theorem Collapse.push_spec (s : Collapse) (line : Text) : ∃ added,
    (s.push line).out = s.out ++ added ∧ (∀ x ∈ added, x = [] ∨ x = line) ∧
      ∀ l l', squeezed ((s.push line).pad ++ l') = squeezed ((s.push line).pad ++ l) →
        squeezed (s.pad ++ (added ++ l')) = squeezed (s.pad ++ line :: l) := by
  obtain ⟨out, blanks, inFence⟩ := s
  by_cases hfence : isCodeFence line
  · refine ⟨[line], by simp [push, hfence], by simp, fun l l' h => ?_⟩
    simp only [push, hfence, if_true, pad, List.nil_append] at h
    exact squeezed_congr _ (squeezed_congr [line] h)
  by_cases hb : isBlank line
  · cases inFence with
    | true =>
      refine ⟨[line], by simp [push, hfence], by simp, fun l l' h => ?_⟩
      by_cases hk : blanks = 0
      · have h' : squeezed l' = squeezed l := by simpa [push, hfence, hb, hk, pad] using h
        exact squeezed_congr _ (squeezed_congr [line] h')
      · have h' : squeezed ([] :: l') = squeezed ([] :: l) := by
          simpa [push, hfence, hb, hk, pad] using h
        simp only [pad, hk, if_false]
        exact (squeezed_blank_blank hb l').trans (h'.trans (squeezed_blank_blank hb l).symm)
    | false =>
      by_cases hk : blanks = 0
      · refine ⟨[[]], by simp [push, hfence, hb, hk], by simp, fun l l' h => ?_⟩
        have hgap : squeezed (line :: l) = squeezed ([] :: l) := Squeeze.squeeze_gap hb rfl l
        simpa [push, hfence, hb, hk, pad, hgap] using h
      · refine ⟨[], ?_, by simp, fun l l' h => ?_⟩
        · simp [push, hfence, hb, show 2 ≤ blanks + 1 by omega]
        · have hgap := squeezed_blank_blank hb l
          simpa [push, hfence, hb, hk, pad, hgap] using h
  · refine ⟨[line], by simp [push, hfence, hb], by simp, fun l l' h => ?_⟩
    have h' : squeezed l' = squeezed l := by simpa [push, hfence, hb, pad] using h
    exact squeezed_congr _ (squeezed_congr [line] h')

/-- Collapsing changes only the length of the runs of blank lines. -/
theorem foldl_push (l : List Text) (s : Collapse) : ∃ l', (l.foldl Collapse.push s).out =
    s.out ++ l' ∧ squeezed (s.pad ++ l') = squeezed (s.pad ++ l) ∧
      ∀ line ∈ l', line = [] ∨ line ∈ l := by
  induction l generalizing s with
  | nil => exact ⟨[], by simp, rfl, by simp⟩
  | cons line l ih =>
    obtain ⟨added, hout, hadded, hpush⟩ := s.push_spec line
    obtain ⟨l', hout', hsqueezed, hl'⟩ := ih (s.push line)
    refine ⟨added ++ l', by rw [List.foldl_cons, hout', hout, List.append_assoc],
      hpush l l' hsqueezed, fun x hx => ?_⟩
    rcases List.mem_append.mp hx with hx | hx
    · exact (hadded x hx).imp_right fun h => List.mem_cons.mpr (.inl h)
    · exact (hl' x hx).imp_right (List.mem_cons_of_mem _)

/-- A line that is neither blank nor a fence ends a run of blank lines. -/
theorem push_plain (s : Collapse) (hfence : isCodeFence line = false) (hb : isBlank line = false) :
    s.push line = ⟨s.out ++ [line], 0, s.inFence⟩ := by
  simp [Collapse.push, hfence, hb]

theorem foldl_push_plain {l : List Text} (hfence : ∀ line ∈ l, isCodeFence line = false)
    (hb : ∀ line ∈ l, isBlank line = false) (s : Collapse) :
    (l.foldl Collapse.push s).out = s.out ++ l := by
  induction l generalizing s with
  | nil => simp
  | cons line l ih =>
    obtain ⟨hline, hl⟩ := List.forall_mem_cons.mp hfence
    obtain ⟨hline', hl'⟩ := List.forall_mem_cons.mp hb
    rw [List.foldl_cons, push_plain s hline hline', ih hl hl']
    simp

/-- A collapsed line is blank or was there before. -/
theorem mem_collapsed {ls : List Text} (h : line ∈ collapsed ls) : line = [] ∨ line ∈ ls := by
  obtain ⟨l', hout, -, hl'⟩ := foldl_push ls ⟨[], 0, false⟩
  have hmem : line ∈ (ls.foldl Collapse.push ⟨[], 0, false⟩).out := by
    simp only [collapsed] at h
    split at h
    · exact h
    · exact (List.rdropWhile_prefix _ _).subset h
  rw [hout] at hmem
  exact hl' line hmem

end Collapsed

end Anodizer.Changelog
