import Anodizer.Changelog.Promote
import Anodizer.Lib.SlotInsert

/-! # The record of the releases

The root changelog records the sections of the releases in the order of their
tags, and their links from the newest release to the oldest. Promoting a section
adds its release to the record.
-/

namespace Anodizer.Changelog

open Template (Text CharTables)
open Git

/-! ### Releases -/

/-- A line of a body that opens no section and starts no footer. -/
structure PlainLine (line : Text) : Prop where
  heading : isSectionHeading line = false
  label : headingLabel line = none
  unreleased : isUnreleasedHeading line = false
  footer : parseUnreleasedFooter line = none
  ending : line.getLast? ≠ some '\r'

instance (line : Text) : Decidable (PlainLine line) :=
  decidable_of_iff (isSectionHeading line = false ∧ headingLabel line = none ∧
    isUnreleasedHeading line = false ∧ parseUnreleasedFooter line = none ∧
    line.getLast? ≠ some '\r')
    ⟨fun ⟨h₁, h₂, h₃, h₄, h₅⟩ => ⟨h₁, h₂, h₃, h₄, h₅⟩,
      fun h => ⟨h.heading, h.label, h.unreleased, h.footer, h.ending⟩⟩

/-- A text that stays on one line. -/
def OneLine (s : Text) : Prop := '\n' ∉ s ∧ '\r' ∉ s

instance (s : Text) : Decidable (OneLine s) := inferInstanceAs (Decidable (_ ∧ _))

theorem oneLine_append {s t : Text} : OneLine (s ++ t) ↔ OneLine s ∧ OneLine t := by
  simp only [OneLine, List.mem_append, not_or]
  constructor
  · rintro ⟨⟨hs, ht⟩, hs', ht'⟩
    exact ⟨⟨hs, hs'⟩, ht, ht'⟩
  · rintro ⟨⟨hs, hs'⟩, ht, ht'⟩
    exact ⟨⟨hs, ht⟩, hs', ht'⟩

theorem OneLine.clean {s : Text} (h : OneLine s) : Lines.Clean s :=
  ⟨h.1, fun hlast => h.2 (List.mem_of_getLast? hlast)⟩

/-- What a promotion is asked for, and the day it runs on. -/
structure Promotion where
  crateName : Text
  tag : Text
  fromTag : Option Text
  body : Text
  date : Text

/-- A promotion whose tag every reader cuts in one way. -/
structure Release (u : CharTables) extends Promotion where
  family : Text
  version : SemVer
  accepted : splitTagFamily u tag = some (family, version)
  cut : tagPrefix u tag = family
  parsed : parseSemverTag u tag = some version
  closed : ']' ∉ tag
  tag_line : OneLine tag
  from_line : ∀ f ∈ fromTag, OneLine f
  date_line : OneLine date
  body_plain : ∀ line ∈ Lines.lines body, PlainLine line

namespace Release

variable {u : CharTables} (r : Release u)

/-- The lines are a section of the release, up to the length of their runs of blank lines. -/
def IsSection (chunk : List Text) : Prop :=
  ∃ body, chunk = heading r.tag r.date :: body ∧ squeezed body = squeezed (Lines.lines r.body)

variable {r} in
/-- The lines of a section under its heading. -/
theorem plain_of_squeezed {body : List Text} (h : squeezed body = squeezed (Lines.lines r.body))
    {line : Text} (hline : line ∈ body) : isBlank line ∨ PlainLine line := by
  by_cases hb : isBlank line
  · exact .inl hb
  · have hmem : line ∈ squeezed (Lines.lines r.body) :=
      h ▸ Squeeze.mem_squeeze (by simpa using hb) hline
    rcases Squeeze.mem_of_mem_squeeze hmem with rfl | hmem
    · exact .inl rfl
    · exact .inr (r.body_plain line hmem)

def linkLine (base : Text) : Text :=
  match r.fromTag with
  | some f => compareLink base f r.tag
  | none => releaseLink base r.tag

/-- The version in a tag has a dot. -/
theorem dot_mem : '.' ∈ r.tag := by
  have haccepted := r.accepted
  unfold splitTagFamily at haccepted
  obtain ⟨caps, hcaps, -⟩ := Option.bind_eq_some_iff.mp haccepted
  obtain ⟨htag, _, _, _, _, htext, -, ⟨rfl, -⟩, _, _, _, _, rfl, -, -, y, _, _, _, rfl, -, ⟨_, -, hy⟩,
    -⟩ := Regex.first_sound hcaps
  obtain ⟨-, w, -, rfl⟩ := reads_coreRe.mp hy
  rw [htag, htext]
  simp [Spelling.text]

theorem not_unreleased : eqIgnoreCase r.tag "unreleased".toList = false := by
  rw [eqIgnoreCase, decide_eq_false_iff_not]
  intro heq
  have hdot : '.' ∈ r.tag.map Char.toLower := List.mem_map.mpr ⟨'.', r.dot_mem, by decide⟩
  have hnot : '.' ∉ "unreleased".toList.map Char.toLower := by decide
  exact hnot (heq ▸ hdot)

theorem parse_linkLine (base : Text) : parseUnreleasedFooter (r.linkLine base) = none := by
  unfold linkLine compareLink releaseLink
  split <;> rw [parse_link r.closed, r.not_unreleased, if_neg Bool.false_ne_true]

end Release

theorem parse_heading (tag date : Text) : parseUnreleasedFooter (heading tag date) = none := by
  have hcut : heading tag date = ("## [".toList ++ tag ++ "] ".toList) ++ '-' :: (' ' :: date) := by
    simp [heading]
  have htrim : Template.trim (heading tag date) = trimEnd (heading tag date) := rfl
  rw [parseUnreleasedFooter, htrim, hcut, trimEnd_append _ _ (by decide)]
  rfl

theorem parse_unreleasedLink (base tag : Text) :
    (parseUnreleasedFooter (unreleasedLink base tag)).isSome := by
  rw [unreleasedLink, parse_link (by decide), if_pos (by decide)]
  rfl

/-! ### The record -/

variable (u : CharTables)

/-- The sections in their order, and the releases with a link, the newest one first. -/
structure Record where
  sections : List (Release u)
  links : List (Release u)

variable {u}

namespace Record

def empty : Record u := ⟨[], []⟩

def tags (cl : Record u) : List Text := cl.sections.map (·.tag)

/-- The section of a new tag goes before the first one it precedes. -/
def add (cl : Record u) (r : Release u) : Record u :=
  if r.tag ∈ cl.tags then cl
  else ⟨cl.sections.orderedInsert (fun r s => goesBefore u r.tag s.tag = true) r, r :: cl.links⟩

/-- The links of the footer: the unreleased changes, then the releases. -/
def footer (cl : Record u) (base : Option Text) : List Text :=
  match base, cl.links with
  | some b, r :: rs => unreleasedLink b r.tag :: (r :: rs).map (Release.linkLine · b)
  | _, _ => []

end Record

/-- The lines of a changelog: its title, its sections and its footer. -/
def document (h1 : Text) (chunks : List (List Text)) (footer : List Text) : List Text :=
  h1 :: [] :: (chunks.flatten ++ footer)

/-- A file that holds the record, under its title. -/
def Written (h1 : Text) (base : Option Text) (file : Text) (cl : Record u) : Prop :=
  ∃ chunks, List.Forall₂ Release.IsSection cl.sections chunks ∧
    (∀ line ∈ document h1 chunks (cl.footer base), Lines.Clean line) ∧
    file = ['\n'].intercalate (document h1 chunks (cl.footer base)) ++ ['\n']

/-- The record of the root changelog, which may be absent. -/
def Represents (h1 : Text) (base : Option Text) (file : Option Text) (cl : Record u) : Prop :=
  match file with
  | none => cl = .empty
  | some text => Written h1 base text cl

/-! ### Slots -/

section Slots

variable {tag : Text}

variable (u) in
/-- The line opens a section that the tag goes before. -/
def isSlot (tag line : Text) : Bool :=
  isSectionHeading line && (sectionHeadingTag line).any (goesBefore u tag)

theorem find?_zipIdx (q : Text → Bool) (l : List Text) (k : ℕ) :
    (((l.zipIdx k).find? fun li => q li.1).map (·.2)).getD (k + l.length) = k + l.findIdx q := by
  induction l generalizing k with
  | nil => rfl
  | cons line l ih =>
    rw [List.zipIdx_cons, List.find?_cons, List.findIdx_cons]
    cases hq : q line with
    | true => simp
    | false =>
      have := ih (k + 1)
      simp only [cond_false, List.length_cons]
      rw [show k + (l.length + 1) = k + 1 + l.length by omega, this]
      omega

theorem tagInsertIndex_eq (sections : List Text) (tag : Text) :
    tagInsertIndex u sections tag = sections.findIdx (isSlot u tag) := by
  have := find?_zipIdx (isSlot u tag) sections 0
  simp only [Nat.zero_add] at this
  rw [← this, tagInsertIndex, headingIdxs, List.find?_filter]
  simp only [isSlot, Bool.decide_and, Bool.decide_eq_true]

/-- The promoted section goes before the first slot. -/
theorem slotSections_tag (sections promoted : List Text) (tag : Text) :
    slotSections u sections promoted tag .tag =
      sections.takeWhile (!isSlot u tag ·) ++ promoted ++ sections.dropWhile (!isSlot u tag ·) := by
  rw [slotSections, List.takeWhile_eq_take_findIdx_not, List.dropWhile_eq_drop_findIdx_not]
  simp only [tagInsertIndex_eq, Bool.not_not]

theorem isSlot_heading (r : Release u) : isSlot u tag (heading r.tag r.date) =
    goesBefore u tag r.tag := by
  rw [isSlot, isSectionHeading_heading, sectionHeadingTag, headingLabel_heading r.closed]
  rfl

theorem isSlot_plain {line : Text} (h : PlainLine line) : isSlot u tag line = false := by
  rw [isSlot, h.heading, Bool.false_and]

theorem isSlot_blank {line : Text} (h : isBlank line) : isSlot u tag line = false := by
  have hheading : isSectionHeading line = false := by
    rw [← Bool.not_eq_true]
    intro hs
    obtain ⟨s, rfl⟩ := List.isPrefixOf_iff_prefix.mp hs
    rw [not_isBlank (c := '#') (by simp) (by decide)] at h
    cases h
  rw [isSlot, hheading, Bool.false_and]

/-- The sections before the slot and those after it. -/
theorem span_sections {sections : List (Release u)} {chunks : List (List Text)}
    (h : List.Forall₂ Release.IsSection sections chunks) (tag : Text) : ∃ before after,
    chunks.flatten.takeWhile (!isSlot u tag ·) = before.flatten ∧
      chunks.flatten.dropWhile (!isSlot u tag ·) = after.flatten ∧
      List.Forall₂ Release.IsSection (sections.takeWhile fun s => !goesBefore u tag s.tag) before ∧
      List.Forall₂ Release.IsSection (sections.dropWhile fun s => !goesBefore u tag s.tag) after := by
  induction h with
  | nil => exact ⟨[], [], rfl, rfl, .nil, .nil⟩
  | @cons r chunk sections chunks hchunk hrest ih =>
    obtain ⟨body, rfl, hbody⟩ := hchunk
    have hpass : ∀ line ∈ body, (!isSlot u tag line) = true := fun line hline => by
      rcases Release.plain_of_squeezed hbody hline with hb | hplain
      · rw [isSlot_blank hb]; rfl
      · rw [isSlot_plain hplain]; rfl
    rw [List.flatten_cons, List.cons_append]
    by_cases hslot : goesBefore u tag r.tag
    · refine ⟨[], (heading r.tag r.date :: body) :: chunks, ?_, ?_, ?_, ?_⟩
      · rw [List.takeWhile_cons_of_neg (by simp [isSlot_heading, hslot])]
        rfl
      · rw [List.dropWhile_cons_of_neg (by simp [isSlot_heading, hslot])]
        rfl
      · rw [List.takeWhile_cons_of_neg (by simp [hslot])]
        exact .nil
      · rw [List.dropWhile_cons_of_neg (by simp [hslot])]
        exact .cons ⟨body, rfl, hbody⟩ hrest
    · obtain ⟨before, after, htake, hdrop, hbefore, hafter⟩ := ih
      refine ⟨(heading r.tag r.date :: body) :: before, after, ?_, ?_, ?_, ?_⟩
      · rw [List.takeWhile_cons_of_pos (by simp [isSlot_heading, hslot]),
          List.takeWhile_append_of_pos hpass, htake]
        rfl
      · rw [List.dropWhile_cons_of_pos (by simp [isSlot_heading, hslot]),
          List.dropWhile_append_of_pos hpass, hdrop]
      · rw [List.takeWhile_cons_of_pos (by simp [hslot])]
        exact .cons ⟨body, rfl, hbody⟩ hbefore
      · rw [List.dropWhile_cons_of_pos (by simp [hslot])]
        exact hafter

end Slots

end Anodizer.Changelog
