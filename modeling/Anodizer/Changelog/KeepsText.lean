import Anodizer.Changelog.Contents
import Anodizer.Changelog.Pieces
import Anodizer.Lib.Traverse

/-! # A promotion loses no text

The subsection of a crate becomes its released section, bullet by bullet, and the other lines stay
in their order around what the release adds.
-/

namespace Anodizer.Changelog

open Template (Text CharTables)
open Cuts

/-- The lines of the subsection that are not blank. -/
def ownLines (crateName : Text) (lines : List Text) : List Text :=
  curatedLines crateName ((block lines).getD [])

/-- The unreleased changes without the subsection. -/
def dropSub (crateName : Text) (block : List Text) : List Text :=
  match cutAfter (opensCrate crateName) block with
  | some (before, sub) => before.dropLast ++ sub.dropWhile fun line => !endsSubsection line
  | none => block

/-- The lines outside the subsection. -/
def otherLines (crateName : Text) (lines : List Text) : List Text :=
  match cutAfter isUnreleasedHeading lines with
  | some (head, rest) =>
    head ++ dropSub crateName (rest.takeWhile fun line => !endsBlock line) ++
      rest.dropWhile fun line => !endsBlock line
  | none => lines

/-- Each bullet with its wrapped lines is in the body once and as a whole, among the headings of
groups. -/
def HoldsPieces (groups : List ChangelogGroup) (own body : List Text) : Prop :=
  ∃ heads parts : List (List Text), (∀ head ∈ heads, ∃ g ∈ groups, head = contents (h3 ++ g.title)) ∧
    parts.Perm (heads ++ (bulletPieces own).map written) ∧ body = parts.flatten

/-- What a promoted root says: the other lines in their order, around the new section and the new
links. -/
structure KeepsText (args : PromoteArgs) (result : Text) (before body between after : List Text) :
    Prop where
  reads : ∃ date, contents result = before ++ (contents (heading args.tag date) ++ body) ++ between ++
    written ((args.base.map fun base => rolledLinks base args.tag args.fromTag).getD []) ++ after
  own : ownLines args.crateName (Lines.lines args.existing) ≠ [] →
    HoldsPieces args.groups (ownLines args.crateName (Lines.lines args.existing)) body
  others : (before ++ between ++ after).filter notFooter =
    (written (otherLines args.crateName (Lines.lines args.existing))).filter notFooter

/-! ### The new section -/

section Section

variable {regex : Text → Except Text (Text → Bool)} {today : Except Text Text} {args : PromoteArgs}
  {groups : List ChangelogGroup} {own lines promoted : List Text} {body : Text}

theorem mem_compileGroupRegexes {compiled : List Compiled} {c : Compiled}
    (h : compileGroupRegexes regex groups = .ok compiled) (hc : c ∈ compiled) : c.2 ∈ groups := by
  have hmap := Traverse.mapM_eq_ok.mp h
  have hmem : Except.ok c ∈ groups.map (compileGroup regex) := hmap ▸ List.mem_map_of_mem hc
  obtain ⟨g, hg, hcompile⟩ := List.mem_map.mp hmem
  rw [compileGroup] at hcompile
  split at hcompile
  · obtain rfl := Except.ok.inj hcompile
    exact hg
  · split at hcompile
    · obtain rfl := Except.ok.inj hcompile
      exact hg
    · cases hcompile

theorem holdsPieces_of_bucket (h : bucketCuratedBullets regex own groups = .ok body) :
    HoldsPieces groups own (contents body) := by
  have hwritten : ∀ parts : List (List Text), written parts.flatten = (parts.map written).flatten := by
    intro parts
    induction parts with
    | nil => rfl
    | cons part parts ih => rw [List.flatten_cons, written_append, ih, List.map_cons, List.flatten_cons]
  rw [bucketCuratedBullets] at h
  split at h
  · obtain rfl := Except.ok.inj h
    refine ⟨[], (bulletPieces own).map written, by simp, .refl _, ?_⟩
    rw [contents_joinLines, ← hwritten, flatten_bulletPieces]
  · obtain ⟨compiled, hcompiled, hbody⟩ : ∃ compiled, compileGroupRegexes regex groups = .ok compiled ∧
        joinLines (bucketLines compiled own) = body := by
      cases hc : compileGroupRegexes regex groups with
      | error e =>
        rw [hc] at h
        cases h
      | ok compiled =>
        rw [hc] at h
        exact ⟨compiled, rfl, Except.ok.inj h⟩
    obtain ⟨heads, parts, hheads, hperm, hlines⟩ := bucketLines_pieces compiled own
    refine ⟨heads.map contents, parts.map written, ?_, ?_, ?_⟩
    · intro head hhead
      obtain ⟨line, hline, rfl⟩ := List.mem_map.mp hhead
      obtain ⟨c, hc, rfl⟩ := hheads line hline
      exact ⟨c.2, mem_compileGroupRegexes hcompiled hc, rfl⟩
    · refine (hperm.map written).trans (.of_eq ?_)
      rw [List.map_append, List.map_map]
      congr 1
      refine List.map_congr_left fun head _ => ?_
      simp [written]
    · rw [← hbody, contents_joinLines, hlines, hwritten]

/-- The section that is promoted: its heading and its body. -/
theorem releasedSection_spec (h : releasedSection regex today args lines = .ok (some promoted)) :
    ∃ date body, promoted = heading args.tag date :: Lines.lines body ++ [[]] ∧
      (curatedLines args.crateName lines ≠ [] →
        bucketCuratedBullets regex (curatedLines args.crateName lines) args.groups = .ok body) := by
  have hpromoted : ∀ body : Text,
      ((buildPromotedSection today args.tag body).mapError PromoteError.date).map some =
        Except.ok (some promoted) →
      ∃ date, promoted = heading args.tag date :: Lines.lines body ++ [[]] := by
    intro body h
    cases htoday : today with
    | error e =>
      rw [htoday] at h
      cases h
    | ok date =>
      rw [htoday] at h
      exact ⟨date, (Option.some.inj (Except.ok.inj h)).symm⟩
  rw [releasedSection] at h
  by_cases hown : curatedLines args.crateName lines ≠ []
  · rw [if_pos hown] at h
    obtain ⟨body?, hbody, h⟩ := Traverse.bind_eq_ok.mp h
    cases body? with
    | none => cases h
    | some body =>
      obtain ⟨date, rfl⟩ := hpromoted body h
      refine ⟨date, body, rfl, fun _ => ?_⟩
      cases hbucket : bucketCuratedBullets regex (curatedLines args.crateName lines)
          args.groups with
      | error e =>
        rw [hbucket] at hbody
        cases hbody
      | ok body' =>
        rw [hbucket] at hbody
        rw [Option.some.inj (Except.ok.inj hbody)]
  · rw [if_neg hown] at h
    split at h
    · obtain ⟨date, rfl⟩ := hpromoted args.generatedBody h
      exact ⟨date, args.generatedBody, rfl, fun h => absurd h hown⟩
    · cases h

end Section

/-! ### The file around it -/

section File

variable {u : CharTables} {out footer sections promoted : List Text} {tag : Text}
  {fromTag base : Option Text} {chronology : Chronology}

/-- What a rolled footer says. -/
theorem written_pushRootFooter (out footer : List Text) (tag : Text) (fromTag base : Option Text) :
    ∃ footer', (footer' = footer ∨ footer' = footer.filter notFooter) ∧
      written (pushRootFooter out footer tag fromTag base) = written out ++
        written ((base.map fun base => rolledLinks base tag fromTag).getD []) ++ written footer' := by
  cases base with
  | none => exact ⟨footer, .inl rfl, by rw [pushRootFooter, written_append]; simp [written]⟩
  | some base =>
    refine ⟨footer.filter notFooter, .inr rfl, ?_⟩
    have hblank : ∀ ls, written ([] :: ls) = written ls := fun ls => rfl
    change written (out.rdropWhile isBlank ++ ([] :: rolledLinks base tag fromTag) ++
      footer.filter notFooter) = _
    rw [written_append, written_append, written_rdropWhile, hblank]
    rfl

theorem exists_slotSections (u : CharTables) (sections promoted : List Text) (tag : Text)
    (chronology : Chronology) : ∃ k, slotSections u sections promoted tag chronology =
      sections.take k ++ promoted ++ sections.drop k := ⟨_, rfl⟩

theorem rebuildUnreleased_eq (head block : List Text) (crateName : Text) :
    rebuildUnreleased head block crateName =
      (head ++ dropSub crateName block).rdropWhile isBlank ++ [[]] := by
  unfold rebuildUnreleased dropSub
  cases cutAfter (opensCrate crateName) block <;> rfl

end File

section Promote

variable {regex : Text → Except Text (Text → Bool)} {u : CharTables} {today : Except Text Text}
  {args : PromoteArgs} {result : Text} {lines head rest : List Text} {crateName : Text}

/-- The lines are the other ones around the subsection with its heading. -/
theorem exists_sub (crateName : Text) (lines : List Text) : ∃ before sub after,
    lines = before ++ sub ++ after ∧ otherLines crateName lines = before ++ after ∧
      ownLines crateName lines = nonblank sub.tail := by
  rw [otherLines, ownLines]
  rcases cutAfter_cases (p := isUnreleasedHeading) lines with
    ⟨hnone, hall⟩ | ⟨init, heading, rest, hsome, rfl, -, -⟩
  · refine ⟨lines, [], [], by simp, by rw [hnone, List.append_nil], ?_⟩
    rw [block, part_eq_none.mpr hall]
    rfl
  · rw [block_of_cut hsome, hsome, Option.getD_some, curatedLines_eq]
    dsimp only
    rw [dropSub]
    have hrest := @List.takeWhile_append_dropWhile _ (fun line => !endsBlock line) rest
    generalize rest.takeWhile (fun line => !endsBlock line) = b at hrest ⊢
    generalize rest.dropWhile (fun line => !endsBlock line) = tail at hrest ⊢
    subst hrest
    rcases cutAfter_cases (p := opensCrate crateName) b with
      ⟨hnone', hall'⟩ | ⟨init', a, sub, hsome', rfl, ha, hinit'⟩
    · refine ⟨init ++ [heading] ++ b ++ tail, [], [], by simp, by rw [hnone', List.append_nil], ?_⟩
      rw [sub, part_eq_none.mpr hall']
      rfl
    · refine ⟨init ++ [heading] ++ init', a :: sub.takeWhile fun line => !endsSubsection line,
        sub.dropWhile (fun line => !endsSubsection line) ++ tail, ?_, ?_, ?_⟩
      · have hsub : sub ++ tail = sub.takeWhile (fun line => !endsSubsection line) ++
            (sub.dropWhile (fun line => !endsSubsection line) ++ tail) := by
          rw [← List.append_assoc, List.takeWhile_append_dropWhile]
        simp only [List.append_assoc, List.cons_append, List.nil_append, hsub]
      · rw [hsome']
        simp
      · rw [Changelog.sub, part_append_of_none hinit', part, after, if_pos ha]
        rfl

theorem otherLines_subset : otherLines crateName lines ⊆ lines := by
  obtain ⟨before, sub, after, hlines, hothers, -⟩ := exists_sub crateName lines
  rw [hothers, hlines]
  intro x hx
  rcases List.mem_append.mp hx with hx | hx
  · exact List.mem_append_left _ (List.mem_append_left _ hx)
  · exact List.mem_append_right _ hx

end Promote

/-! ### Two crates -/

/-- Two crates, and a bullet that is wrapped. -/
def twoCrates : Text :=
  "# Changelog\n\n## [Unreleased]\n\n### app\n\n- fix: one\n  thing\n\n### lib\n\n- feat: all\n".toList

def appRelease : PromoteArgs :=
  ⟨twoCrates, "app".toList, "v0.7.0".toList, none, .date, [], [], none⟩

def twoCratesReleased : Text :=
  ("# Changelog\n\n## [Unreleased]\n\n### lib\n\n- feat: all\n\n## [v0.7.0] - 2026-01-01\n- fix: one\n" ++
    "  thing\n\n").toList

end Anodizer.Changelog
