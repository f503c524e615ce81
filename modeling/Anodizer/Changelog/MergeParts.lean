import Anodizer.Changelog.MergeTwice
import Anodizer.Changelog.TagPrefix

/-! # What a merge keeps

A merge writes the file line by line. The bytes outside the unreleased changes
and the footer stay where no line ending is rewritten, and the links name the
tag of the version where the footer cuts its anchor as the family does.
-/

namespace Anodizer.Changelog

open Git
open Template (Text CharTables)

variable {u : CharTables} {r : CrateRelease} {x y s s' t p base : Text} {v : SemVer}
  {ls ls' block links : List Text}

/-! ### The parts that are kept -/

def betweenFooter (ls : List Text) : List Text := (afterBlock ls).takeWhile notFooter

def footerLine (ls : List Text) : Option Text := ((afterBlock ls).dropWhile notFooter).head?

def afterFooter (ls : List Text) : List Text := ((afterBlock ls).dropWhile notFooter).tail

/-- The lines of a file outside the unreleased changes and the footer. -/
def outside (ls : List Text) : List Text := beforeBlock ls ++ betweenFooter ls ++ afterFooter ls

/-- A file with new lines for the unreleased changes and the footer. -/
def withRelease (block links ls : List Text) : List Text :=
  beforeBlock ls ++ block ++ betweenFooter ls ++ links ++ afterFooter ls

theorem afterBlock_eq (ls : List Text) :
    afterBlock ls = betweenFooter ls ++ ((footerLine ls).toList ++ afterFooter ls) := by
  rw [footerLine, afterFooter, betweenFooter]
  conv_lhs => rw [← List.takeWhile_append_dropWhile (p := notFooter) (l := afterBlock ls)]
  cases (afterBlock ls).dropWhile notFooter <;> rfl

/-- A file is its own parts. -/
theorem withRelease_self (h : ls.any isUnreleasedHeading) : ∃ line,
    withRelease (line :: unreleasedBody ls) (footerLine ls).toList ls = ls := by
  obtain ⟨line, hparts⟩ := parts_eq h
  refine ⟨line, ?_⟩
  conv_rhs => rw [hparts, afterBlock_eq]
  simp [withRelease]

namespace CrateRelease

/-- The base and the tag that the links of a release start from. -/
def rolledFrom (r : CrateRelease) (ls : List Text) : Option (Text × Text) :=
  (footerLine ls).elim (r.remoteBase.bind fun base => r.fromTag.map fun tag => (base, tag))
    fun footer => (parseUnreleasedFooter footer).bind parseCompareUrl

/-- The links of a release, with a blank line before them where there was no footer. -/
def linksTo (r : CrateRelease) (ls : List Text) (base anchor newTag : Text) : List Text :=
  (if (footerLine ls).isNone && (betweenFooter ls).getLast?.any (· ≠ []) then [[]] else []) ++
    pushCompareFooter base anchor newTag r.version

/-- The lines in the place of the footer. -/
def releaseLinks (u : CharTables) (r : CrateRelease) (ls : List Text) : List Text :=
  ((r.rolledFrom ls).map fun bt => r.linksTo ls bt.1 bt.2 (tagPrefix u bt.2 ++ r.version)).getD
    (footerLine ls).toList

/-- The lines in the place of the unreleased changes. -/
def releaseBlock (r : CrateRelease) (ls : List Text) : List Text :=
  promotedBlock (trimEnd r.body) r.version r.date (unreleasedBody ls)

end CrateRelease

open CrateRelease

theorem rolledLines_eq (u : CharTables) (r : CrateRelease) (ls : List Text) :
    r.rolledLines u ls = withRelease (r.releaseBlock ls) (r.releaseLinks u ls) ls := by
  have htail := afterBlock_eq ls
  have hlast : ((beforeBlock ls ++ promotedBlock (trimEnd r.body) r.version r.date
      (unreleasedBody ls)) ++ betweenFooter ls).getLast?.any (· ≠ []) =
        (betweenFooter ls).getLast?.any (· ≠ []) := by
    by_cases hnil : betweenFooter ls = []
    · rw [hnil, List.append_nil, promotedBlock, ← List.append_assoc, List.getLast?_concat]
      rfl
    · rw [List.getLast?_append_of_ne_nil _ hnil]
  simp only [rolledLines, rollFooter, withRelease, releaseLinks, releaseBlock, rolledFrom, linksTo,
    footerLine, afterFooter] at htail ⊢
  split
  · next hnone =>
    simp only [hnone, List.head?_nil, Option.toList_none, List.tail_nil, List.append_nil] at htail ⊢
    rw [htail]
    cases r.fromTag with
    | none => cases r.remoteBase <;> simp [synthesizeFooter]
    | some tag =>
      cases r.remoteBase with
      | none => simp [synthesizeFooter]
      | some base =>
        simp only [synthesizeFooter, hlast]
        simp
  · next footer rest hsome =>
    simp only [hsome, List.head?_cons, Option.toList_some, List.tail_cons] at htail ⊢
    rw [Option.elim_some]
    cases hurl : (parseUnreleasedFooter footer).bind parseCompareUrl with
    | none => simp [htail]
    | some bt => simp [betweenFooter]

/-! ### The spelling of lines -/

theorem reread_spelled (x : Text) : List.Forall₂ Reread (Lines.spelled x) (Lines.lines x) :=
  Lines.lines_spelled x

/-- Lines that are written alike are spelled alike. -/
theorem eq_of_unlines (h : List.Forall₂ Reread ls ls') (heq : unlines ls ++ s = unlines ls' ++ s') :
    ls = ls' ∧ s = s' := by
  have hcons : ∀ line ls (s : Text),
      unlines (line :: ls) ++ s = line ++ '\n' :: (unlines ls ++ s) := by simp [unlines]
  induction h with
  | nil => exact ⟨rfl, heq⟩
  | @cons line line' ls ls' hline _ ih =>
    rw [hcons, hcons] at heq
    obtain rfl : line' = line := by
      rcases hline with hline | rfl
      · exact hline
      · rcases stripCr_cases line with h | h
        · exact h
        · -- what follows the line is a newline, and not the carriage return
          generalize Lines.stripCr line = cut at h heq
          rw [h, List.append_assoc] at heq
          exact absurd (List.cons.inj (List.append_cancel_left heq)).1 (by decide)
    obtain ⟨rfl, rfl⟩ := ih (List.cons.inj (List.append_cancel_left heq)).2
    exact ⟨rfl, rfl⟩

theorem unlines_eq_join (hne : ls ≠ []) : unlines ls = joinLines ls ++ ['\n'] := by
  induction ls with
  | nil => exact absurd rfl hne
  | cons line ls ih =>
    by_cases hls : ls = []
    · simp [hls, unlines, joinLines]
    · have hcons : unlines (line :: ls) = line ++ '\n' :: unlines ls := by simp [unlines]
      rw [hcons, ih hls, joinLines, joinLines, Lines.intercalate_cons _ hls, List.append_assoc]
      rfl

theorem join_reread (h : List.Forall₂ Reread ls ls') : joinLines ls = joinLines ls' ↔ ls = ls' := by
  refine ⟨fun heq => ?_, congrArg _⟩
  cases h with
  | nil => rfl
  | cons hline h =>
    refine (@eq_of_unlines [] [] _ _ (.cons hline h) ?_).1
    rw [unlines_eq_join (by simp), unlines_eq_join (by simp), heq]

theorem notFooter_reread {line line' : Text} (h : Reread line line') :
    notFooter line = notFooter line' := by
  rw [notFooter, notFooter, parseUnreleasedFooter, parseUnreleasedFooter, h.same.2.1]

/-- The parts are the same for lines that are read and for lines as they are spelled. -/
theorem parts_reread (h : List.Forall₂ Reread ls ls') :
    List.Forall₂ Reread (beforeBlock ls) (beforeBlock ls') ∧
      List.Forall₂ Reread (betweenFooter ls) (betweenFooter ls') ∧
        List.Forall₂ Reread (afterFooter ls) (afterFooter ls') := by
  have hopens : ∀ a b, Reread a b → (!isUnreleasedHeading a) = !isUnreleasedHeading b :=
    fun a b hab => congrArg _ (@Reread.opens a b [] hab).1
  have hends : ∀ a b, Reread a b → (!endsBlock a) = !endsBlock b :=
    fun a b hab => congrArg _ (@Reread.ends a b hab).1
  have hafter : List.Forall₂ Reread (afterBlock ls) (afterBlock ls') :=
    Cuts.dropWhile_forall₂ hends (Cuts.tail_forall₂ (Cuts.dropWhile_forall₂ hopens h))
  exact ⟨Cuts.takeWhile_forall₂ hopens h,
    Cuts.takeWhile_forall₂ (fun _ _ => notFooter_reread) hafter,
    Cuts.tail_forall₂ (Cuts.dropWhile_forall₂ (fun _ _ => notFooter_reread) hafter)⟩

/-- A file is written as it was spelled exactly if the lines that are kept read so. -/
theorem join_withRelease (h : List.Forall₂ Reread ls ls') (block links : List Text) :
    joinLines (withRelease block links ls) = joinLines (withRelease block links ls') ↔
      outside ls = outside ls' := by
  obtain ⟨hbefore, hbetween, hafter⟩ := parts_reread h
  have hself : ∀ l : List Text, List.Forall₂ Reread l l :=
    fun l => List.forall₂_same.mpr fun _ _ => .inl rfl
  have hread : List.Forall₂ Reread (withRelease block links ls) (withRelease block links ls') :=
    List.rel_append (List.rel_append (List.rel_append (List.rel_append hbefore (hself block))
      hbetween) (hself links)) hafter
  rw [join_reread hread, withRelease, withRelease, outside, outside]
  constructor
  · intro heq
    obtain ⟨heq, h₃⟩ := List.append_inj' heq hafter.length_eq
    obtain ⟨heq, h₂⟩ := List.append_inj' (List.append_cancel_right heq) hbetween.length_eq
    rw [h₃, h₂, List.append_cancel_right heq]
  · intro heq
    obtain ⟨heq, h₃⟩ := List.append_inj' heq hafter.length_eq
    obtain ⟨h₁, h₂⟩ := List.append_inj' heq hbetween.length_eq
    rw [h₁, h₂, h₃]

end Anodizer.Changelog
