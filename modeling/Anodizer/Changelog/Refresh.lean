import Anodizer.Changelog.Reread

/-! # Refreshing a shared root

A refresh of one crate leaves the subsections of the others as they are.
-/

namespace Anodizer.Changelog

open Template (Text)
open Cuts

/-! ### What is written -/

/-- The name of a crate, as a heading can hold it. -/
structure CrateName where
  name : Text
  ne_nil : name ≠ []
  plain : ∀ c ∈ name, Template.isWhitespace c = false
  not_hash : name.head? ≠ some '#'

/-- The bullets of a group under its heading. -/
structure Notes where
  title : Text
  bullets : List Text
  ne_nil : bullets ≠ []
  title_clean : Lines.Clean (h3 ++ title)
  clean : ∀ bullet ∈ bullets, Lines.Clean bullet
  marked : ∀ bullet ∈ bullets, (stripListMarker bullet).isSome

namespace Notes

def heading (b : Notes) : Text := h3 ++ b.title

def lines (b : Notes) : List Text := b.heading :: b.bullets

end Notes

def bodyLines (body : List Notes) : List Text := body.flatMap Notes.lines

/-- The generated body of a crate. -/
def bodyText (body : List Notes) : Text := joinLines (bodyLines body)

/-- The lines of a subsection. -/
def nested (body : List Notes) : List Text := (bodyLines body).map demoteLine

def refresh (h1 : Text) (text : Text) (r : CrateName × List Notes) : Text :=
  replaceCrateSubsectionBody (some text) h1 r.1.name (bodyText r.2)

variable {body : List Notes} {b : Notes} {c d : CrateName} {line s : Text} {ls : List Text}

/-! ### The lines of a body -/

theorem isPrefixOf?_eq_none {a : Char} {p t : Text} (h : t.head? ≠ some a) :
    (a :: p).isPrefixOf? t = none := by
  cases t with
  | nil => rfl
  | cons a' t =>
    have hne : a ≠ a' := fun heq => h (by rw [heq, List.head?_cons])
    simp [List.isPrefixOf?, hne]

/-- A line that starts with neither a hash nor a bracket is no heading and no footer. -/
theorem quiet_of_head (hhash : (trimEnd line).head? ≠ some '#')
    (hbracket : (Template.trim line).head? ≠ some '[') :
    isSubsectionHeading line = none ∧ parseUnreleasedFooter line = none := by
  constructor
  · rw [isSubsectionHeading, show h3 = '#' :: "## ".toList from rfl, isPrefixOf?_eq_none hhash]
    rfl
  · rw [parseUnreleasedFooter, isPrefixOf?_eq_none hbracket]
    rfl

/-- A bullet is blank characters, its marker and its payload. -/
theorem marked_cases (h : (stripListMarker line).isSome) :
    ∃ blank marker rest, line = blank ++ marker :: ' ' :: rest ∧
      (∀ c ∈ blank, Template.isWhitespace c) ∧ (marker = '-' ∨ marker = '*') := by
  have hstart : ∃ marker rest, Template.trimStart line = marker :: ' ' :: rest ∧
      (marker = '-' ∨ marker = '*') := by
    rw [stripListMarker, Option.isSome_map, Option.isSome_or, Bool.or_eq_true,
      Option.isSome_iff_exists, Option.isSome_iff_exists] at h
    rcases h with ⟨rest, h⟩ | ⟨rest, h⟩
    · exact ⟨'-', rest, (List.isPrefixOf?_eq_some_iff_append_eq.mp h).symm, .inl rfl⟩
    · exact ⟨'*', rest, (List.isPrefixOf?_eq_some_iff_append_eq.mp h).symm, .inr rfl⟩
  obtain ⟨marker, rest, hstart, hmarker⟩ := hstart
  refine ⟨line.takeWhile Template.isWhitespace, marker, rest, ?_, fun c hc =>
    List.mem_takeWhile_imp hc, hmarker⟩
  rw [← hstart, Template.trimStart, List.takeWhile_append_dropWhile]

theorem marked_quiet (h : (stripListMarker line).isSome) :
    isBlank line = false ∧ endsSubsection line = false ∧ demoteLine line = line ∧
      line.head? ≠ some '#' := by
  obtain ⟨blank, marker, rest, rfl, hblank, hmarker⟩ := marked_cases h
  have hws : Template.isWhitespace marker = false := by rcases hmarker with rfl | rfl <;> rfl
  have hne : ∀ a, a = '#' ∨ a = '[' → marker ≠ a := by
    rintro a (rfl | rfl) <;> rcases hmarker with rfl | rfl <;> decide
  have hhead : ∀ t : Text, (blank ++ marker :: t).head? ≠ some '#' := by
    intro t
    cases blank with
    | nil => simpa using hne '#' (.inl rfl)
    | cons a blank =>
      have ha := hblank a List.mem_cons_self
      rw [List.cons_append, List.head?_cons, ne_eq, Option.some.injEq]
      rintro rfl
      exact absurd ha (by decide)
  have hend : (trimEnd (blank ++ marker :: ' ' :: rest)).head? ≠ some '#' := by
    rw [trimEnd_append _ _ hws]
    exact hhead _
  have htrim : (Template.trim (blank ++ marker :: ' ' :: rest)).head? ≠ some '[' := by
    change (trimEnd (Template.trimStart (blank ++ marker :: ' ' :: rest))).head? ≠ some '['
    rw [Template.trimStart, List.dropWhile_append_of_pos hblank,
      List.dropWhile_cons_of_neg (by simp [hws])]
    change (trimEnd ([] ++ marker :: ' ' :: rest)).head? ≠ some '['
    rw [trimEnd_append _ _ hws]
    simpa using hne '[' (.inr rfl)
  obtain ⟨hsub, hfooter⟩ := quiet_of_head hend htrim
  have hpre : h3.isPrefixOf? (blank ++ marker :: ' ' :: rest) = none :=
    isPrefixOf?_eq_none (hhead _)
  refine ⟨not_isBlank (List.mem_append_right _ List.mem_cons_self) hws, ?_, ?_, hhead _⟩
  · have hsection : isSectionHeading (blank ++ marker :: ' ' :: rest) = false := by
      rw [← Bool.not_eq_true, isSectionHeading, List.isPrefixOf_iff_prefix]
      rintro ⟨t, ht⟩
      exact hhead _ (by rw [← ht]; rfl)
    rw [endsSubsection, endsBlock, hsub, hfooter, hsection]
    rfl
  · rw [demoteLine, hpre]

/-- A line of hashes is no footer. -/
theorem hash_line (t : Text) : parseUnreleasedFooter ('#' :: t) = none ∧ isBlank ('#' :: t) = false := by
  refine ⟨?_, not_isBlank List.mem_cons_self (by decide)⟩
  have htrim : Template.trim ('#' :: t) = '#' :: trimEnd t := trimEnd_append [] t (by decide)
  rw [parseUnreleasedFooter, isPrefixOf?_eq_none (by simp [htrim])]
  rfl

/-- A heading of a group is no heading of a crate once it is demoted. -/
theorem demoted_quiet (t : Text) : isBlank (demoteLine (h3 ++ t)) = false ∧
    endsSubsection (demoteLine (h3 ++ t)) = false := by
  have hpre : h3.isPrefixOf? (h3 ++ t) = some t := List.isPrefixOf?_eq_some_iff_append_eq.mpr rfl
  rw [demoteLine, hpre]
  dsimp only
  split
  · next h =>
    obtain ⟨t, rfl⟩ : ∃ t', t = '#' :: t' := by
      cases t with
      | nil => cases h
      | cons a t => exact ⟨t, by rw [List.head?_cons, Option.some.injEq] at h; rw [h]⟩
    have htrim : trimEnd (h3 ++ '#' :: t) = h3 ++ '#' :: trimEnd t := trimEnd_append _ _ (by decide)
    refine ⟨(hash_line _).2, ?_⟩
    rw [endsSubsection, endsBlock, show h3 ++ '#' :: t = '#' :: ("## #".toList ++ t) from rfl,
      (hash_line _).1, ← show h3 ++ '#' :: t = '#' :: ("## #".toList ++ t) from rfl,
      isSubsectionHeading, htrim]
    rfl
  · have htrim : trimEnd ("#### ".toList ++ t) = "####".toList ++ trimEnd (' ' :: t) :=
      trimEnd_append "###".toList (' ' :: t) (by decide)
    refine ⟨(hash_line _).2, ?_⟩
    rw [endsSubsection, endsBlock, show "#### ".toList ++ t = '#' :: ("### ".toList ++ t) from rfl,
      (hash_line _).1, ← show "#### ".toList ++ t = '#' :: ("### ".toList ++ t) from rfl,
      isSubsectionHeading, htrim]
    rfl

theorem mem_bodyLines (h : line ∈ bodyLines body) :
    (∃ b ∈ body, line = b.heading) ∨ ∃ b ∈ body, line ∈ b.bullets := by
  obtain ⟨b, hb, hline⟩ := List.mem_flatMap.mp h
  rcases List.mem_cons.mp hline with rfl | hline
  · exact .inl ⟨b, hb, rfl⟩
  · exact .inr ⟨b, hb, hline⟩

theorem bodyLines_clean (h : line ∈ bodyLines body) : Lines.Clean line ∧ line ≠ [] := by
  rcases mem_bodyLines h with ⟨b, -, rfl⟩ | ⟨b, -, hline⟩
  · exact ⟨b.title_clean, by simp [Notes.heading, h3]⟩
  · refine ⟨b.clean line hline, ?_⟩
    rintro rfl
    exact absurd (marked_quiet (b.marked _ hline)).1 (by decide)

theorem nested_quiet (h : line ∈ nested body) :
    isBlank line = false ∧ endsSubsection line = false := by
  obtain ⟨line, hline, rfl⟩ := List.mem_map.mp h
  rcases mem_bodyLines hline with ⟨b, -, rfl⟩ | ⟨b, -, hline⟩
  · exact demoted_quiet b.title
  · obtain ⟨hblank, hends, hdemote, -⟩ := marked_quiet (b.marked _ hline)
    rw [hdemote]
    exact ⟨hblank, hends⟩

theorem demoteLine_clean (h : Lines.Clean line) : Lines.Clean (demoteLine line) := by
  rw [demoteLine]
  split
  · next rest hpre =>
    split
    · exact h
    · obtain rfl := (List.isPrefixOf?_eq_some_iff_append_eq.mp hpre).symm
      have hlast : ∀ s : Text, (s ++ ' ' :: rest).getLast? = (' ' :: rest).getLast? :=
        fun s => List.getLast?_append_of_ne_nil _ (by simp)
      refine ⟨?_, ?_⟩
      · intro hmem
        rcases List.mem_append.mp hmem with hmem | hmem
        · exact absurd hmem (by decide)
        · exact h.1 (List.mem_append_right _ hmem)
      · have hcr := h.2
        rw [show h3 ++ rest = "###".toList ++ ' ' :: rest from rfl, hlast] at hcr
        rwa [show "#### ".toList ++ rest = "####".toList ++ ' ' :: rest from rfl, hlast]
  · exact h

theorem nested_clean (h : line ∈ nested body) : Lines.Clean line ∧ line ≠ [] := by
  have hblank := (nested_quiet h).1
  obtain ⟨line, hline, rfl⟩ := List.mem_map.mp h
  refine ⟨demoteLine_clean (bodyLines_clean hline).1, ?_⟩
  intro hnil
  rw [hnil] at hblank
  exact absurd hblank (by decide)

/-- Lines that are written are read back. -/
theorem lines_joinLines (hclean : ∀ line ∈ ls, Lines.Clean line) (hlast : ls.getLast? ≠ some []) :
    Lines.lines (joinLines ls) = ls := by
  rcases List.eq_nil_or_concat ls with rfl | ⟨init, last, rfl⟩
  · rfl
  rw [List.concat_eq_append] at hclean hlast ⊢
  rw [List.getLast?_concat] at hlast
  have hsplit : (joinLines (init ++ [last])).splitOn '\n' = init ++ [last] :=
    List.splitOn_intercalate _ (fun line hline => (hclean line hline).1) (by simp)
  have hinit : init.map Lines.stripCr = init := by
    calc init.map Lines.stripCr = init.map id := List.map_congr_left fun line hline =>
          Lines.stripCr_of_clean (hclean line (List.mem_append_left _ hline))
      _ = init := List.map_id init
  have hne : last ≠ [] := fun h => hlast (by rw [h])
  simp [Lines.lines, hsplit, hinit, hne]

theorem getLast?_ne_of_forall (h : ∀ line ∈ ls, line ≠ []) : ls.getLast? ≠ some [] :=
  fun hlast => h [] (List.mem_of_getLast? hlast) rfl

theorem lines_bodyText (body : List Notes) : Lines.lines (bodyText body) = bodyLines body :=
  lines_joinLines (fun _ h => (bodyLines_clean h).1)
    (getLast?_ne_of_forall fun _ h => (bodyLines_clean h).2)

theorem demote_bodyText (body : List Notes) :
    demoteGroupHeadings (bodyText body) = joinLines (nested body) := by
  rw [demoteGroupHeadings, lines_bodyText, nested]

theorem lines_nested (body : List Notes) : Lines.lines (joinLines (nested body)) = nested body :=
  lines_joinLines (fun _ h => (nested_clean h).1)
    (getLast?_ne_of_forall fun _ h => (nested_clean h).2)

theorem nested_eq_nil : nested body = [] ↔ body = [] := by
  rw [nested, List.map_eq_nil_iff]
  cases body with
  | nil => simp [bodyLines]
  | cons b body => simp [bodyLines, Notes.lines]

theorem joinLines_nested_eq_nil : joinLines (nested body) = [] ↔ body = [] := by
  rw [← @nested_eq_nil body]
  constructor
  · intro h
    rw [← lines_nested, h]
    rfl
  · intro h
    rw [h]
    rfl

/-- The heading of a crate is read as such. -/
theorem isSubsectionHeading_name (c : CrateName) :
    isSubsectionHeading (h3 ++ c.name) = some c.name := by
  have htrim : ∀ s : Text, trimEnd (s ++ c.name) = s ++ c.name := by
    intro s
    obtain ⟨init, last, heq⟩ := List.eq_nil_or_concat c.name |>.resolve_left c.ne_nil
    rw [List.concat_eq_append] at heq
    have hws : Template.isWhitespace last = false := c.plain last (by rw [heq]; simp)
    rw [heq, ← List.append_assoc]
    exact List.rdropWhile_concat_neg _ _ _ (by simp [hws])
  have hname : Template.trim c.name = c.name := by
    change trimEnd (c.name.dropWhile Template.isWhitespace) = c.name
    obtain ⟨a, t, heq⟩ := List.exists_cons_of_ne_nil c.ne_nil
    have hws : Template.isWhitespace a = false := c.plain a (by rw [heq]; simp)
    rw [heq, List.dropWhile_cons_of_neg (by simp [hws]), ← heq]
    exact htrim []
  have hpre : h3.isPrefixOf? (h3 ++ c.name) = some c.name :=
    List.isPrefixOf?_eq_some_iff_append_eq.mpr rfl
  rw [isSubsectionHeading, htrim, hpre]
  simp [c.not_hash, hname, c.ne_nil]

theorem name_clean (c : CrateName) : Lines.Clean (h3 ++ c.name) := by
  have hmem : ∀ a ∈ c.name, a ≠ '\n' ∧ a ≠ '\r' := by
    intro a ha
    have hws := c.plain a ha
    constructor <;> rintro rfl <;> exact absurd hws (by decide)
  constructor
  · intro h
    rcases List.mem_append.mp h with h | h
    · exact absurd h (by decide)
    · exact (hmem _ h).1 rfl
  · rw [List.getLast?_append_of_ne_nil _ c.ne_nil]
    exact fun h => (hmem _ (List.mem_of_getLast? h)).2 rfl

/-- The lines of a subsection that is created. -/
theorem lines_wrapSubsection (hbody : body ≠ []) :
    Lines.lines (wrapSubsection c.name (joinLines (nested body))) =
      (h3 ++ c.name) :: [] :: nested body := by
  have hne : nested body ≠ [] := nested_eq_nil.not.mpr hbody
  have hjoin : wrapSubsection c.name (joinLines (nested body)) =
      joinLines ((h3 ++ c.name) :: [] :: nested body) := by
    rw [wrapSubsection, if_neg (joinLines_nested_eq_nil.not.mpr hbody)]
    obtain ⟨line, ls, heq⟩ := List.exists_cons_of_ne_nil hne
    rw [heq, joinLines, joinLines, List.intercalate_cons_cons, List.intercalate_cons_cons]
    simp
  rw [hjoin]
  refine lines_joinLines ?_ ?_
  · intro line hline
    rcases List.mem_cons.mp hline with rfl | hline
    · exact name_clean c
    rcases List.mem_cons.mp hline with rfl | hline
    · exact ⟨List.not_mem_nil, by simp⟩
    · exact (nested_clean hline).1
  · have hlast := getLast?_ne_of_forall fun line (h : line ∈ nested body) => (nested_clean h).2
    rwa [List.getLast?_cons_cons, List.getLast?_cons_of_ne_nil hne]

/-! ### One refresh -/

/-- The unreleased changes with another subsection for the crate. -/
inductive Rewrites (d : CrateName) (new : List Text) : List Text → List Text → Prop
  | replace (init : List Text) (heading : Text) (rest : List Text) :
    (∀ line ∈ init, opensCrate d.name line = false) → opensCrate d.name heading →
    Rewrites d new (init ++ heading :: rest)
      (init ++ heading :: (new ++ rest.dropWhile fun line => !endsSubsection line))
  | append (ls : List Text) : (∀ line ∈ ls, opensCrate d.name line = false) →
    Rewrites d new ls (ls ++ (h3 ++ d.name) :: new)

theorem opens_name : opensCrate d.name (h3 ++ d.name) = true := by
  rw [opensCrate, isSubsectionHeading_name, decide_eq_true_eq]

theorem ends_of_opens {n : Text} (h : opensCrate n line = true) : endsSubsection line = true := by
  rw [opensCrate, decide_eq_true_eq] at h
  rw [endsSubsection, h]
  rfl

theorem opens_ne {n n' : Text} (h : opensCrate n line = true) (hne : n ≠ n') :
    opensCrate n' line = false := by
  rw [opensCrate, decide_eq_true_eq] at h
  rw [opensCrate, h, decide_eq_false_iff_not, Option.some.injEq]
  exact hne

theorem quiet_opens {n : Text} (h : endsSubsection line = false) : opensCrate n line = false := by
  rw [← Bool.not_eq_true] at h ⊢
  exact fun hopens => h (ends_of_opens hopens)

variable {old new : List Text}

/-- Another subsection is what it was. -/
theorem Rewrites.sub_of_ne {b b' : List Text} (h : Rewrites d new b b') (hne : d.name ≠ c.name)
    (hnew : ∀ line ∈ new, endsSubsection line = false) : sub c.name b' = sub c.name b := by
  have hskip : ∀ (heading : Text) (ls rest : List Text), opensCrate d.name heading →
      (∀ line ∈ ls, endsSubsection line = false) →
      sub c.name (heading :: (ls ++ rest)) = sub c.name rest := by
    intro heading ls rest hheading hls
    exact part_append_of_none (s := heading :: ls) (List.forall_mem_cons.mpr
      ⟨opens_ne hheading hne, fun line hline => quiet_opens (hls line hline)⟩) rest
  cases h with
  | replace init heading rest hinit hheading =>
    have hrest : ∀ line ∈ rest.takeWhile (fun line => !endsSubsection line),
        endsSubsection line = false := by
      intro line hline
      simpa using List.mem_takeWhile_imp hline
    rw [sub, sub, part_append_ends (ends_of_opens hheading), part_append_ends (ends_of_opens hheading)]
    have h₁ := hskip heading new (rest.dropWhile fun line => !endsSubsection line) hheading hnew
    have h₂ := hskip heading (rest.takeWhile fun line => !endsSubsection line)
      (rest.dropWhile fun line => !endsSubsection line) hheading hrest
    rw [List.takeWhile_append_dropWhile] at h₂
    rw [sub, sub] at h₁ h₂
    rw [h₁, h₂]
  | append ls hls =>
    have hnone := hskip (h3 ++ d.name) new [] opens_name hnew
    rw [List.append_nil] at hnone
    rw [sub, sub, part_append_ends (ends_of_opens opens_name)]
    rw [sub] at hnone
    rw [hnone, show sub c.name [] = none from rfl, Option.or_none]

/-- A new subsection holds the new lines. -/
theorem Rewrites.sub_self {b b' : List Text} (h : Rewrites d new b b')
    (hnone : sub d.name b = none) (hnew : ∀ line ∈ new, endsSubsection line = false) :
    sub d.name b' = some new := by
  have hls := part_eq_none.mp hnone
  cases h with
  | replace init heading rest hinit hheading =>
    have hfalse := hls heading (by simp)
    rw [hheading] at hfalse
    cases hfalse
  | append ls =>
    rw [sub, part_append_of_none hls]
    have hpart : part (opensCrate d.name) endsSubsection ((h3 ++ d.name) :: (new ++ [])) = some new :=
      part_cons opens_name hnew fun _ h => by cases h
    rwa [List.append_nil] at hpart

/-- The unreleased changes of a file that is written with others. -/
theorem block_finish {init tail b : List Text} {heading : Text} {trailing : Bool}
    (hinit : ∀ line ∈ init, isUnreleasedHeading line = false)
    (hheading : isUnreleasedHeading heading) (htail : Closed endsBlock tail)
    (houter : ∀ line ∈ init ++ heading :: tail, '\n' ∉ line)
    (hb : ∀ line ∈ b, '\n' ∉ line ∧ endsBlock line = false) :
    Option.Rel (List.Forall₂ Reread) (some (nonblank b))
      (block (nonblank (Lines.lines (finish (init ++ heading :: (b ++ tail)) trailing)))) := by
  have hblock : block (nonblank (init ++ heading :: (b ++ tail))) = some (nonblank b) := by
    rw [block_nonblank, block, part_append_of_none hinit, part_cons hheading (fun line h => (hb line h).2) htail]
    rfl
  have hline : ∀ line ∈ init ++ heading :: (b ++ tail), '\n' ∉ line := by
    intro line hline
    have hperm : (init ++ heading :: (b ++ tail)).Perm (b ++ (init ++ heading :: tail)) := by
      have hswap : (heading :: (b ++ tail)).Perm (b ++ heading :: tail) := List.perm_middle.symm
      exact (hswap.append_left init).trans (List.perm_append_comm_assoc ..)
    rcases List.mem_append.mp (hperm.subset hline) with hline | hline
    · exact (hb line hline).1
    · exact houter line hline
  rw [← hblock]
  exact part_forall₂ (fun _ _ h => (@Reread.opens _ _ [] h).1) (fun _ _ h => h.ends.1)
    (lines_finish hline trailing)

theorem nested_line {line : Text} (h : line ∈ [] :: (nested body ++ [[]])) :
    '\n' ∉ line ∧ endsBlock line = false := by
  have hnil : '\n' ∉ ([] : Text) ∧ endsBlock [] = false := ⟨List.not_mem_nil, rfl⟩
  rcases List.mem_cons.mp h with rfl | h
  · exact hnil
  rcases List.mem_append.mp h with h | h
  · exact ⟨(nested_clean h).1.1, (Bool.or_eq_false_iff.mp (nested_quiet h).2).2⟩
  · rw [List.mem_singleton.mp h]
    exact hnil

theorem nonblank_nested (body : List Notes) :
    nonblank ([] :: (nested body ++ [[]])) = nested body := by
  have hself : nonblank (nested body) = nested body :=
    List.filter_eq_self.mpr fun line h => by simp [(nested_quiet h).1]
  calc nonblank ([] :: (nested body ++ [[]])) = nonblank (nested body ++ [[]]) := rfl
    _ = nonblank (nested body) ++ [] := nonblank_append ..
    _ = nested body := by rw [hself, List.append_nil]

/-- A refresh rewrites the unreleased changes of a root. -/
theorem refresh_spec {text h1 : Text} {b : List Text} (hbody : body ≠ [])
    (hb : block (nonblank (Lines.lines text)) = some b) :
    ∃ b', Rewrites d (nested body) b b' ∧ Option.Rel (List.Forall₂ Reread) (some b')
      (block (nonblank (Lines.lines (refresh h1 text (d, body))))) := by
  have hnewline : ∀ line ∈ Lines.lines text, '\n' ∉ line := fun _ h => Lines.newline_not_mem h
  rw [block_nonblank] at hb
  obtain ⟨b₀, hb₀, rfl⟩ := Option.map_eq_some_iff.mp hb
  rcases cutAfter_cases (p := isUnreleasedHeading) (Lines.lines text) with
    ⟨-, hall⟩ | ⟨init, heading, rest, hcut, hlines, hheading, hinit⟩
  · rw [block, part_eq_none.mpr hall] at hb₀
    cases hb₀
  have hrest : b₀ = rest.takeWhile fun line => !endsBlock line := by
    rw [block, hlines, part_append_of_none hinit, part, after, if_pos hheading] at hb₀
    exact (Option.some.inj hb₀).symm
  have hquiet : ∀ line ∈ b₀, '\n' ∉ line ∧ endsBlock line = false := by
    intro line hline
    rw [hrest] at hline
    refine ⟨hnewline line ?_, by simpa using List.mem_takeWhile_imp hline⟩
    rw [hlines]
    exact List.mem_append_right _ (List.mem_cons_of_mem _ ((List.takeWhile_sublist _).subset hline))
  have hfile : Lines.lines text = init ++ heading :: (b₀ ++ rest.dropWhile fun line => !endsBlock line) := by
    rw [hlines, hrest, List.takeWhile_append_dropWhile]
  have hwritten : joinLines (nested body) ≠ [] := joinLines_nested_eq_nil.not.mpr hbody
  have htail : Closed endsBlock (rest.dropWhile fun line => !endsBlock line) := closed_dropWhile rest
  simp only [refresh, replaceCrateSubsectionBody, demote_bodyText, hcut, ← hrest, if_neg hwritten]
  have houter : ∀ line ∈ init ++ heading :: rest.dropWhile (fun line => !endsBlock line),
      '\n' ∉ line := by
    intro line hline
    refine hnewline line ?_
    rw [hlines]
    exact List.Sublist.subset (.append (.refl _) (.cons_cons _ (List.dropWhile_sublist _))) hline
  generalize (rest.dropWhile fun line => !endsBlock line) = tail at hfile htail houter
  rcases cutAfter_cases (p := opensCrate d.name) b₀ with
    ⟨hnone, hls⟩ | ⟨before, start, s, hsome, rfl, hstart, hbefore⟩
  · refine ⟨_, .append (nonblank b₀) fun line hline => hls line (List.mem_of_mem_filter hline), ?_⟩
    have hout : init ++ [heading] ++ b₀.rdropWhile isBlank ++ [[]] ++
        Lines.lines (wrapSubsection d.name (joinLines (nested body))) ++ [[]] ++ tail =
        init ++ heading :: (b₀.rdropWhile isBlank ++
          ([] :: (h3 ++ d.name) :: [] :: (nested body ++ [[]])) ++ tail) := by
      simp [lines_wrapSubsection hbody]
    have hkept : nonblank (b₀.rdropWhile isBlank ++
        ([] :: (h3 ++ d.name) :: [] :: (nested body ++ [[]]))) =
        nonblank b₀ ++ (h3 ++ d.name) :: nested body := by
      have hblank : isBlank (h3 ++ d.name) = false := (hash_line ("## ".toList ++ d.name)).2
      have hname : nonblank ([] :: (h3 ++ d.name) :: [] :: (nested body ++ [[]])) =
          (h3 ++ d.name) :: nonblank ([] :: (nested body ++ [[]])) := by
        change nonblank ((h3 ++ d.name) :: [] :: (nested body ++ [[]])) = _
        exact List.filter_cons_of_pos (by simp [hblank])
      rw [nonblank_append, nonblank_rdropBlank, hname, nonblank_nested]
    have hb₁ : ∀ line ∈ [] :: (h3 ++ d.name) :: [] :: (nested body ++ [[]]),
        '\n' ∉ line ∧ endsBlock line = false := by
      intro line hline
      rcases List.mem_cons.mp hline with rfl | hline
      · exact @nested_line body _ List.mem_cons_self
      rcases List.mem_cons.mp hline with rfl | hline
      · refine ⟨(name_clean d).1, ?_⟩
        rw [endsBlock, show h3 ++ d.name = '#' :: ("## ".toList ++ d.name) from rfl,
          (hash_line _).1]
        rfl
      · exact nested_line hline
    simp only [hnone]
    rw [hout, ← hkept]
    refine block_finish hinit hheading htail houter fun line hline => ?_
    rcases List.mem_append.mp hline with hline | hline
    · exact hquiet line ((b₀.rdropWhile_prefix isBlank).subset hline)
    · exact hb₁ line hline
  · have hcons : ∀ ls, nonblank (start :: ls) = start :: nonblank ls := by
      have hblank : isBlank start = false := by
        rw [← Bool.not_eq_true]
        intro h
        rw [(blank_opens h).2] at hstart
        cases hstart
      exact fun ls => List.filter_cons_of_pos (by simp [hblank])
    have hkept : nonblank (before ++ start :: ([] :: (nested body ++ [[]]) ++
        s.dropWhile fun line => !endsSubsection line)) =
        nonblank before ++ start :: (nested body ++
          (nonblank s).dropWhile fun line => !endsSubsection line) := by
      have hdrop : (nonblank s).dropWhile (fun line => !endsSubsection line) =
          nonblank (s.dropWhile fun line => !endsSubsection line) :=
        dropWhile_filter (fun line h => (blank_ends (by simpa using h)).2) s
      rw [nonblank_append, hcons, nonblank_append, nonblank_nested, hdrop]
    have hold : nonblank (before ++ start :: s) = nonblank before ++ start :: nonblank s := by
      rw [nonblank_append, hcons]
    rw [hold]
    refine ⟨_, .replace (nonblank before) start (nonblank s)
      (fun line hline => hbefore line (List.mem_of_mem_filter hline)) hstart, ?_⟩
    have hout : init ++ [heading] ++ (before ++ [start]) ++ [[]] ++
        Lines.lines (joinLines (nested body)) ++ [[]] ++
        (s.dropWhile fun line => !endsSubsection line) ++ tail =
        init ++ heading :: (before ++ start :: ([] :: (nested body ++ [[]]) ++
          s.dropWhile fun line => !endsSubsection line) ++ tail) := by
      simp [lines_nested]
    simp only [hsome]
    rw [hout, ← hkept]
    refine block_finish hinit hheading htail houter fun line hline => ?_
    rcases List.mem_append.mp hline with hline | hline
    · exact hquiet line (List.mem_append_left _ hline)
    rcases List.mem_cons.mp hline with rfl | hline
    · exact hquiet line (List.mem_append_right _ List.mem_cons_self)
    rcases List.mem_append.mp hline with hline | hline
    · exact nested_line hline
    · exact hquiet line (List.mem_append_right _
        (List.mem_cons_of_mem _ ((List.dropWhile_sublist _).subset hline)))

end Anodizer.Changelog
