import Anodizer.Git.TagFamily

/-! # Membership in a tag family

A tag belongs to the family whose prefix it carries, unless a sibling family
has a longer prefix of the tag. No tag belongs to two families that know of
each other.
-/

namespace Anodizer.Git

open Template (Text)

def tagInFamily (tag template : Text) (monorepoPrefix : Option Text) : Bool :=
  (tagFamilyScope template monorepoPrefix).any (·.contains tag)

def tagInFamilyExcludingSiblings (tag template : Text) (monorepoPrefix : Option Text)
    (siblings : List Text) : Bool :=
  tagInFamily tag template monorepoPrefix &&
    !(excludedSiblingPrefixes template monorepoPrefix siblings).any (·.isPrefixOf tag)

/-- The text a scope puts before a name. -/
def TagFamilyScope.lead : TagFamilyScope → Text
  | .literal p => p
  | .bareVersion => []

variable {template tag p q x : Text} {ns : Option Text} {siblings : List Text}
  {scope : TagFamilyScope}

theorem tagFamilyPrefix_of_scope (h : tagFamilyScope template ns = some scope) :
    tagFamilyPrefix template ns = some scope.lead := by
  rw [tagFamilyPrefix, h]
  cases scope <;> rfl

theorem tagFamilyPrefix_eq_some :
    tagFamilyPrefix template ns = some p ↔
      ∃ scope, tagFamilyScope template ns = some scope ∧ scope.lead = p := by
  rw [tagFamilyPrefix, Option.map_eq_some_iff]
  refine exists_congr fun scope => and_congr_right fun _ => ?_
  cases scope <;> exact Iff.rfl

namespace TagFamilyScope

/-- A tag of the family is its lead and a rest, which starts with a digit in a bare family. -/
theorem contains_iff : scope.contains tag = true ↔
    scope.lead <+: tag ∧ (scope = bareVersion → tag.head?.any Char.isDigit = true) := by
  cases scope with
  | literal p => simp [contains, lead]
  | bareVersion => simp [contains, lead]

end TagFamilyScope

/-! ### Lengths in bytes -/

theorem byteLength_append : byteLength (p ++ q) = byteLength p + byteLength q := by
  simp [byteLength]

theorem byteLength_pos (h : p ≠ []) : 0 < byteLength p := by
  obtain ⟨c, cs, rfl⟩ := List.exists_cons_of_ne_nil h
  have hc := c.utf8Size_pos
  simp only [byteLength, List.map_cons, List.sum_cons]
  omega

/-- Of two prefixes of one tag, the longer continues the shorter. -/
theorem longer_prefix_iff (hp : p <+: tag) :
    byteLength p < byteLength q ∧ q <+: tag ↔ ∃ x, x ≠ [] ∧ q = p ++ x ∧ p ++ x <+: tag := by
  constructor
  · rintro ⟨hlt, hq⟩
    rcases List.prefix_or_prefix_of_prefix hp hq with ⟨x, rfl⟩ | ⟨x, rfl⟩
    · refine ⟨x, ?_, rfl, hq⟩
      rintro rfl
      simp at hlt
    · rw [byteLength_append] at hlt
      omega
  · rintro ⟨x, hx, rfl, hq⟩
    refine ⟨?_, hq⟩
    have hpos := byteLength_pos hx
    rw [byteLength_append]
    omega

theorem eq_of_byteLength_eq (hp : p <+: tag) (hq : q <+: tag) (h : byteLength p = byteLength q) :
    p = q := by
  rcases List.prefix_or_prefix_of_prefix hp hq with ⟨x, rfl⟩ | ⟨x, rfl⟩
  all_goals
    by_cases hx : x = []
    · simp [hx]
    · have hpos := byteLength_pos hx
      rw [byteLength_append] at h
      omega

/-! ### Siblings -/

/-- A pass that adds what each element asks for. -/
theorem mem_foldl_iff {α β : Type*} {f : List β → α → List β} {b : β} {P : α → Prop}
    (hf : ∀ out a, b ∈ f out a ↔ b ∈ out ∨ P a) (l : List α) (out : List β) :
    b ∈ l.foldl f out ↔ b ∈ out ∨ ∃ a ∈ l, P a := by
  induction l generalizing out with
  | nil => simp
  | cons a l ih =>
    rw [List.foldl_cons, ih, hf, or_assoc]
    simp

theorem mem_excludedSiblingPrefixes : q ∈ excludedSiblingPrefixes template ns siblings ↔
    ∃ s ∈ siblings, tagFamilyPrefix s ns = some q ∧
      byteLength ((tagFamilyPrefix template ns).getD []) < byteLength q := by
  unfold excludedSiblingPrefixes
  dsimp only
  generalize (tagFamilyPrefix template ns).getD [] = own
  refine (mem_foldl_iff (P := fun s => tagFamilyPrefix s ns = some q ∧
    byteLength own < byteLength q) (fun out s => ?_) siblings []).trans (by simp)
  cases tagFamilyPrefix s ns with
  | none => simp
  | some p =>
    rw [Option.some.injEq]
    dsimp only
    split
    · next hnew =>
      simp only [Bool.and_eq_true, decide_eq_true_eq] at hnew
      rw [List.mem_append, List.mem_singleton]
      refine or_congr_right ⟨?_, fun h => h.1.symm⟩
      rintro rfl
      exact ⟨rfl, hnew.1⟩
    · next hnew =>
      simp only [Bool.and_eq_true, decide_eq_true_eq, Bool.not_eq_true', List.contains_eq_mem,
        decide_eq_false_iff_not, not_and, not_not] at hnew
      refine ⟨.inl, ?_⟩
      rintro (h | ⟨rfl, hlt⟩)
      · exact h
      · exact hnew hlt

/-- A sibling family takes the tag away from the family with this prefix. -/
def Takes (ns : Option Text) (siblings : List Text) (p tag : Text) : Prop :=
  ∃ s ∈ siblings, ∃ x, x ≠ [] ∧ tagFamilyPrefix s ns = some (p ++ x) ∧ p ++ x <+: tag

theorem tagInFamilyExcludingSiblings_iff :
    tagInFamilyExcludingSiblings tag template ns siblings = true ↔
      ∃ scope, tagFamilyScope template ns = some scope ∧ scope.contains tag = true ∧
        ¬Takes ns siblings scope.lead tag := by
  rw [tagInFamilyExcludingSiblings, tagInFamily]
  cases hscope : tagFamilyScope template ns with
  | none => simp
  | some scope =>
    simp only [Option.any_some, Bool.and_eq_true, Option.some.injEq, exists_eq_left']
    refine and_congr_right fun hin => ?_
    have hlead := (TagFamilyScope.contains_iff.mp hin).1
    simp only [Bool.not_eq_true', ← Bool.not_eq_true, List.any_eq_true,
      mem_excludedSiblingPrefixes, tagFamilyPrefix_of_scope hscope, Option.getD_some,
      List.isPrefixOf_iff_prefix, not_iff_not]
    constructor
    · rintro ⟨q, ⟨s, hs, hq, hlt⟩, hpre⟩
      obtain ⟨x, hx, rfl, hx'⟩ := (longer_prefix_iff hlead).mp ⟨hlt, hpre⟩
      exact ⟨s, hs, x, hx, hq, hx'⟩
    · rintro ⟨s, hs, x, hx, hq, hx'⟩
      obtain ⟨hlt, hpre⟩ := (longer_prefix_iff hlead).mpr ⟨x, hx, rfl, hx'⟩
      exact ⟨_, ⟨s, hs, hq, hlt⟩, hpre⟩

/-- Two families that know of each other share no tag, unless they have one prefix. -/
theorem tagInFamilyExcludingSiblings_disjoint {template' : Text} {siblings' : List Text}
    (hne : tagFamilyPrefix template ns ≠ tagFamilyPrefix template' ns)
    (hmem : template' ∈ siblings) (hmem' : template ∈ siblings')
    (h : tagInFamilyExcludingSiblings tag template ns siblings = true) :
    tagInFamilyExcludingSiblings tag template' ns siblings' = false := by
  rw [← Bool.not_eq_true]
  intro h'
  obtain ⟨scope, hscope, hin, hfree⟩ := tagInFamilyExcludingSiblings_iff.mp h
  obtain ⟨scope', hscope', hin', hfree'⟩ := tagInFamilyExcludingSiblings_iff.mp h'
  have hp := tagFamilyPrefix_of_scope hscope
  have hp' := tagFamilyPrefix_of_scope hscope'
  have hpre := (TagFamilyScope.contains_iff.mp hin).1
  have hpre' := (TagFamilyScope.contains_iff.mp hin').1
  rw [hp, hp', ne_eq, Option.some.injEq] at hne
  -- the longer of the two prefixes takes the tag
  rcases List.prefix_or_prefix_of_prefix hpre hpre' with ⟨x, hx⟩ | ⟨x, hx⟩
  · refine hfree ⟨template', hmem, x, ?_, hx ▸ hp', hx ▸ hpre'⟩
    rintro rfl
    exact hne (by simpa using hx)
  · refine hfree' ⟨template, hmem', x, ?_, hx ▸ hp, hx ▸ hpre⟩
    rintro rfl
    exact hne (by simpa using hx.symm)

/-! ### Configured families -/

/-- The longest prefix of a configured family that the tag starts with. -/
structure LongestPrefix (templates : List Text) (ns : Option Text) (tag p : Text) : Prop where
  configured : ∃ t ∈ templates, tagFamilyPrefix t ns = some p
  starts : p <+: tag
  longest : ∀ t ∈ templates, ∀ q, tagFamilyPrefix t ns = some q → q <+: tag → q.length ≤ p.length

variable {templates : List Text}

theorem LongestPrefix.unique (hp : LongestPrefix templates ns tag p)
    (hq : LongestPrefix templates ns tag q) : p = q := by
  obtain ⟨t, ht, htp⟩ := hp.configured
  obtain ⟨t', ht', htq⟩ := hq.configured
  have hle := hp.longest t' ht' q htq hq.starts
  have hge := hq.longest t ht p htp hp.starts
  have heq : p.length = q.length := by omega
  exact (List.prefix_of_prefix_length_le hp.starts hq.starts hge).eq_of_length heq

/-- Nothing takes the tag away from the longest prefix only. -/
theorem not_takes_iff_longest (ht : template ∈ templates) (hp : tagFamilyPrefix template ns = some p)
    (htag : p <+: tag) : ¬Takes ns templates p tag ↔ LongestPrefix templates ns tag p := by
  constructor
  · intro hfree
    refine ⟨⟨template, ht, hp⟩, htag, fun t ht' q hq hqtag => ?_⟩
    by_contra hlt
    obtain ⟨x, rfl⟩ := List.prefix_of_prefix_length_le htag hqtag (by omega)
    refine hfree ⟨t, ht', x, ?_, hq, hqtag⟩
    rintro rfl
    simp at hlt
  · rintro hlong ⟨t, ht', x, hx, hq, hqtag⟩
    have hle := hlong.longest t ht' (p ++ x) hq hqtag
    have hpos := List.length_pos_iff.mpr hx
    rw [List.length_append] at hle
    omega

theorem exists_longest_member (h : ∃ t ∈ templates, tagInFamily tag t ns = true) :
    ∃ t ∈ templates, tagInFamily tag t ns = true ∧ ∀ t' ∈ templates, tagInFamily tag t' ns = true →
      ((tagFamilyPrefix t' ns).getD []).length ≤ ((tagFamilyPrefix t ns).getD []).length := by
  obtain ⟨t, ht, hin⟩ := h
  let width (t : Text) : ℕ := ((tagFamilyPrefix t ns).getD []).length
  let members := templates.filter fun t => tagInFamily tag t ns
  have hmem : ∀ {t}, t ∈ members ↔ t ∈ templates ∧ tagInFamily tag t ns = true := List.mem_filter
  have hne : members.argmax width ≠ none := fun hnone =>
    List.ne_nil_of_mem (hmem.mpr ⟨ht, hin⟩) (List.argmax_eq_none.mp hnone)
  obtain ⟨m, hm⟩ := Option.ne_none_iff_exists'.mp hne
  obtain ⟨hmt, hmin⟩ := hmem.mp (List.argmax_mem hm)
  exact ⟨m, hmt, hmin, fun t' ht' hin' =>
    List.le_of_mem_argmax (f := width) (hmem.mpr ⟨ht', hin'⟩) hm⟩

/-- The configured families part the tags: a tag goes to the families of the longest prefix it
starts with, and to some family when it is inside any. -/
theorem families_partition (templates : List Text) (ns : Option Text) (tag : Text) :
    (∀ t ∈ templates, tagInFamilyExcludingSiblings tag t ns templates = true →
      ∃ p, tagFamilyPrefix t ns = some p ∧ LongestPrefix templates ns tag p) ∧
    (∀ t ∈ templates, ∀ t' ∈ templates, tagInFamilyExcludingSiblings tag t ns templates = true →
      tagInFamilyExcludingSiblings tag t' ns templates = true →
        tagFamilyPrefix t ns = tagFamilyPrefix t' ns) ∧
    ((∃ t ∈ templates, tagInFamily tag t ns = true) →
      ∃ t ∈ templates, tagInFamilyExcludingSiblings tag t ns templates = true) := by
  have hlongest : ∀ t ∈ templates, tagInFamilyExcludingSiblings tag t ns templates = true →
      ∃ p, tagFamilyPrefix t ns = some p ∧ LongestPrefix templates ns tag p := by
    intro t ht h
    obtain ⟨scope, hscope, hin, hfree⟩ := tagInFamilyExcludingSiblings_iff.mp h
    have hp := tagFamilyPrefix_of_scope hscope
    exact ⟨scope.lead, hp,
      (not_takes_iff_longest ht hp (TagFamilyScope.contains_iff.mp hin).1).mp hfree⟩
  refine ⟨hlongest, ?_, ?_⟩
  · intro t ht t' ht' h h'
    obtain ⟨p, hp, hlong⟩ := hlongest t ht h
    obtain ⟨q, hq, hlong'⟩ := hlongest t' ht' h'
    rw [hp, hq, hlong.unique hlong']
  · intro hany
    obtain ⟨t, ht, hin, hmax⟩ := exists_longest_member hany
    refine ⟨t, ht, ?_⟩
    obtain ⟨scope, hscope, hcontains⟩ : ∃ scope, tagFamilyScope t ns = some scope ∧
        scope.contains tag = true := by
      simpa [tagInFamily, Option.any_eq_true] using hin
    have hp := tagFamilyPrefix_of_scope hscope
    refine tagInFamilyExcludingSiblings_iff.mpr ⟨scope, hscope, hcontains, ?_⟩
    -- a family that takes the tag has a literal prefix, so the tag is inside it
    rintro ⟨s, hs, x, hx, hq, hqtag⟩
    obtain ⟨scope', hscope', hlead⟩ := tagFamilyPrefix_eq_some.mp hq
    have hne : scope' ≠ .bareVersion := by
      rintro rfl
      exact hx (List.append_eq_nil_iff.mp hlead.symm).2
    have hin' : tagInFamily tag s ns = true := by
      rw [tagInFamily, hscope', Option.any_some, TagFamilyScope.contains_iff]
      exact ⟨hlead ▸ hqtag, fun hbare => absurd hbare hne⟩
    have hle := hmax s hs hin'
    have hpos := List.length_pos_iff.mpr hx
    rw [hp, hq, Option.getD_some, Option.getD_some, List.length_append] at hle
    omega

/-! ### Glued prefixes -/

/-- What follows the prefix of a name that may spell the prefix out. -/
theorem composePrefix_strip (p r : Text) : composePrefix p r = p ++ stripMonorepoPrefix r p := by
  unfold composePrefix stripMonorepoPrefix
  by_cases h : p <+: r
  · obtain ⟨x, rfl⟩ := h
    simp
  · have hpre : p.isPrefixOf r = false :=
      Bool.eq_false_iff.mpr fun hp => h (List.isPrefixOf_iff_prefix.mp hp)
    have hp : p ≠ [] := by
      rintro rfl
      exact h (List.nil_prefix)
    simp [hpre, hp]

end Anodizer.Git
