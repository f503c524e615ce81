import Anodizer.DefaultsMerge.Merge

/-! # What a fold keeps

A fold of the defaults keeps what the crates set. A second fold changes nothing
more when the entries of the defaults have identities.
-/

namespace Anodizer.DefaultsMerge

open Template (Text)
open Overlay (Doc)

variable {accepts : BlockKind → Json → Bool} {kind : BlockKind} {t d e : Json} {l l' : List Json}
  {target defaults : Option Json} {idf : Json → Option Text}

/-! ### One block -/

variable (accepts kind) in
theorem deepMergeStructInplace_cases (t d : Json) :
    deepMergeStructInplace accepts kind t d = t ∨
      deepMergeStructInplace accepts kind t d = t.overlay d := by
  rw [deepMergeStructInplace]
  split
  · exact .inr rfl
  · exact .inl rfl

theorem sets_deepMergeStructInplace (t d : Json) :
    t.Sets (deepMergeStructInplace accepts kind t d) := by
  rcases deepMergeStructInplace_cases accepts kind t d with h | h
  · rw [h]
    exact .same t
  · rw [h]
    exact Doc.sets_over t d

theorem deepMergeStructInplace_idem (t d : Json) :
    deepMergeStructInplace accepts kind (deepMergeStructInplace accepts kind t d) d =
      deepMergeStructInplace accepts kind t d := by
  by_cases h : accepts kind (t.overlay d)
  · simp [deepMergeStructInplace, h, Doc.over_over]
  · simp [deepMergeStructInplace, h]

theorem deepMergeStructInplace_self (d : Json) : deepMergeStructInplace accepts kind d d = d := by
  rw [deepMergeStructInplace, Doc.over_self, ite_self]

/-- What a block set before, it sets after. -/
def KeptBlock (b b' : Option Json) : Prop := ∀ t ∈ b, ∃ t' ∈ b', t.Sets t'

/-- A skipped block takes nothing. -/
def UntouchedBlock (b b' : Option Json) : Prop := ∀ t ∈ b, isSkipped t → b' = some t

theorem kept_deepMergeOption (target defaults : Option Json) :
    KeptBlock target (deepMergeOption accepts kind target defaults) := by
  rintro t rfl
  cases defaults with
  | none => exact ⟨t, rfl, .same t⟩
  | some d =>
    by_cases hs : isSkipped t
    · exact ⟨t, by simp [deepMergeOption, hs], .same t⟩
    · exact ⟨_, by simp only [deepMergeOption, hs]; rfl, sets_deepMergeStructInplace t d⟩

theorem untouched_deepMergeOption (target defaults : Option Json) :
    UntouchedBlock target (deepMergeOption accepts kind target defaults) := by
  rintro t rfl hs
  cases defaults with
  | none => rfl
  | some d => simp [deepMergeOption, hs]

theorem deepMergeOption_idem (target defaults : Option Json) :
    deepMergeOption accepts kind (deepMergeOption accepts kind target defaults) defaults =
      deepMergeOption accepts kind target defaults := by
  cases defaults with
  | none => rfl
  | some d =>
    cases target with
    | none => simp [deepMergeOption, deepMergeStructInplace_self]
    | some t =>
      by_cases hs : isSkipped t
      · simp [deepMergeOption, hs]
      · simp [deepMergeOption, hs, deepMergeStructInplace_idem]

/-! ### Identities -/

theorem identityMatches_iff {a b : Option Text} :
    identityMatches a b = true ↔ ∃ x, a = some x ∧ b = some x := by
  cases a <;> cases b <;> simp [identityMatches, eq_comm]

/-- A merge does not change the identity that it is made by. -/
def Stable (idf : Json → Option Text) : Prop :=
  ∀ e d, identityMatches (idf e) (idf d) → idf (e.overlay d) = idf e

theorem string?_eq_some {x : Text} : Json.string? t = some x ↔ t = .leaf (.string x) := by
  unfold Json.string?
  split
  · simp
  · next h => simpa using fun heq => h x heq

theorem node_of_field {key : Text} (h : Json.field e key ≠ .unset) : ∃ fields, e = .node fields := by
  unfold Json.field at h
  split at h
  · exact ⟨_, rfl⟩
  · exact absurd rfl h

theorem field_over {key : Text} {fields fields' : Text → Json} :
    Json.field ((Doc.node fields).overlay (.node fields')) key =
      (Json.field (.node fields) key).overlay (Json.field (.node fields') key) := by
  rw [Doc.node_over_node]
  rfl

theorem field_of_stringField {key x : Text} (h : Json.stringField e key = some x) :
    Json.field e key = .leaf (.string x) := string?_eq_some.mp h

theorem nodes_of_stringField {key key' x x' : Text} (h : Json.stringField e key = some x)
    (h' : Json.stringField d key' = some x') : ∃ f g, e = .node f ∧ d = .node g := by
  obtain ⟨f, hf⟩ := node_of_field (by rw [field_of_stringField h]; simp : Json.field e key ≠ .unset)
  obtain ⟨g, hg⟩ := node_of_field (by rw [field_of_stringField h']; simp : Json.field d key' ≠ .unset)
  exact ⟨f, g, hf, hg⟩

theorem stringField_over {key x : Text} {f g : Text → Json}
    (h : Json.stringField (.node f) key = some x) :
    Json.stringField ((Doc.node f).overlay (.node g)) key = some x := by
  rw [Json.stringField, field_over, field_of_stringField h]
  cases Json.field (.node g) key <;> rfl

theorem stable_stringField (key : Text) : Stable (Json.stringField · key) := by
  intro e d h
  obtain ⟨x, he, hd⟩ := identityMatches_iff.mp h
  obtain ⟨f, g, rfl, rfl⟩ := nodes_of_stringField he hd
  exact (stringField_over he).trans he.symm

theorem stable_archiveIdentity : Stable archiveIdentity := by
  intro e d h
  obtain ⟨x, he, hd⟩ := identityMatches_iff.mp h
  have hset : ∀ {a : Json}, archiveIdentity a = some x → ∃ f entry rest, a = .node f ∧
      f "formats".toList = .list (entry :: rest) := by
    intro a ha
    unfold archiveIdentity Json.firstString? at ha
    split at ha
    · next entry rest hfield =>
      obtain ⟨f, rfl⟩ := node_of_field (by rw [hfield]; simp : Json.field a "formats".toList ≠ .unset)
      exact ⟨f, entry, rest, rfl, hfield⟩
    · cases ha
  obtain ⟨f, entry, rest, rfl, hf⟩ := hset he
  obtain ⟨g, _, _, rfl, -⟩ := hset hd
  have hlist : f "formats".toList = Json.field (.node f) "formats".toList := rfl
  rw [archiveIdentity, archiveIdentity, field_over, ← hlist, hf]
  cases Json.field (.node g) "formats".toList <;> rfl

theorem stable_nfpmIdentity : Stable nfpmIdentity := by
  intro e d h
  obtain ⟨x, he, hd⟩ := identityMatches_iff.mp h
  have hkey : ∀ {a : Json}, nfpmIdentity a = some x → ∃ key, Json.stringField a key = some x := by
    intro a ha
    rcases Option.or_eq_some_iff.mp ha with ha | ⟨-, ha⟩
    · exact ⟨_, ha⟩
    · exact ⟨_, ha⟩
  obtain ⟨_, he'⟩ := hkey he
  obtain ⟨_, hd'⟩ := hkey hd
  obtain ⟨f, g, rfl, rfl⟩ := nodes_of_stringField he' hd'
  rw [he]
  rcases Option.or_eq_some_iff.mp he with hid | ⟨hid, hname⟩
  · exact Option.or_eq_some_iff.mpr (.inl (stringField_over hid))
  · have hmerged : Json.stringField ((Doc.node f).overlay (.node g)) "package_name".toList = some x :=
      stringField_over hname
    cases hnew : idOf ((Doc.node f).overlay (.node g)) with
    | none => exact Option.or_eq_some_iff.mpr (.inr ⟨hnew, hmerged⟩)
    | some y =>
      -- the identifier comes from the defaults, and is their identity
      have hleaf := field_of_stringField hnew
      rw [field_over] at hleaf
      rcases Doc.over_eq_leaf hleaf with hf | ⟨-, hg⟩
      · have hset : idOf (.node f) = some y := string?_eq_some.mpr hf
        rw [hid] at hset
        cases hset
      · have hdefault : idOf (.node g) = some y := string?_eq_some.mpr hg
        have hdy : nfpmIdentity (.node g) = some y := Option.or_eq_some_iff.mpr (.inl hdefault)
        obtain rfl : x = y := Option.some.inj (hd.symm.trans hdy)
        exact Option.or_eq_some_iff.mpr (.inl hnew)

theorem stable_identity (f : ListField) : Stable (identity f) := by
  cases f with
  | nfpms => exact stable_nfpmIdentity
  | snapcrafts => exact stable_stringField _
  | dmgs | pkgs | msis | nsis | appBundles | flatpaks | dockersV2 => exact stable_stringField _

/-! ### One list -/

/-- The entries keep their places, and what they set. -/
def KeptList (l l' : Option (List Json)) : Prop :=
  ∀ es ∈ l, ∃ es' added, l' = some (es' ++ added) ∧ List.Forall₂ Doc.Sets es es'

/-- A skipped entry takes nothing. -/
def UntouchedList (l l' : Option (List Json)) : Prop :=
  ∀ es ∈ l, ∃ es', l' = some es' ∧ ∀ (i : ℕ) (e : Json), es[i]? = some e → isSkipped e →
    es'[i]? = some e

def AtMostOneMore (l l' : Option (List Json)) : Prop :=
  (l'.getD []).length ≤ (l.getD []).length + 1

/-- What a merge into the first entry of an identity does. -/
inductive MergesFirst (accepts : BlockKind → Json → Bool) (kind : BlockKind)
    (idf : Json → Option Text) (d : Json) : List Json → List Json → Prop
  | mk (init : List Json) (e : Json) (rest : List Json) :
    (∀ x ∈ init, identityMatches (idf x) (idf d) = false) → identityMatches (idf e) (idf d) →
    MergesFirst accepts kind idf d (init ++ e :: rest)
      (init ++ (if isSkipped e then e else deepMergeStructInplace accepts kind e d) :: rest)

variable (accepts kind d idf) in
theorem mergeFirst_cases (l : List Json) :
    mergeFirst accepts kind idf d l = none ∧
        (∀ e ∈ l, identityMatches (idf e) (idf d) = false) ∨
      ∃ l', mergeFirst accepts kind idf d l = some l' ∧ MergesFirst accepts kind idf d l l' := by
  induction l with
  | nil => exact .inl ⟨rfl, by simp⟩
  | cons e l ih =>
    by_cases he : identityMatches (idf e) (idf d)
    · exact .inr ⟨_, if_pos he, .mk [] e l (by simp) he⟩
    · have hstep : mergeFirst accepts kind idf d (e :: l) =
          (mergeFirst accepts kind idf d l).map (e :: ·) := if_neg he
      rw [Bool.not_eq_true] at he
      rcases ih with ⟨hnone, hl⟩ | ⟨l', hsome, ⟨init, x, rest, hinit, hx⟩⟩
      · exact .inl ⟨by rw [hstep, hnone]; rfl, List.forall_mem_cons.mpr ⟨he, hl⟩⟩
      · exact .inr ⟨_, by rw [hstep, hsome]; rfl,
          .mk (e :: init) x rest (List.forall_mem_cons.mpr ⟨he, hinit⟩) hx⟩

theorem mergeFirst_mk {init rest : List Json} (hinit : ∀ x ∈ init,
    identityMatches (idf x) (idf d) = false) (he : identityMatches (idf e) (idf d)) :
    mergeFirst accepts kind idf d (init ++ e :: rest) = some (init ++
      (if isSkipped e then e else deepMergeStructInplace accepts kind e d) :: rest) := by
  induction init with
  | nil => exact if_pos he
  | cons x init ih =>
    obtain ⟨hx, hinit⟩ := List.forall_mem_cons.mp hinit
    have hstep : mergeFirst accepts kind idf d (x :: (init ++ e :: rest)) =
        (mergeFirst accepts kind idf d (init ++ e :: rest)).map (x :: ·) := by
      rw [mergeFirst, hx]
      rfl
    rw [List.cons_append, hstep, ih hinit]
    rfl

theorem mergeOneIntoList_eq (l : List Json) :
    mergeOneIntoList accepts kind idf l d = (mergeFirst accepts kind idf d l).getD (l ++ [d]) := by
  cases l <;> rfl

variable (accepts kind d idf) in
/-- A merge into a list: of one entry, or of a new one at the end. -/
theorem mergeOneIntoList_cases (l : List Json) :
    MergesFirst accepts kind idf d l (mergeOneIntoList accepts kind idf l d) ∨
      mergeOneIntoList accepts kind idf l d = l ++ [d] ∧
        ∀ e ∈ l, identityMatches (idf e) (idf d) = false := by
  rw [mergeOneIntoList_eq]
  rcases mergeFirst_cases accepts kind d idf l with
    ⟨hnone, hl⟩ | ⟨l', hsome, hmerges⟩
  · rw [hnone]
    exact .inr ⟨rfl, hl⟩
  · rw [hsome]
    exact .inl hmerges

/-- Merging once more changes nothing, when the entry has an identity. -/
theorem mergeOneIntoList_idem (hstable : Stable idf) (hkey : (idf d).isSome) (l : List Json) :
    mergeOneIntoList accepts kind idf (mergeOneIntoList accepts kind idf l d) d =
      mergeOneIntoList accepts kind idf l d := by
  rcases mergeOneIntoList_cases accepts kind d idf l with
    hmerges | ⟨heq, hnone⟩
  · generalize hl' : mergeOneIntoList accepts kind idf l d = l' at hmerges
    obtain ⟨init, e, rest, hinit, he⟩ := hmerges
    let merged := if isSkipped e then e else deepMergeStructInplace accepts kind e d
    have hid : identityMatches (idf merged) (idf d) = true := by
      have hcases : merged = e ∨ merged = e.overlay d := by
        by_cases hs : isSkipped e
        · exact .inl (if_pos hs)
        · rw [show merged = deepMergeStructInplace accepts kind e d from if_neg hs]
          exact deepMergeStructInplace_cases accepts kind e d
      rcases hcases with h | h
      · rwa [h]
      · rwa [h, hstable e d he]
    have hagain : (if isSkipped merged then merged
        else deepMergeStructInplace accepts kind merged d) = merged := by
      by_cases hs : isSkipped e
      · have hmerged : merged = e := if_pos hs
        rw [hmerged, if_pos hs]
      · have hmerged : merged = deepMergeStructInplace accepts kind e d := if_neg hs
        rw [hmerged, deepMergeStructInplace_idem, ite_self]
    change mergeOneIntoList accepts kind idf (init ++ merged :: rest) d = init ++ merged :: rest
    rw [mergeOneIntoList_eq, mergeFirst_mk hinit hid, hagain]
    rfl
  · obtain ⟨x, hx⟩ := Option.isSome_iff_exists.mp hkey
    have hself : identityMatches (idf d) (idf d) = true := identityMatches_iff.mpr ⟨x, hx, hx⟩
    rw [heq, mergeOneIntoList_eq, mergeFirst_mk hnone hself, deepMergeStructInplace_self, ite_self]
    rfl

theorem forall₂_same (l : List Json) : List.Forall₂ Doc.Sets l l :=
  List.forall₂_same.mpr fun e _ => .same e

theorem MergesFirst.kept {l l' : List Json} (h : MergesFirst accepts kind idf d l l') :
    List.Forall₂ Doc.Sets l l' := by
  obtain ⟨init, e, rest, -, -⟩ := h
  refine List.rel_append (forall₂_same init) (.cons ?_ (forall₂_same rest))
  split
  · exact .same e
  · exact sets_deepMergeStructInplace e d

theorem MergesFirst.untouched {l l' : List Json} (h : MergesFirst accepts kind idf d l l') {i : ℕ}
    {x : Json} (hx : l[i]? = some x) (hs : isSkipped x) : l'[i]? = some x := by
  obtain ⟨init, e, rest, -, -⟩ := h
  rw [List.getElem?_append] at hx ⊢
  split at hx
  · next hlt => rw [if_pos hlt, hx]
  · next hge =>
    rw [if_neg hge]
    rcases hi : i - init.length with _ | j
    · rw [hi, List.getElem?_cons_zero, Option.some.injEq] at hx
      rw [List.getElem?_cons_zero, hx, if_pos hs]
    · rw [hi, List.getElem?_cons_succ] at hx
      rw [List.getElem?_cons_succ, hx]

theorem MergesFirst.length {l l' : List Json} (h : MergesFirst accepts kind idf d l l') :
    l'.length = l.length := h.kept.length_eq.symm

theorem kept_mergeOneIntoList (l : List Json) :
    KeptList (some l) (some (mergeOneIntoList accepts kind idf l d)) := by
  rintro _ ⟨⟩
  rcases mergeOneIntoList_cases accepts kind d idf l with
    h | ⟨heq, -⟩
  · exact ⟨_, [], by rw [List.append_nil], h.kept⟩
  · exact ⟨l, [d], by rw [heq], forall₂_same l⟩

theorem untouched_mergeOneIntoList (l : List Json) :
    UntouchedList (some l) (some (mergeOneIntoList accepts kind idf l d)) := by
  rintro _ ⟨⟩
  refine ⟨_, rfl, fun i e he hs => ?_⟩
  rcases mergeOneIntoList_cases accepts kind d idf l with
    h | ⟨heq, -⟩
  · exact h.untouched he hs
  · rw [heq, List.getElem?_append_left (List.getElem?_eq_some_iff.mp he).1, he]

theorem length_mergeOneIntoList (l : List Json) :
    (mergeOneIntoList accepts kind idf l d).length ≤ l.length + 1 := by
  rcases mergeOneIntoList_cases accepts kind d idf l with
    h | ⟨heq, -⟩
  · rw [h.length]
    omega
  · rw [heq, List.length_append, List.length_singleton]

/-- Nothing is appended beside an entry of the same identity. -/
theorem length_of_match {l : List Json} (he : e ∈ l) (h : identityMatches (idf e) (idf d)) :
    (mergeOneIntoList accepts kind idf l d).length = l.length := by
  rcases mergeOneIntoList_cases accepts kind d idf l with
    hm | ⟨-, hnone⟩
  · exact hm.length
  · rw [hnone e he] at h
    cases h

end Anodizer.DefaultsMerge
