import Anodizer.Redact.Places

/-! # Two layers of redaction

The credentials of URLs are stripped before the secrets are masked. Where the longest secret stands
alone wherever one does, and no masked occurrence reaches across an edge of a userinfo part, the
second layer masks all that it would have masked without the first.
-/

namespace Anodizer.Redact

open Template (Text)
open Git (byteLength byteLength_append byteLength_pos)
open Traced UrlParts

/-- The secret starts what is left of a text, and may be masked there. -/
def Stands (u : RedactTables) (prev : Option Char) (value rest : Text) : Prop :=
  value <+: rest ∧ standsAlone u prev value (rest.drop value.length).head?

instance (u : RedactTables) (prev : Option Char) (value rest : Text) :
    Decidable (Stands u prev value rest) := inferInstanceAs (Decidable (_ ∧ _))

section Conditions

variable (u : RedactTables) (secrets : List (Text × Text)) (prev : Option Char) (input : Text)

/-- Where the masking finds a secret that stands alone, it finds one to mask. -/
def MasksWhereStands : Prop :=
  ∀ t ∈ maskStates u secrets prev input, ∀ kv ∈ secrets, Stands u t.1 kv.2 t.2 →
    maskable u secrets t.1 t.2 ≠ none

/-- No masked occurrence reaches across one of the places where these ends of the input begin. -/
def NoneAcross (edges : List Text) : Prop :=
  ∀ t ∈ maskStates u secrets prev input, ∀ edge ∈ edges, edge <:+ t.2 → edge ≠ t.2 →
    ∀ kv ∈ maskable u secrets t.1 t.2, kv.2.length + edge.length ≤ t.2.length

/-- A secret that stands alone and starts in a masked occurrence is shorter than that. -/
def NoneCut : Prop :=
  ∀ t ∈ maskStates u secrets prev input, ∀ found ∈ maskable u secrets t.1 t.2,
    ∀ k < found.2.length, 0 < k → ∀ kv ∈ secrets,
      Stands u (t.2.take k).getLast? kv.2 (t.2.drop k) → byteLength kv.2 < byteLength found.2

instance : Decidable (MasksWhereStands u secrets prev input) :=
  inferInstanceAs (Decidable (∀ t ∈ maskStates u secrets prev input, ∀ kv ∈ secrets, _))

instance (edges : List Text) : Decidable (NoneAcross u secrets prev input edges) :=
  inferInstanceAs (Decidable (∀ t ∈ maskStates u secrets prev input, ∀ edge ∈ edges, _))

instance : Decidable (NoneCut u secrets prev input) :=
  inferInstanceAs (Decidable (∀ t ∈ maskStates u secrets prev input,
    ∀ found ∈ maskable u secrets t.1 t.2, ∀ k < found.2.length, _))

end Conditions

/-- The ends of a filled text that begin at an edge of what fills it. -/
def edges (f : Text → Text) (last : Text) : List (Text × Text) → List Text
  | [] => []
  | (_, userinfo) :: parts =>
    (f userinfo ++ fill f last parts) :: fill f last parts :: edges f last parts

/-! ### Through a kept text -/

section Kept

variable {u : RedactTables} {secrets : List (Text × Text)} {prev prev₁ prev₂ : Option Char}
  {kept value r₁ r₂ : Text}

theorem edgeOk_of_not_word {edge valueEdge : Option Char}
    (h : ∀ c, valueEdge = some c → isWordChar u c = false) : edgeOk u edge valueEdge := by
  cases valueEdge with
  | none => rfl
  | some c => simp [edgeOk, h c rfl]

/-- A kept text starts alike in both texts, or with a character that no word goes on with. -/
def HeadAlike (u : RedactTables) (prev₁ prev₂ : Option Char) (kept : Text) : Prop :=
  prev₁ = prev₂ ∨ ∃ c, kept.head? = some c ∧ isWordChar u c = false

/-- What follows a kept text is the same, or no word ends where the kept text does. -/
def LastAlike {α : Type} (u : RedactTables) (r₁ r₂ : α) (kept : Text) : Prop :=
  r₁ = r₂ ∨ ∀ c, kept.getLast? = some c → isWordChar u c = false

/-- What stands in a kept text stands in it whatever surrounds it. -/
theorem Stands.congr (h : Stands u prev₁ value (kept ++ r₁)) (hlen : value.length ≤ kept.length)
    (hhead : HeadAlike u prev₁ prev₂ kept) (hlast : LastAlike u r₁ r₂ kept) :
    Stands u prev₂ value (kept ++ r₂) := by
  obtain ⟨hstarts, hstands⟩ := h
  obtain ⟨tail, rfl⟩ := List.prefix_of_prefix_length_le hstarts (List.prefix_append kept r₁) hlen
  refine ⟨⟨tail ++ r₂, (List.append_assoc ..).symm⟩, ?_⟩
  rw [List.append_assoc, List.drop_left, standsAlone] at hstands ⊢
  split
  · rfl
  · next hshort =>
    rw [if_neg hshort, Bool.and_eq_true] at hstands
    obtain ⟨hbefore, hafter⟩ := hstands
    rw [Bool.and_eq_true]
    constructor
    · rcases hhead with rfl | ⟨c, hc, hword⟩
      · exact hbefore
      · refine edgeOk_of_not_word fun d hd => ?_
        rw [List.head?_append, hd] at hc
        exact Option.some.inj hc ▸ hword
    · cases tail with
      | cons c tail => exact hafter
      | nil =>
        rw [List.append_nil] at hlast
        rcases hlast with rfl | hword
        · exact hafter
        · exact edgeOk_of_not_word hword

/-- Of two searches that each find what the other could find, both find the same. -/
theorem find?_eq_of_agree {α : Type*} {p q : α → Bool} {l : List α} {a b : α}
    (ha : l.find? p = some a) (hb : l.find? q = some b) (hqa : q a) (hpb : p b) : a = b := by
  induction l with
  | nil => cases ha
  | cons c l ih =>
    rw [List.find?_cons] at ha hb
    cases hp : p c <;> cases hq : q c <;> simp only [hp, hq] at ha hb
    · exact ih ha hb
    · obtain rfl := Option.some.inj hb
      rw [hp] at hpb
      cases hpb
    · obtain rfl := Option.some.inj ha
      rw [hq] at hqa
      cases hqa
    · rw [← Option.some.inj ha, ← Option.some.inj hb]

/-- A kept text starts with the same secret to mask, whatever surrounds it. -/
theorem maskable_congr (hhead : HeadAlike u prev₁ prev₂ kept) (hlast : LastAlike u r₁ r₂ kept)
    (hin₁ : ∀ kv ∈ maskable u secrets prev₁ (kept ++ r₁), kv.2.length ≤ kept.length)
    (hin₂ : ∀ kv ∈ maskable u secrets prev₂ (kept ++ r₂), kv.2.length ≤ kept.length)
    (hstands₁ : ∀ kv ∈ secrets, Stands u prev₁ kv.2 (kept ++ r₁) →
      maskable u secrets prev₁ (kept ++ r₁) ≠ none)
    (hstands₂ : ∀ kv ∈ secrets, Stands u prev₂ kv.2 (kept ++ r₂) →
      maskable u secrets prev₂ (kept ++ r₂) ≠ none) :
    maskable u secrets prev₁ (kept ++ r₁) = maskable u secrets prev₂ (kept ++ r₂) := by
  have hhead' : HeadAlike u prev₂ prev₁ kept := hhead.imp Eq.symm id
  have hlast' : LastAlike u r₂ r₁ kept := hlast.imp Eq.symm id
  cases h₁ : maskable u secrets prev₁ (kept ++ r₁) with
  | none =>
    cases h₂ : maskable u secrets prev₂ (kept ++ r₂) with
    | none => rfl
    | some kv₂ =>
      obtain ⟨hmem, hstarts⟩ := maskable_mem h₂
      have hstands : Stands u prev₂ kv₂.2 (kept ++ r₂) :=
        ⟨hstarts, (maskable_eq_some_iff.mp h₂).2⟩
      exact absurd h₁ (hstands₁ kv₂ hmem (hstands.congr (hin₂ kv₂ h₂) hhead' hlast'))
  | some kv₁ =>
    obtain ⟨hmem, hstarts⟩ := maskable_mem h₁
    have hstands : Stands u prev₁ kv₁.2 (kept ++ r₁) := ⟨hstarts, (maskable_eq_some_iff.mp h₁).2⟩
    have hother := hstands.congr (hin₁ kv₁ h₁) hhead hlast
    cases h₂ : maskable u secrets prev₂ (kept ++ r₂) with
    | none => exact absurd h₂ (hstands₂ kv₁ hmem hother)
    | some kv₂ =>
      have hstarts₂ : kv₂.2 <+: kept := List.prefix_of_prefix_length_le (maskable_mem h₂).2
        (List.prefix_append kept r₂) (hin₂ kv₂ h₂)
      refine congrArg some (find?_eq_of_agree (maskable_eq_some_iff.mp h₁).1
        (maskable_eq_some_iff.mp h₂).1 ?_ ?_)
      · exact List.isPrefixOf_iff_prefix.mpr hother.1
      · exact List.isPrefixOf_iff_prefix.mpr (hstarts₂.trans (List.prefix_append kept r₁))

end Kept

/-! ### The two maskings -/

section Maskings

variable {u : RedactTables} {secrets : List (Text × Text)} {prev prev₁ prev₂ : Option Char}
  {x pre r r₁ r₂ kept : Traced}

/-- The masking of a text that the two layers treat alike. -/
structure Clear (u : RedactTables) (secrets : List (Text × Text)) (prev : Option Char)
    (input : Text) (edges : List Text) : Prop where
  masks_where_stands : MasksWhereStands u secrets prev input
  none_across : NoneAcross u secrets prev input edges

theorem Clear.mono {input input' : Text} {ends ends' : List Text}
    (h : Clear u secrets prev₁ input ends)
    (hstates : maskStates u secrets prev₂ input' ⊆ maskStates u secrets prev₁ input)
    (hends : ends' ⊆ ends) : Clear u secrets prev₂ input' ends' where
  masks_where_stands t ht := h.masks_where_stands t (hstates ht)
  none_across t ht edge hedge := h.none_across t (hstates ht) edge (hends hedge)

theorem NoneAcross.length_le {input kept r : Text} {q : Option Char}
    (h : NoneAcross u secrets prev input [r]) (hne : kept ≠ [])
    (hstate : (q, kept ++ r) ∈ maskStates u secrets prev input) :
    ∀ kv ∈ maskable u secrets q (kept ++ r), kv.2.length ≤ kept.length := by
  intro kv hkv
  have hpos := List.length_pos_iff.mpr hne
  have hlt : r ≠ kept ++ r := by
    intro heq
    have hlen := congrArg List.length heq
    rw [List.length_append] at hlen
    omega
  have hle := h _ hstate r List.mem_cons_self (List.suffix_append kept r) hlt kv hkv
  simp only [List.length_append] at hle
  omega

theorem maskBy_append {found : Option (Text × Text)} {c : Char × Option ℕ} {cs : Traced}
    (h : ∀ kv ∈ found, kv.2.length ≤ (c :: cs).length) (r : Traced) :
    maskBy found c (cs ++ r) =
      ⟨(maskBy found c cs).emit, (maskBy found c cs).state, (maskBy found c cs).rest ++ r⟩ := by
  cases found with
  | none => rfl
  | some kv =>
    have hdrop : ((c :: cs) ++ r).drop kv.2.length = (c :: cs).drop kv.2.length ++ r :=
      List.drop_append_of_le_length (h kv rfl)
    exact congrArg (Scan.Step.mk _ _) hdrop

/-- A masking that masks nothing across a place of the text comes there. -/
theorem maskTrace_reaches (hsecrets : ∀ kv ∈ secrets, kv.2 ≠ [])
    (h : NoneAcross u secrets prev (text (pre ++ r)) [text r]) :
    ∃ q out, (places out).Sublist (places pre) ∧
      maskTrace u secrets prev (pre ++ r) = out ++ maskTrace u secrets q r ∧
      maskStates u secrets q (text r) ⊆ maskStates u secrets prev (text (pre ++ r)) := by
  have hshrinks := maskTraceStep_shrinks (u := u) hsecrets
  have hover : ∀ s' c as, (s', c :: as) ∈ Scan.states (maskTraceStep u secrets) prev (pre ++ r) →
      r <:+ as → r <:+ (maskTraceStep u secrets s' c as).rest := by
    rintro s' c _ hmem ⟨mid, rfl⟩
    have hstate : (s', text (c :: mid) ++ text r) ∈
        maskStates u secrets prev (text (pre ++ r)) := by
      rw [maskStates_text hsecrets, ← text_append]
      exact List.mem_map_of_mem hmem
    have hne : text (c :: mid) ≠ [] := List.cons_ne_nil _ _
    have hle := h.length_le hne hstate
    rw [length_text, ← text_append] at hle
    rw [maskTraceStep, ← List.cons_append, maskBy_append hle]
    exact List.suffix_append _ r
  obtain ⟨q, out, hout, hscan, hstates⟩ := maskTraceStep_tracks.reaches hshrinks hover
  refine ⟨q, out, hout, hscan, ?_⟩
  rw [maskStates_text hsecrets, maskStates_text hsecrets]
  exact List.map_subset _ hstates

theorem maskStates_step_subset (hsecrets : ∀ kv ∈ secrets, kv.2 ≠ []) {c : Char × Option ℕ}
    {cs rest : Traced} {emit : Traced} {q : Option Char}
    (h : maskTraceStep u secrets prev c cs = ⟨emit, q, rest⟩) :
    maskStates u secrets q (text rest) ⊆ maskStates u secrets prev (text (c :: cs)) := by
  have hsub : Scan.states (maskTraceStep u secrets) (maskTraceStep u secrets prev c cs).state
      (maskTraceStep u secrets prev c cs).rest ⊆
        Scan.states (maskTraceStep u secrets) prev (c :: cs) :=
    Scan.states_step_subset (maskTraceStep_shrinks hsecrets)
  rw [h] at hsub
  rw [maskStates_text hsecrets, maskStates_text hsecrets]
  exact List.map_subset _ hsub

theorem maskBy_rest_suffix (hsecrets : ∀ kv ∈ secrets, kv.2 ≠ []) {found : Option (Text × Text)}
    (hfound : ∀ kv ∈ found, kv ∈ secrets) (c : Char × Option ℕ) (cs : Traced) :
    (maskBy found c cs).rest <:+ cs := by
  cases found with
  | none => exact List.suffix_refl cs
  | some kv =>
    obtain ⟨d, ds, hd⟩ := List.exists_cons_of_ne_nil (hsecrets kv (hfound kv rfl))
    have hrest : (maskBy (some kv) c cs).rest = (c :: cs).drop kv.2.length := rfl
    rw [hrest, hd, List.length_cons, List.drop_succ_cons]
    exact List.drop_suffix _ _

/-- Through a kept text, the two maskings emit the same and come to the same state. -/
theorem maskTrace_kept (hsecrets : ∀ kv ∈ secrets, kv.2 ≠ [])
    (h₁ : Clear u secrets prev₁ (text (kept ++ r₁)) [text r₁])
    (h₂ : Clear u secrets prev₂ (text (kept ++ r₂)) [text r₂])
    (hhead : HeadAlike u prev₁ prev₂ (text kept))
    (hlast : LastAlike u (text r₁) (text r₂) (text kept)) :
    ∃ q out, maskTrace u secrets prev₁ (kept ++ r₁) = out ++ maskTrace u secrets q r₁ ∧
      maskTrace u secrets prev₂ (kept ++ r₂) = out ++ maskTrace u secrets q r₂ ∧
      maskStates u secrets q (text r₁) ⊆ maskStates u secrets prev₁ (text (kept ++ r₁)) ∧
      maskStates u secrets q (text r₂) ⊆ maskStates u secrets prev₂ (text (kept ++ r₂)) := by
  have hshrinks := maskTraceStep_shrinks (u := u) hsecrets
  induction hn : kept.length using Nat.strongRecOn generalizing kept prev₁ prev₂ with
  | _ n ih =>
    cases kept with
    | nil =>
      obtain rfl | ⟨c, hc, -⟩ := hhead
      · exact ⟨prev₁, [], rfl, rfl, List.Subset.refl _, List.Subset.refl _⟩
      · cases hc
    | cons c kept =>
      have hself : ∀ prev r, (prev, text (c :: kept) ++ text r) ∈
          maskStates u secrets prev (text (c :: kept ++ r)) := by
        intro prev r
        rw [text_append]
        exact Scan.self_mem_states (maskStep_leavesSuffix hsecrets).shrinks
      have hne : text (c :: kept) ≠ [] := List.cons_ne_nil _ _
      have hin₁ := h₁.none_across.length_le hne (hself prev₁ r₁)
      have hin₂ := h₂.none_across.length_le hne (hself prev₂ r₂)
      -- both find the same secret, so both take the same step
      have hfound := maskable_congr hhead hlast hin₁ hin₂
        (h₁.masks_where_stands _ (hself prev₁ r₁)) (h₂.masks_where_stands _ (hself prev₂ r₂))
      rw [length_text] at hin₁
      have hmem : ∀ kv ∈ maskable u secrets prev₁ (text (c :: kept) ++ text r₁), kv ∈ secrets :=
        fun kv hkv => (maskable_mem hkv).1
      generalize hfirst : maskable u secrets prev₁ (text (c :: kept) ++ text r₁) = found at *
      have hstep₁ : maskTraceStep u secrets prev₁ c (kept ++ r₁) = ⟨(maskBy found c kept).emit,
          (maskBy found c kept).state, (maskBy found c kept).rest ++ r₁⟩ := by
        rw [maskTraceStep, ← List.cons_append, text_append, hfirst, maskBy_append hin₁]
      have hstep₂ : maskTraceStep u secrets prev₂ c (kept ++ r₂) = ⟨(maskBy found c kept).emit,
          (maskBy found c kept).state, (maskBy found c kept).rest ++ r₂⟩ := by
        rw [maskTraceStep, ← List.cons_append, text_append, ← hfound, maskBy_append hin₁]
      have hsub₁ := maskStates_step_subset hsecrets hstep₁
      have hsub₂ := maskStates_step_subset hsecrets hstep₂
      obtain ⟨read, hread⟩ := maskBy_rest_suffix hsecrets hmem c kept
      have hlen := congrArg List.length hread
      rw [List.length_append] at hlen
      rw [List.length_cons] at hn
      have hlast' : LastAlike u (text r₁) (text r₂) (text (maskBy found c kept).rest) := by
        refine hlast.imp id fun hword d hd => hword d ?_
        rw [← hread, ← List.cons_append, text_append, List.getLast?_append, hd]
        rfl
      obtain ⟨q, out, hscan₁, hscan₂, hstates₁, hstates₂⟩ := ih _ (by omega)
        (h₁.mono hsub₁ (List.Subset.refl _)) (h₂.mono hsub₂ (List.Subset.refl _)) (.inl rfl) hlast'
        rfl
      refine ⟨q, (maskBy found c kept).emit ++ out, ?_, ?_, List.Subset.trans hstates₁ hsub₁,
        List.Subset.trans hstates₂ hsub₂⟩
      · rw [maskTrace, List.cons_append, Scan.scan_cons hshrinks, hstep₁, List.append_assoc]
        exact congrArg _ hscan₁
      · rw [maskTrace, List.cons_append, Scan.scan_cons hshrinks, hstep₂, List.append_assoc]
        exact congrArg _ hscan₂

theorem not_word_of_ascii {c : Char} (hascii : c.toNat < 128)
    (hc : (c.isAlphanum || c == '_') = false) : isWordChar u c = false := by
  rw [isWordChar, u.alphanumeric_ascii c hascii, hc]

theorem Clear.at_end {input : Text} {ends : List Text} (h : Clear u secrets prev input ends) :
    Clear u secrets prev input [[]] where
  masks_where_stands := h.masks_where_stands
  none_across t ht edge hedge hsuffix hne kv hkv := by
    obtain rfl := List.mem_singleton.mp hedge
    exact (maskable_mem hkv).2.length_le

/-- Through a kept text and what stands for a userinfo part, to the texts after them. -/
theorem maskTrace_part {part₁ part₂ rest₁ rest₂ : Traced} (hsecrets : ∀ kv ∈ secrets, kv.2 ≠ [])
    (h₁ : Clear u secrets prev₁ (text (kept ++ (part₁ ++ rest₁)))
      [text (part₁ ++ rest₁), text rest₁])
    (h₂ : Clear u secrets prev₂ (text (kept ++ (part₂ ++ rest₂)))
      [text (part₂ ++ rest₂), text rest₂])
    (hhead : HeadAlike u prev₁ prev₂ (text kept))
    (hlast : ∀ c, (text kept).getLast? = some c → isWordChar u c = false)
    (hinserted : places part₂ = []) :
    ∃ q₁ q₂,
      maskStates u secrets q₁ (text rest₁) ⊆
        maskStates u secrets prev₁ (text (kept ++ (part₁ ++ rest₁))) ∧
      maskStates u secrets q₂ (text rest₂) ⊆
        maskStates u secrets prev₂ (text (kept ++ (part₂ ++ rest₂))) ∧
      ((maskTrace u secrets q₂ rest₂).places ⊆ (maskTrace u secrets q₁ rest₁).places →
        (maskTrace u secrets prev₂ (kept ++ (part₂ ++ rest₂))).places ⊆
          (maskTrace u secrets prev₁ (kept ++ (part₁ ++ rest₁))).places) := by
  have hpart : ∀ {a b : Text}, [a] ⊆ [a, b] ∧ [b] ⊆ [a, b] := by simp
  obtain ⟨q, out, hout₁, hout₂, hstates₁, hstates₂⟩ := maskTrace_kept hsecrets
    (h₁.mono (List.Subset.refl _) hpart.1) (h₂.mono (List.Subset.refl _) hpart.1) hhead
    (.inr hlast)
  obtain ⟨q₁, mid₁, -, hmid₁, hsub₁⟩ :=
    maskTrace_reaches hsecrets (h₁.mono hstates₁ hpart.2).none_across
  obtain ⟨q₂, mid₂, hmid, hmid₂, hsub₂⟩ :=
    maskTrace_reaches hsecrets (h₂.mono hstates₂ hpart.2).none_across
  rw [hinserted, List.sublist_nil] at hmid
  refine ⟨q₁, q₂, List.Subset.trans hsub₁ hstates₁, List.Subset.trans hsub₂ hstates₂, ?_⟩
  intro hrest place hplace
  rw [hout₂, hmid₂, places_append, places_append, hmid, List.nil_append, List.mem_append] at hplace
  rw [hout₁, hmid₁, places_append, places_append, List.mem_append, List.mem_append]
  exact hplace.imp_right fun h => .inr (hrest h)

/-- What both layers copy, the masking alone copies. -/
theorem places_subset_of_fenced (hsecrets : ∀ kv ∈ secrets, kv.2 ≠ []) {last : Text}
    {parts : List (Text × Text)} (hparts : Fenced last parts) (start : ℕ)
    (hhead : HeadAlike u prev₁ prev₂ (first last parts))
    (h₁ : Clear u secrets prev₁ (fill id last parts) (edges id last parts))
    (h₂ : Clear u secrets prev₂ (fill (fun _ => placeholder) last parts)
      (edges (fun _ => placeholder) last parts)) :
    (maskTrace u secrets prev₂ (urlTraceFrom last start parts)).places ⊆
      (maskTrace u secrets prev₁ (marked start (fill id last parts))).places := by
  induction hparts generalizing start prev₁ prev₂ with
  | last =>
    have hend : ∀ {prev}, Clear u secrets prev last [] →
        Clear u secrets prev (text (marked start last ++ [])) [text []] := by
      intro prev h
      rw [List.append_nil, text_marked]
      exact h.at_end
    obtain ⟨q, out, hout₁, hout₂, -⟩ := maskTrace_kept hsecrets (hend h₁) (hend h₂)
      (by rwa [text_marked]) (.inl rfl)
    rw [List.append_nil] at hout₁ hout₂
    rw [urlTraceFrom, fill, hout₁, hout₂]
    exact List.Subset.refl _
  | @part kept userinfo parts hslash hat hrest ih =>
    have hmarked : marked start (fill id last ((kept, userinfo) :: parts)) =
        marked start kept ++ (marked (start + kept.length) userinfo ++
          marked (start + kept.length + userinfo.length) (fill id last parts)) := by
      rw [fill, id, marked_append, marked_append]
    have htext₁ := congrArg text hmarked
    have htext₂ := text_urlTraceFrom last start ((kept, userinfo) :: parts)
    have hrest₂ := text_urlTraceFrom last (start + kept.length + userinfo.length) parts
    rw [text_marked] at htext₁
    rw [urlTraceFrom] at htext₂ ⊢
    rw [hmarked]
    have hclear₁ : Clear u secrets prev₁ (text (marked start kept ++
        (marked (start + kept.length) userinfo ++
          marked (start + kept.length + userinfo.length) (fill id last parts))))
        [text (marked (start + kept.length) userinfo ++
            marked (start + kept.length + userinfo.length) (fill id last parts)),
          text (marked (start + kept.length + userinfo.length) (fill id last parts))] := by
      rw [← htext₁, text_append, text_marked, text_marked]
      exact h₁.mono (List.Subset.refl _) (by simp [edges])
    have hclear₂ : Clear u secrets prev₂ (text (marked start kept ++ (inserted placeholder ++
          urlTraceFrom last (start + kept.length + userinfo.length) parts)))
        [text (inserted placeholder ++
            urlTraceFrom last (start + kept.length + userinfo.length) parts),
          text (urlTraceFrom last (start + kept.length + userinfo.length) parts)] := by
      rw [htext₂, text_append, hrest₂, text_inserted]
      exact h₂.mono (List.Subset.refl _) (by simp [edges])
    have hword : ∀ c, (text (marked start kept)).getLast? = some c → isWordChar u c = false := by
      rw [text_marked, hslash]
      rintro c ⟨⟩
      exact not_word_of_ascii (by decide) (by decide)
    obtain ⟨q₁, q₂, hstates₁, hstates₂, hplaces⟩ := maskTrace_part hsecrets hclear₁ hclear₂
      (by rwa [text_marked]) hword places_inserted
    rw [← htext₁, text_marked] at hstates₁
    rw [htext₂, hrest₂] at hstates₂
    exact hplaces (ih _ (.inr ⟨'@', hat, not_word_of_ascii (by decide) (by decide)⟩)
      (h₁.mono hstates₁ (by simp [edges])) (h₂.mono hstates₂ (by simp [edges])))

end Maskings

/-! ### Standing secrets -/

section Standing

variable {u : RedactTables} {env : List (Text × Text)} {input : Text}

theorem comparePairs_ne_gt_iff {a b : Text × Text} : comparePairs a b ≠ .gt ↔
    byteLength b.2 < byteLength a.2 ∨ byteLength a.2 = byteLength b.2 ∧ a.1 ≤ b.1 := by
  rw [comparePairs]
  rcases lt_trichotomy (byteLength b.2) (byteLength a.2) with hlt | heq | hgt
  · have hcmp : cmp (byteLength b.2) (byteLength a.2) = .lt := (cmp_eq_lt_iff _ _).mpr hlt
    simp [hcmp, hlt]
  · rw [heq, cmp_self_eq_eq]
    simp only [lt_irrefl, false_or, true_and, Ordering.then]
    rw [← not_lt, cmp, cmpUsing]
    split
    · next hlt => simp [hlt.le]
    · split <;> simp_all
  · have hcmp : cmp (byteLength b.2) (byteLength a.2) = .gt := (cmp_eq_gt_iff _ _).mpr hgt
    simp [hcmp]
    omega

/-- The longer secrets come first. -/
theorem secretPairs_longest_first :
    (secretPairs u env).Pairwise fun a b => byteLength b.2 ≤ byteLength a.2 := by
  have htotal : Std.Total fun a b : Text × Text => comparePairs a b ≠ .gt := ⟨by
    intro a b
    rw [comparePairs_ne_gt_iff, comparePairs_ne_gt_iff]
    rcases lt_trichotomy (byteLength b.2) (byteLength a.2) with hlt | heq | hgt
    · exact .inl (.inl hlt)
    · exact (le_total a.1 b.1).imp (fun h => .inr ⟨heq.symm, h⟩) fun h => .inr ⟨heq, h⟩
    · exact .inr (.inl hgt)⟩
  have htrans : IsTrans _ fun a b : Text × Text => comparePairs a b ≠ .gt := ⟨by
    intro a b c
    rw [comparePairs_ne_gt_iff, comparePairs_ne_gt_iff, comparePairs_ne_gt_iff]
    rintro (hab | ⟨hab, hkey⟩) (hbc | ⟨hbc, hkey'⟩)
    · exact .inl (by omega)
    · exact .inl (by omega)
    · exact .inl (by omega)
    · exact .inr ⟨hab.trans hbc, hkey.trans hkey'⟩⟩
  have hsorted : (secretPairs u env).Pairwise fun a b => comparePairs a b ≠ .gt :=
    List.pairwise_insertionSort (fun a b => comparePairs a b ≠ .gt) _
  refine hsorted.imp fun h => ?_
  rcases comparePairs_ne_gt_iff.mp h with h | h <;> omega

/-- Of the secrets that a text starts with, a longest is found. -/
theorem matchAt_longest {rest : Text} {found kv : Text × Text}
    (h : matchAt (secretPairs u env) rest = some found) (hkv : kv ∈ secretPairs u env)
    (hstarts : kv.2 <+: rest) : kv.2.length ≤ found.2.length := by
  obtain ⟨-, before, after, hsplit, hnone⟩ := List.find?_eq_some_iff_append.mp h
  have hsorted : (secretPairs u env).Pairwise fun a b => byteLength b.2 ≤ byteLength a.2 :=
    secretPairs_longest_first
  rw [hsplit] at hsorted hkv
  have hle : byteLength kv.2 ≤ byteLength found.2 := by
    rcases List.mem_append.mp hkv with hbefore | hafter
    · have hno := hnone kv hbefore
      rw [List.isPrefixOf_iff_prefix.mpr hstarts] at hno
      cases hno
    · rcases List.mem_cons.mp hafter with rfl | hafter
      · exact le_rfl
      · exact List.rel_of_pairwise_cons (List.pairwise_append.mp hsorted).2.1 hafter
  rcases List.prefix_or_prefix_of_prefix hstarts (matchAt_some h).2 with hshort | ⟨x, hx⟩
  · exact hshort.length_le
  · by_cases hnil : x = []
    · rw [← hx, hnil, List.append_nil]
    · have hpos := byteLength_pos hnil
      rw [← hx, byteLength_append] at hle
      omega

/-- The masking comes to every end of the input, or masks across the place where it begins. -/
theorem visited_or_masked {secrets : List (Text × Text)} (hsecrets : ∀ kv ∈ secrets, kv.2 ≠ [])
    (prev : Option Char) (input : Text) {r : Text} (hr : r <:+ input) (hne : r ≠ []) :
    (∃ t ∈ maskStates u secrets prev input, t.2 = r) ∨
      ∃ t ∈ maskStates u secrets prev input, ∃ found ∈ maskable u secrets t.1 t.2,
        ∃ x, t.2 = x ++ r ∧ 0 < x.length ∧ x.length < found.2.length := by
  have hsuffix := maskStep_leavesSuffix (u := u) hsecrets
  induction prev, input using Scan.induction hsuffix.shrinks with
  | nil prev => exact absurd (List.suffix_nil.mp hr) hne
  | cons prev c cs ih =>
    have hself : (prev, c :: cs) ∈ maskStates u secrets prev (c :: cs) :=
      Scan.self_mem_states hsuffix.shrinks
    have hstep : maskStates u secrets (maskStep u (matchAt secrets) prev c cs).state
        (maskStep u (matchAt secrets) prev c cs).rest ⊆ maskStates u secrets prev (c :: cs) :=
      Scan.states_step_subset hsuffix.shrinks
    by_cases hrest : r <:+ (maskStep u (matchAt secrets) prev c cs).rest
    · refine (ih hrest).imp ?_ ?_
      · rintro ⟨t, ht, heq⟩
        exact ⟨t, hstep ht, heq⟩
      · rintro ⟨t, ht, hmasked⟩
        exact ⟨t, hstep ht, hmasked⟩
    · rcases List.suffix_cons_iff.mp hr with rfl | hcs
      · exact .inl ⟨_, hself, rfl⟩
      · cases hfound : maskable u secrets prev (c :: cs) with
        | none =>
          rw [maskStep_of_not_maskable hfound] at hrest
          exact absurd hcs hrest
        | some found =>
          obtain ⟨x, hx⟩ := hr
          refine .inr ⟨_, hself, found, hfound, x, hx.symm, ?_, ?_⟩
          · have hlen := congrArg List.length hx
            have hle := hcs.length_le
            rw [List.length_append, List.length_cons] at hlen
            omega
          · by_contra hlong
            rw [maskStep_of_maskable hfound] at hrest
            refine hrest ⟨x.drop found.2.length, ?_⟩
            rw [← hx, List.drop_append_of_le_length (by omega)]

/-- The masking knows the character before what is left. -/
theorem maskStates_prev {t : Option Char × Text}
    (h : t ∈ maskStates u (secretPairs u env) none input) :
    ∃ read, input = read ++ t.2 ∧ t.1 = read.getLast? := by
  refine Scan.forall_states maskStep_shrinks
    (I := fun prev rest => ∃ read, input = read ++ rest ∧ prev = read.getLast?) ?_ ⟨[], rfl, rfl⟩
    t h
  rintro _ c cs ⟨read, hread, rfl⟩
  cases hfound : maskable u (secretPairs u env) read.getLast? (c :: cs) with
  | none =>
    rw [maskStep_of_not_maskable hfound]
    exact ⟨read ++ [c], by simp [hread], by simp⟩
  | some found =>
    obtain ⟨hmem, hstarts⟩ := maskable_mem hfound
    obtain ⟨rest, hrest⟩ := hstarts
    rw [maskStep_of_maskable hfound, ← hrest, List.drop_left]
    refine ⟨read ++ found.2, by rw [List.append_assoc, hrest, hread], ?_⟩
    rw [List.getLast?_append_of_ne_nil _ (secretPairs_nonempty hmem)]

variable (u env input) in
/-- Every secret that stands alone, and overlaps no longer masked one, is masked. -/
def MasksStanding : Prop :=
  ∀ start, ∀ kv ∈ secretPairs u env,
    Stands u (input.take start).getLast? kv.2 (input.drop start) →
    (∀ start' longer, Masks u env input start' longer → byteLength kv.2 < byteLength longer →
      start' < start + kv.2.length → ¬ start < start' + longer.length) →
    ∀ place, start ≤ place → place < start + kv.2.length → Masked u env input place

theorem masksStanding (hstands : MasksWhereStands u (secretPairs u env) none input)
    (hcut : NoneCut u (secretPairs u env) none input) : MasksStanding u env input := by
  intro start kv hkv hstand hlonger place hstart hplace
  have hpos : 0 < kv.2.length := List.length_pos_iff.mpr (secretPairs_nonempty hkv)
  have hne : input.drop start ≠ [] := by
    intro hnil
    have hlen := hstand.1.length_le
    rw [hnil, List.length_nil] at hlen
    omega
  have hlt : start < input.length := by
    by_contra hge
    exact hne (List.drop_eq_nil_of_le (by omega))
  have hsecrets : ∀ kv ∈ secretPairs u env, kv.2 ≠ [] := fun kv h => secretPairs_nonempty h
  rcases visited_or_masked hsecrets none input (List.drop_suffix start input) hne with
    ⟨t, ht, hrest⟩ | ⟨t, ht, found, hfound, x, hx, hpos, hin⟩
  · -- the masking comes here, and masks the secret or a longer one
    obtain ⟨read, hread, hprev⟩ := maskStates_prev ht
    have htake : read = input.take start := by
      rw [hrest] at hread
      conv at hread => lhs; rw [← List.take_append_drop start input]
      exact (List.append_cancel_right hread).symm
    rw [← htake, ← hprev, ← hrest] at hstand
    obtain ⟨found, hfound⟩ := Option.ne_none_iff_exists'.mp (hstands t ht kv hkv hstand)
    have hle := matchAt_longest (maskable_eq_some_iff.mp hfound).1 hkv hstand.1
    exact ⟨start, found.2, ⟨t, ht, hrest, found.1, hfound⟩, hstart, by omega⟩
  · -- it masks across this place, and what it masks is longer
    exfalso
    obtain ⟨read, hread, -⟩ := maskStates_prev ht
    have hsplit : input.take start = read ++ x := by
      rw [hx, ← List.append_assoc] at hread
      conv at hread => lhs; rw [← List.take_append_drop start input]
      exact List.append_cancel_right hread
    have hlen := congrArg List.length hsplit
    rw [List.length_take, Nat.min_eq_left hlt.le, List.length_append] at hlen
    have hat : t.2 = input.drop read.length := by
      rw [hread, List.drop_left]
    have hshorter := hcut t ht found hfound x.length hin hpos kv hkv (by
      rw [hx, List.take_left, List.drop_left]
      rw [hsplit, List.getLast?_append_of_ne_nil _ (List.length_pos_iff.mp hpos)] at hstand
      exact hstand)
    exact hlonger read.length found.2 ⟨t, ht, hat, found.1, hfound⟩ hshorter (by omega) (by omega)

end Standing

/-! ### The whole redaction -/

section Layers

variable (u : RedactTables) (env : List (Text × Text)) (input : Text)

/-- No character that one of the layers hides is copied by both together. -/
def HidesBoth : Prop :=
  ∀ place, Masked u env input place ∨ place ∈ userinfoPlaces input →
    place ∉ (withEnvTrace u input env).places

/-- No step of the masking tests a secret too long where a shorter one stands alone, masks across
an edge that the first layer makes, or cuts a secret that is no shorter. -/
structure LayersAgree : Prop where
  input_clear : Clear u (secretPairs u env) none input
    (edges id (urlParts input).last (urlParts input).parts)
  stripped_clear : Clear u (secretPairs u env) none (redactUrlCredentials input)
    (edges (fun _ => placeholder) (urlParts input).last (urlParts input).parts)
  none_cut : NoneCut u (secretPairs u env) none input

variable {u env input}

theorem hidesBoth (h : LayersAgree u env input) : HidesBoth u env input := by
  have hsecrets : ∀ kv ∈ secretPairs u env, kv.2 ≠ [] := fun kv h => secretPairs_nonempty h
  rintro place (hmasked | huserinfo) hcopied
  · refine hmasked.not_copied ?_
    have hinput : Clear u (secretPairs u env) none
        (fill id (urlParts input).last (urlParts input).parts)
        (edges id (urlParts input).last (urlParts input).parts) := by
      rw [fill_input]
      exact h.input_clear
    have hstripped : Clear u (secretPairs u env) none
        (fill (fun _ => placeholder) (urlParts input).last (urlParts input).parts)
        (edges (fun _ => placeholder) (urlParts input).last (urlParts input).parts) := by
      rw [fill_output]
      exact h.stripped_clear
    have hsub := places_subset_of_fenced hsecrets (urlParts_fenced input) 0 (.inl rfl) hinput
      hstripped
    rw [fill_input] at hsub
    exact hsub hcopied
  · have hstripped : place ∉ (urlTrace input).places := userinfo_not_copied huserinfo
    refine hstripped ?_
    exact (maskTraceStep_tracks.scan (maskTraceStep_shrinks hsecrets) none _).subset hcopied

/-- Where the layers agree, they hide together what either hides, and every secret that stands alone
is masked. -/
theorem withEnv_hides (u : RedactTables) (env : List (Text × Text)) (input : Text)
    (h : LayersAgree u env input) : HidesBoth u env input ∧ MasksStanding u env input :=
  ⟨hidesBoth h, masksStanding h.input_clear.masks_where_stands h.none_cut⟩

theorem withEnv_hides_token :
    HidesBoth .ascii [("API_KEY".toList, "abcdefgh".toList)] "https://u:p@h abcdefgh".toList ∧
      MasksStanding .ascii [("API_KEY".toList, "abcdefgh".toList)]
        "https://u:p@h abcdefgh".toList :=
  withEnv_hides _ _ _ ⟨⟨by decide +kernel, by decide +kernel⟩,
    ⟨by decide +kernel, by decide +kernel⟩, by decide +kernel⟩

/-- A secret that goes on after a userinfo part is copied from there, and one that stands alone is
not masked where a longer one that does not stand alone starts. -/
theorem layers_leak :
    ¬ HidesBoth .ascii [("API_KEY".toList, "p@host/longsecret".toList)]
        "https://u:p@host/longsecret".toList ∧
      ¬ MasksStanding .ascii [("A_KEY".toList, "ab cd".toList), ("B_KEY".toList, "ab".toList)]
        "ab cde".toList := by
  constructor
  · intro h
    refine h 17 (.inl ⟨10, "p@host/longsecret".toList, ?_, by decide, by decide⟩)
      (by decide +kernel)
    exact ⟨(some ':', "p@host/longsecret".toList), by decide +kernel, by decide, "API_KEY".toList,
      by decide +kernel⟩
  · intro h
    have hnone : ∀ place, ¬ Masked .ascii [("A_KEY".toList, "ab cd".toList),
        ("B_KEY".toList, "ab".toList)] "ab cde".toList place := by
      intro place hmasked
      have hcopied := hmasked.not_copied
      obtain ⟨start, value, hmasks, -, hplace⟩ := hmasked
      have hle : start + value.length ≤ 6 := hmasks.occurs.2.2
      have hall : ∀ place < 6, place ∈ (maskTrace .ascii (secretPairs .ascii
          [("A_KEY".toList, "ab cd".toList), ("B_KEY".toList, "ab".toList)]) none
          (marked 0 "ab cde".toList)).places := by decide +kernel
      exact hcopied (hall place (by omega))
    refine hnone 0 (h 0 ("B_KEY".toList, "ab".toList) (by decide +kernel) (by decide +kernel) ?_ 0
      le_rfl (by decide))
    intro start longer hmasks hlonger hbefore hafter
    have hpos := hmasks.occurs.2.1
    exact hnone start ⟨start, longer, hmasks, le_rfl, by omega⟩

end Layers

end Anodizer.Redact
