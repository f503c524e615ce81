import Anodizer.Lib.ScanStates
import Anodizer.Redact.UrlCredentials

/-! # Places of copied characters

A character of an output is inserted, or a copy of a character of the input. Marked with their
places in the input, the characters go through the redaction as they do without the marks.
-/

namespace Anodizer.Redact

open Template (Text)
open UrlParts

/-- Characters, each with the place in the input it was copied from. -/
abbrev Traced := List (Char × Option ℕ)

namespace Traced

def text (x : Traced) : Text := x.map Prod.fst

/-- The places whose characters were copied. -/
def places (x : Traced) : List ℕ := x.filterMap Prod.snd

def inserted (s : Text) : Traced := s.map fun c => (c, none)

/-- A text from a place of the input on. -/
def marked : ℕ → Text → Traced
  | _, [] => []
  | place, c :: cs => (c, some place) :: marked (place + 1) cs

variable {x y : Traced} {s t : Text} {place : ℕ}

@[simp] theorem text_append : (x ++ y).text = x.text ++ y.text := List.map_append

@[simp] theorem text_inserted : (inserted s).text = s := by
  simp [text, inserted, Function.comp_def]

@[simp] theorem text_marked (place : ℕ) (s : Text) : (marked place s).text = s := by
  induction s generalizing place with
  | nil => rfl
  | cons c cs ih => exact congrArg (c :: ·) (ih (place + 1))

@[simp] theorem length_text : x.text.length = x.length := List.length_map _

@[simp] theorem places_append : (x ++ y).places = x.places ++ y.places := List.filterMap_append

@[simp] theorem places_inserted : (inserted s).places = [] := by
  simp [places, inserted]

@[simp] theorem places_marked (place : ℕ) (s : Text) :
    (marked place s).places = List.range' place s.length := by
  induction s generalizing place with
  | nil => rfl
  | cons c cs ih => exact congrArg (place :: ·) (ih (place + 1))

theorem marked_append (place : ℕ) (s t : Text) :
    marked place (s ++ t) = marked place s ++ marked (place + s.length) t := by
  induction s generalizing place with
  | nil => rfl
  | cons c cs ih =>
    rw [List.cons_append, marked, ih, List.length_cons, Nat.add_assoc, Nat.add_comm 1]
    rfl

/-- The two parts of a marked text are marked texts. -/
theorem eq_marked_of_append (h : x ++ y = marked place s) :
    x = marked place (s.take x.length) ∧ y = marked (place + x.length) (s.drop x.length) := by
  have hlen := congrArg List.length h
  rw [List.length_append, ← length_text (x := marked place s), text_marked] at hlen
  have hle : x.length ≤ s.length := by omega
  have hsplit := marked_append place (s.take x.length) (s.drop x.length)
  rw [List.take_append_drop, List.length_take, Nat.min_eq_left hle, ← h] at hsplit
  refine List.append_inj hsplit ?_
  rw [← length_text (x := marked _ _), text_marked, List.length_take, Nat.min_eq_left hle]

end Traced

open Traced

/-! ### Masking -/

section Masking

variable (u : RedactTables) (secrets : List (Text × Text))

/-- The secret that the next step masks. -/
def maskable (prev : Option Char) (rest : Text) : Option (Text × Text) :=
  (matchAt secrets rest).filter fun kv =>
    standsAlone u prev kv.2 (rest.drop kv.2.length).head?

/-- What masking the secret does to marked text, or copying its first character. -/
def maskBy (found : Option (Text × Text)) (c : Char × Option ℕ) (cs : Traced) :
    Scan.Step (Option Char) (Char × Option ℕ) (Char × Option ℕ) :=
  match found with
  | some (key, value) => ⟨inserted ('$' :: key), value.getLast?, (c :: cs).drop value.length⟩
  | none => ⟨[c], some c.1, cs⟩

/-- The step of the masking on marked text. -/
def maskTraceStep (prev : Option Char) (c : Char × Option ℕ) (cs : Traced) :
    Scan.Step (Option Char) (Char × Option ℕ) (Char × Option ℕ) :=
  maskBy (maskable u secrets prev (text (c :: cs))) c cs

def maskTrace (prev : Option Char) (x : Traced) : Traced :=
  Scan.scan (maskTraceStep u secrets) prev x

/-- The states that the masking of a text comes to. -/
def maskStates (prev : Option Char) (input : Text) : List (Option Char × Text) :=
  Scan.states (maskStep u (matchAt secrets)) prev input

variable {u secrets} {env : List (Text × Text)} {prev : Option Char} {c : Char} {cs rest : Text}
  {kv : Text × Text} {key value : Text}

theorem maskable_eq_some_iff : maskable u secrets prev rest = some kv ↔
    matchAt secrets rest = some kv ∧ standsAlone u prev kv.2 (rest.drop kv.2.length).head? :=
  Option.filter_eq_some_iff

theorem maskable_mem (h : maskable u secrets prev rest = some kv) :
    kv ∈ secrets ∧ kv.2 <+: rest :=
  matchAt_some (maskable_eq_some_iff.mp h).1

theorem maskStep_of_maskable (h : maskable u secrets prev (c :: cs) = some kv) :
    maskStep u (matchAt secrets) prev c cs =
      ⟨'$' :: kv.1, kv.2.getLast?, (c :: cs).drop kv.2.length⟩ := by
  obtain ⟨hmatch, hstands⟩ := maskable_eq_some_iff.mp h
  rw [maskStep, hmatch]
  exact if_pos hstands

theorem maskStep_of_not_maskable (h : maskable u secrets prev (c :: cs) = none) :
    maskStep u (matchAt secrets) prev c cs = ⟨[c], some c, cs⟩ := by
  rw [maskStep]
  split
  · next key value hmatch =>
    rw [if_neg]
    intro hstands
    rw [maskable_eq_some_iff.mpr ⟨hmatch, hstands⟩] at h
    cases h
  · rfl

/-- Without the marks, the masking of marked text is the masking. -/
theorem maskTraceStep_forgets :
    Scan.Forgets (maskTraceStep u secrets) (maskStep u (matchAt secrets)) Prod.fst Prod.fst := by
  intro prev c cs
  rw [maskTraceStep]
  cases hmask : maskable u secrets prev (text (c :: cs)) with
  | none => exact maskStep_of_not_maskable hmask
  | some kv =>
    obtain ⟨key, value⟩ := kv
    refine (maskStep_of_maskable hmask).trans ?_
    have hemit : (maskBy (some (key, value)) c cs).emit.map Prod.fst = '$' :: key := text_inserted
    have hrest : (maskBy (some (key, value)) c cs).rest.map Prod.fst =
        (c.1 :: cs.map Prod.fst).drop value.length := List.map_drop
    rw [hemit, hrest]
    rfl

theorem maskTraceStep_shrinks (h : ∀ kv ∈ secrets, kv.2 ≠ []) :
    Scan.Shrinks (maskTraceStep u secrets) :=
  maskTraceStep_forgets.shrinks (maskStep_leavesSuffix h).shrinks

/-- What is copied was read. -/
theorem maskTraceStep_tracks :
    Scan.Tracks (maskTraceStep u secrets) fun read out => (places out).Sublist (places read) where
  nil := .slnil
  append hfirst hrest := by
    rw [places_append, places_append]
    exact hfirst.append hrest
  step prev c cs := by
    rw [maskTraceStep]
    cases hmask : maskable u secrets prev (text (c :: cs)) with
    | none => exact ⟨[c], rfl, .refl _⟩
    | some kv =>
      refine ⟨(c :: cs).take kv.2.length, (List.take_append_drop _ _).symm, ?_⟩
      have hnone : places (maskBy (some kv) c cs).emit = [] := places_inserted
      rw [hnone]
      exact List.nil_sublist _

/-- The masking of a marked text comes to the states that the masking of the text comes to. -/
theorem maskStates_text (hsecrets : ∀ kv ∈ secrets, kv.2 ≠ []) (prev : Option Char) (x : Traced) :
    maskStates u secrets prev (text x) =
      (Scan.states (maskTraceStep u secrets) prev x).map fun t => (t.1, text t.2) :=
  (maskTraceStep_forgets.states (maskStep_leavesSuffix hsecrets).shrinks prev x).symm

/-- A character is copied, or lies in a secret that a step masks. -/
theorem copied_or_masked (hsecrets : ∀ kv ∈ secrets, kv.2 ≠ []) (prev : Option Char) (x : Traced)
    {place : ℕ} (hplace : place ∈ x.places) : place ∈ (maskTrace u secrets prev x).places ∨
      ∃ t ∈ Scan.states (maskTraceStep u secrets) prev x,
        ∃ found ∈ maskable u secrets t.1 (text t.2), place ∈ places (t.2.take found.2.length) := by
  have hshrinks := maskTraceStep_shrinks (u := u) hsecrets
  induction prev, x using Scan.induction hshrinks with
  | nil prev => cases hplace
  | cons prev c cs ih =>
    have hself : (prev, c :: cs) ∈ Scan.states (maskTraceStep u secrets) prev (c :: cs) :=
      Scan.self_mem_states hshrinks
    have hsub : Scan.states (maskTraceStep u secrets) (maskTraceStep u secrets prev c cs).state
        (maskTraceStep u secrets prev c cs).rest ⊆
          Scan.states (maskTraceStep u secrets) prev (c :: cs) := Scan.states_step_subset hshrinks
    have hrest : place ∈ places (maskTraceStep u secrets prev c cs).rest →
        place ∈ places (maskTrace u secrets prev (c :: cs)) ∨
          ∃ t ∈ Scan.states (maskTraceStep u secrets) prev (c :: cs),
            ∃ found ∈ maskable u secrets t.1 (text t.2),
              place ∈ places (t.2.take found.2.length) := by
      intro h
      refine (ih h).imp (fun hcopied => ?_) fun hmasked => ?_
      · rw [maskTrace, Scan.scan_cons hshrinks, places_append]
        exact List.mem_append_right _ hcopied
      · obtain ⟨t, ht, hfound⟩ := hmasked
        exact ⟨t, hsub ht, hfound⟩
    cases hfound : maskable u secrets prev (text (c :: cs)) with
    | none =>
      have hstep : maskTraceStep u secrets prev c cs = ⟨[c], some c.1, cs⟩ := by
        rw [maskTraceStep, hfound]
        rfl
      rw [hstep] at hrest
      rw [← List.singleton_append, places_append, List.mem_append] at hplace
      refine hplace.elim (fun hhere => .inl ?_) hrest
      rw [maskTrace, Scan.scan_cons hshrinks, hstep, places_append]
      exact List.mem_append_left _ hhere
    | some found =>
      have hstep : (maskTraceStep u secrets prev c cs).rest = (c :: cs).drop found.2.length := by
        rw [maskTraceStep, hfound]
        rfl
      rw [hstep] at hrest
      rw [← List.take_append_drop found.2.length (c :: cs), places_append,
        List.mem_append] at hplace
      exact hplace.elim (fun hhere => .inr ⟨_, hself, found, hfound, hhere⟩) hrest

theorem text_maskTrace (env : List (Text × Text)) (x : Traced) :
    (maskTrace u (secretPairs u env) none x).text = string u x.text env :=
  (maskTraceStep_forgets.scan maskStep_shrinks none x).trans (string_eq_scan env x.text).symm

end Masking

section Occurrences

variable (u : RedactTables) (env : List (Text × Text)) (input : Text)

/-- The masking of the input replaces the secret at the place. -/
def Masks (start : ℕ) (value : Text) : Prop :=
  ∃ t ∈ maskStates u (secretPairs u env) none input, t.2 = input.drop start ∧
    ∃ key, maskable u (secretPairs u env) t.1 t.2 = some (key, value)

/-- The place lies in an occurrence that the masking of the input replaces. -/
def Masked (place : ℕ) : Prop :=
  ∃ start value, Masks u env input start value ∧ start ≤ place ∧ place < start + value.length

variable {u env input} {start place : ℕ} {value : Text}

theorem Masks.occurs (h : Masks u env input start value) :
    value <+: input.drop start ∧ 0 < value.length ∧ start + value.length ≤ input.length := by
  obtain ⟨t, ht, hrest, key, hmask⟩ := h
  obtain ⟨hmem, hstarts⟩ := maskable_mem hmask
  have hvalue : value <+: input.drop start := hrest ▸ hstarts
  have hpos : 0 < value.length := List.length_pos_iff.mpr (secretPairs_nonempty hmem)
  have hlen := hvalue.length_le
  rw [List.length_drop] at hlen
  exact ⟨hvalue, hpos, by omega⟩

/-- What is left of a marked text is marked. -/
theorem state_marked {t : Option Char × Traced}
    (h : t ∈ Scan.states (maskTraceStep u (secretPairs u env)) none (marked 0 input)) :
    ∃ start read out, start + t.2.length = input.length ∧
      t.2 = marked start (input.drop start) ∧ read = marked 0 (input.take start) ∧
      (places out).Sublist (places read) ∧
      maskTrace u (secretPairs u env) none (marked 0 input) =
        out ++ maskTrace u (secretPairs u env) t.1 t.2 := by
  obtain ⟨read, out, hread, hout, hscan⟩ := maskTraceStep_tracks.scan_state
    (maskTraceStep_shrinks fun _ h => secretPairs_nonempty h) h
  have hlen := congrArg List.length hread
  rw [List.length_append, ← length_text, text_marked] at hlen
  obtain ⟨hfirst, hrest⟩ := eq_marked_of_append hread.symm
  rw [Nat.zero_add] at hrest
  exact ⟨read.length, read, out, hlen.symm, hrest, hfirst, hout, hscan⟩

/-- No character of a masked occurrence is copied. -/
theorem Masked.not_copied (h : Masked u env input place) :
    place ∉ (maskTrace u (secretPairs u env) none (marked 0 input)).places := by
  obtain ⟨start, value, hmasks, hstart, hplace⟩ := h
  have hle := hmasks.occurs
  obtain ⟨t, ht, hrest, key, hmask⟩ := hmasks
  have hsecrets : ∀ kv ∈ secretPairs u env, kv.2 ≠ [] := fun kv h => secretPairs_nonempty h
  have hshrinks := maskTraceStep_shrinks (u := u) hsecrets
  -- the state of the masking of the marked text with the same text left
  rw [← text_marked 0 input, maskStates_text hsecrets] at ht
  obtain ⟨⟨prev, x⟩, hx, rfl⟩ := List.mem_map.mp ht
  obtain ⟨start', read, out, hlen, hxm, hreadm, hout, hscan⟩ := state_marked hx
  simp only at hrest hmask hlen hxm hscan
  have hxlen := congrArg List.length hrest
  rw [length_text, List.length_drop] at hxlen
  obtain rfl : start' = start := by omega
  rw [hscan, places_append, List.mem_append]
  rintro (hcopied | hcopied)
  · have hmem := hout.subset hcopied
    rw [hreadm, places_marked, List.mem_range'_1, List.length_take] at hmem
    omega
  · cases x with
    | nil =>
      rw [List.length_nil] at hlen
      omega
    | cons c cs =>
      have hstep : maskTraceStep u (secretPairs u env) prev c cs =
          ⟨inserted ('$' :: key), value.getLast?, (c :: cs).drop value.length⟩ := by
        rw [maskTraceStep, hmask]
        rfl
      rw [maskTrace, Scan.scan_cons hshrinks, hstep, places_append, places_inserted,
        List.nil_append] at hcopied
      have hmem := (maskTraceStep_tracks.scan hshrinks _ _).subset hcopied
      have hdrop := (eq_marked_of_append ((List.take_append_drop value.length _).trans hxm)).2
      rw [hdrop, places_marked, List.mem_range'_1, List.length_take] at hmem
      omega

/-- The characters of the masked occurrences are those that are not copied. -/
theorem masked_iff (hplace : place < input.length) : Masked u env input place ↔
    place ∉ (maskTrace u (secretPairs u env) none (marked 0 input)).places := by
  refine ⟨Masked.not_copied, fun hnot => ?_⟩
  have hsecrets : ∀ kv ∈ secretPairs u env, kv.2 ≠ [] := fun kv h => secretPairs_nonempty h
  have hin : place ∈ (marked 0 input).places := by
    rw [places_marked, List.mem_range'_1]
    omega
  obtain ⟨t, ht, found, hfound, hmasked⟩ :=
    (copied_or_masked hsecrets none (marked 0 input) hin).resolve_left hnot
  obtain ⟨start, -, -, hlen, hmarked, -⟩ := state_marked ht
  have hstate : (t.1, text t.2) ∈ maskStates u (secretPairs u env) none input := by
    rw [← text_marked 0 input, maskStates_text hsecrets]
    exact List.mem_map_of_mem ht
  have hrest : text t.2 = input.drop start := by rw [hmarked, text_marked]
  have htake := (eq_marked_of_append
    ((List.take_append_drop found.2.length _).trans hmarked)).1
  have hstarts := (maskable_mem hfound).2.length_le
  rw [htake, places_marked, List.mem_range'_1, List.length_take, List.length_take,
    List.length_drop] at hmasked
  exact ⟨start, found.2, ⟨_, hstate, hrest, found.1, hfound⟩, by omega, by omega⟩

end Occurrences

/-! ### Userinfo parts -/

/-- The places of the characters of the userinfo parts, in a text from a place on. -/
def userinfoPlacesFrom : ℕ → List (Text × Text) → List ℕ
  | _, [] => []
  | place, (kept, userinfo) :: parts =>
    List.range' (place + kept.length) userinfo.length ++
      userinfoPlacesFrom (place + kept.length + userinfo.length) parts

def userinfoPlaces (input : Text) : List ℕ := userinfoPlacesFrom 0 (urlParts input).parts

/-- The kept texts, marked, and the placeholders between them. -/
def urlTraceFrom (last : Text) : ℕ → List (Text × Text) → Traced
  | place, [] => marked place last
  | place, (kept, userinfo) :: parts =>
    marked place kept ++
      (inserted placeholder ++ urlTraceFrom last (place + kept.length + userinfo.length) parts)

def urlTrace (input : Text) : Traced := urlTraceFrom (urlParts input).last 0 (urlParts input).parts

/-- The whole redaction of the marked input. -/
def withEnvTrace (u : RedactTables) (input : Text) (env : List (Text × Text)) : Traced :=
  maskTrace u (secretPairs u env) none (urlTrace input)

section Userinfo

variable {input last : Text} {parts : List (Text × Text)} {place start : ℕ}

theorem text_urlTraceFrom (last : Text) (start : ℕ) (parts : List (Text × Text)) :
    (urlTraceFrom last start parts).text = fill (fun _ => placeholder) last parts := by
  induction parts generalizing start with
  | nil => exact text_marked start last
  | cons part parts ih =>
    rw [urlTraceFrom, text_append, text_append, text_marked, text_inserted, ih, fill]

/-- Without the marks, the marked input is stripped as the input is. -/
theorem text_urlTrace (input : Text) : (urlTrace input).text = redactUrlCredentials input := by
  rw [urlTrace, text_urlTraceFrom, fill_output]

theorem text_withEnvTrace (u : RedactTables) (input : Text) (env : List (Text × Text)) :
    (withEnvTrace u input env).text = withEnv u input env := by
  rw [withEnvTrace, text_maskTrace, text_urlTrace, withEnv]

theorem le_of_mem_urlTraceFrom (h : place ∈ (urlTraceFrom last start parts).places) :
    start ≤ place := by
  induction parts generalizing start with
  | nil =>
    rw [urlTraceFrom, places_marked, List.mem_range'_1] at h
    exact h.1
  | cons part parts ih =>
    rw [urlTraceFrom, places_append, places_append, places_inserted, List.nil_append,
      places_marked, List.mem_append, List.mem_range'_1] at h
    rcases h with h | h
    · exact h.1
    · have hle := ih h
      omega

theorem le_of_mem_userinfoPlacesFrom (h : place ∈ userinfoPlacesFrom start parts) :
    start ≤ place := by
  induction parts generalizing start with
  | nil => cases h
  | cons part parts ih =>
    rw [userinfoPlacesFrom, List.mem_append, List.mem_range'_1] at h
    rcases h with h | h
    · omega
    · have hle := ih h
      omega

/-- No character of a userinfo part is copied. -/
theorem userinfo_not_copied (h : place ∈ userinfoPlacesFrom start parts) :
    place ∉ (urlTraceFrom last start parts).places := by
  induction parts generalizing start with
  | nil => cases h
  | cons part parts ih =>
    rw [userinfoPlacesFrom, List.mem_append, List.mem_range'_1] at h
    rw [urlTraceFrom, places_append, places_append, places_inserted, List.nil_append,
      places_marked, List.mem_append, List.mem_range'_1]
    rintro (hkept | hrest)
    · rcases h with h | h
      · omega
      · have hle := le_of_mem_userinfoPlacesFrom h
        omega
    · rcases h with h | h
      · have hle := le_of_mem_urlTraceFrom hrest
        omega
      · exact ih h hrest

end Userinfo

end Anodizer.Redact
