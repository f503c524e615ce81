import Anodizer.Template.TeraSyntax
import Mathlib.Data.List.Induction

/-! # Native templates

Tera syntax holds nothing that the character passes rewrite, so a template in
Tera syntax without a Go shape goes through the preprocessor unchanged.
-/

namespace Anodizer.Template

open Regex

/-! ### Quiet texts -/

/-- A code character that no character pass rewrites, with the text before and after it. -/
def PlainCode (pre : Text) (c : Char) (rest : Text) : Prop :=
  c ≠ '$' ∧ (c = '.' → pre.getLast?.any chainsDot ∧
    (rest.head?.any (·.isDigit) → endsWithPathHead pre.reverse = false))

/-- After `pre`, the text leaves no literal open and its code is plain. -/
def Quiet (pre t : Text) : Prop :=
  EndsInCode pre → EndsInCode (pre ++ t) ∧ ∀ a c b post, t = a ++ c :: b →
    EndsInCode (pre ++ a) → isStringDelim c = false → PlainCode (pre ++ a) c (b ++ post)

theorem Quiet.append {pre s t : Text} (hs : Quiet pre s) (ht : Quiet (pre ++ s) t) :
    Quiet pre (s ++ t) := by
  intro hpre
  obtain ⟨hend, hcode⟩ := hs hpre
  obtain ⟨hend', hcode'⟩ := ht hend
  refine ⟨by rwa [← List.append_assoc], ?_⟩
  intro a c b post hsplit ha hc
  rcases List.append_eq_append_iff.mp hsplit with ⟨a', rfl, rfl⟩ | ⟨b', rfl, hb'⟩
  · rw [← List.append_assoc] at ha ⊢
    exact hcode' a' c b post rfl ha hc
  · cases b' with
    | nil =>
      simp only [List.nil_append] at hb'
      simpa using hcode' [] c b post hb'.symm (by simpa using ha) hc
    | cons d b' =>
      simp only [List.cons_append, List.cons.injEq] at hb'
      obtain ⟨rfl, rfl⟩ := hb'
      rw [List.append_assoc]
      exact hcode a c b' (t ++ post) rfl ha hc

/-- No character of the text is looked at by a character pass. -/
def Inert (t : Text) : Prop := ∀ c ∈ t, c ≠ '$' ∧ c ≠ '.' ∧ isStringDelim c = false

instance (t : Text) : Decidable (Inert t) := List.decidableBAll _ t

theorem EndsInCode.append {pre t : Text} (hpre : EndsInCode pre)
    (ht : ∀ c ∈ t, isStringDelim c = false) : EndsInCode (pre ++ t) := by
  induction t generalizing pre with
  | nil => simpa using hpre
  | cons c t ih =>
    rw [List.append_cons]
    exact ih (hpre.code (ht c List.mem_cons_self)) fun d hd => ht d (List.mem_cons_of_mem _ hd)

theorem Inert.quiet {pre t : Text} (h : Inert t) : Quiet pre t := by
  intro hpre
  refine ⟨hpre.append fun c hc => (h c hc).2.2, ?_⟩
  rintro a c b post rfl - -
  obtain ⟨hdollar, hdot, -⟩ := h c (by simp)
  exact ⟨hdollar, fun h => absurd h hdot⟩

theorem quiet_literal {pre body : Text} {d : Char} (hd : isStringDelim d) (hbody : d ∉ body) :
    Quiet pre (d :: (body ++ [d])) := by
  intro hpre
  refine ⟨hpre.literal hd hbody, ?_⟩
  intro a c b post hsplit ha hc
  exfalso
  cases a with
  | nil =>
    simp only [List.nil_append, List.cons.injEq] at hsplit
    rw [← hsplit.1, hd] at hc
    exact absurd hc (by simp)
  | cons d' a =>
    simp only [List.cons_append, List.cons.injEq] at hsplit
    obtain ⟨rfl, hsplit⟩ := hsplit
    have hpre' : a <+: body := by
      rcases List.append_eq_append_iff.mp hsplit with ⟨a', rfl, h⟩ | ⟨b', rfl, -⟩
      · cases a' with
        | nil => simp
        | cons x a' => simp at h
      · exact List.prefix_append _ _
    have hmem : d ∉ a := fun h => hbody (hpre'.subset h)
    unfold EndsInCode openLiteral at ha hpre
    rw [List.foldl_append, hpre, List.foldl_cons, literalAfter, if_pos hd,
      foldl_literalAfter hmem] at ha
    exact absurd ha (by simp)

/-! ### Names, paths and numbers -/

theorem isWordChar_inert {c : Char} (h : isWordChar c) :
    c ≠ '$' ∧ c ≠ '.' ∧ isStringDelim c = false := by
  refine ⟨?_, ?_, ?_⟩
  · rintro rfl
    exact absurd h (by decide)
  · rintro rfl
    exact absurd h (by decide)
  · by_contra hd
    simp only [isStringDelim, Bool.not_eq_false, Bool.or_eq_true, beq_iff_eq] at hd
    rcases hd with (rfl | rfl) | rfl <;> exact absurd h (by decide)

theorem isWordChar_of_alpha {c : Char} (h : c.isAlpha || c == '_') : isWordChar c := by
  simp only [isWordChar, Char.isAlphanum, Bool.or_eq_true] at h ⊢
  tauto

theorem isWordChar_of_digit {c : Char} (h : c.isDigit) : isWordChar c := by
  simp [isWordChar, Char.isAlphanum, h]

theorem not_isDigit_of_alpha {c : Char} (h : c.isAlpha || c == '_') : c.isDigit = false := by
  by_contra hd
  have hletter : c.isAlpha = (decide (c.val ≥ 'A'.val ∧ c.val ≤ 'Z'.val) ||
      (c.val ≥ 'a'.val && c.val ≤ 'z'.val)) := rfl
  have hdigit : c.isDigit = (c.val ≥ '0'.val && c.val ≤ '9'.val) := rfl
  simp only [Bool.not_eq_false, hletter, hdigit, Bool.or_eq_true, Bool.and_eq_true,
    decide_eq_true_eq, beq_iff_eq, ge_iff_le, UInt32.le_iff_toNat_le] at h hd
  have : ('9'.val.toNat : ℕ) = 57 := rfl
  have : ('A'.val.toNat : ℕ) = 65 := rfl
  have : ('a'.val.toNat : ℕ) = 97 := rfl
  rcases h with h | rfl
  · omega
  · exact absurd hd (by decide)

theorem Blank.inert {w : Text} (h : Blank w) : Inert w := by
  intro c hc
  have := h c hc
  simp only [List.mem_cons, List.not_mem_nil, or_false] at this
  rcases this with rfl | rfl | rfl | rfl <;> decide

theorem inert_of_wordChars {t : Text} (h : ∀ c ∈ t, isWordChar c) : Inert t :=
  fun c hc => isWordChar_inert (h c hc)

theorem IsName.wordChars {n : Text} (h : IsName n) : ∀ c ∈ n, isWordChar c := by
  obtain ⟨hc, hcs⟩ := h
  rintro d hd
  rcases List.mem_cons.mp hd with rfl | hd
  · exact isWordChar_of_alpha hc
  · exact hcs d hd

theorem IsName.inert {n : Text} (h : IsName n) : Inert n := inert_of_wordChars h.wordChars

theorem IsDigits.inert {t : Text} (h : IsDigits t) : Inert t :=
  inert_of_wordChars fun c hc => isWordChar_of_digit (h.2 c hc)

/-- A path ends in a word character. -/
theorem IsPath.last {p : Text} (h : IsPath p) : p.getLast?.any isWordChar := by
  have hname : ∀ {n : Text}, IsName n → ∀ q : Text, (q ++ n).getLast?.any isWordChar := by
    intro n hn q
    have hne : n ≠ [] := by cases hn; simp
    rw [List.getLast?_append_of_ne_nil _ hne, List.getLast?_eq_some_getLast hne]
    exact hn.wordChars _ (List.getLast_mem hne)
  cases h with
  | name hn => exact hname hn []
  | @field p n hp hn =>
    rw [List.append_cons]
    exact hname hn _

theorem chainsDot_of_any {o : Option Char} (h : o.any isWordChar) : o.any chainsDot := by
  cases o with
  | none => exact h
  | some c => simp only [Option.any_some, chainsDot] at h ⊢; simp [h]

/-- A dot after a word character is plain when what follows keeps it from being an index. -/
theorem quiet_dot {pre t : Text} (hlast : pre.getLast?.any isWordChar)
    (hindex : t.head?.any (·.isDigit) → endsWithPathHead pre.reverse = false)
    (hne : t ≠ []) (ht : Quiet (pre ++ ['.']) t) : Quiet pre ('.' :: t) := by
  intro hpre
  have hdot : EndsInCode (pre ++ ['.']) := hpre.code (by decide)
  obtain ⟨hend, hcode⟩ := ht hdot
  refine ⟨by rwa [List.append_cons], ?_⟩
  intro a c b post hsplit ha hc
  cases a with
  | nil =>
    simp only [List.nil_append, List.cons.injEq] at hsplit
    obtain ⟨rfl, rfl⟩ := hsplit
    refine ⟨by decide, fun _ => ?_⟩
    rw [List.append_nil]
    refine ⟨chainsDot_of_any hlast, ?_⟩
    rwa [List.head?_append_of_ne_nil _ hne]
  | cons d a =>
    simp only [List.cons_append, List.cons.injEq] at hsplit
    obtain ⟨rfl, rfl⟩ := hsplit
    rw [List.append_cons] at ha ⊢
    exact hcode a c b post rfl ha hc

theorem IsPath.quiet {p : Text} (h : IsPath p) (pre : Text) : Quiet pre p := by
  induction h generalizing pre with
  | name hn => exact hn.inert.quiet
  | @field p n hp hn ih =>
    apply (ih pre).append
    have hlast : (pre ++ p).getLast?.any isWordChar := by
      have hne : p ≠ [] := by rintro rfl; exact absurd hp.last (by decide)
      rw [List.getLast?_append_of_ne_nil _ hne]
      exact hp.last
    cases hn with
    | @mk c cs hc hcs =>
      refine quiet_dot hlast ?_ (by simp) (IsName.mk hc hcs).inert.quiet
      simp [not_isDigit_of_alpha hc]

/-- The text does not end in a word character. -/
def Apart (pre : Text) : Prop := ∀ c ∈ pre.getLast?, isWordChar c = false

theorem endsWithPathHead_digits {pre t : Text} (hpre : Apart pre) (ht : IsDigits t) :
    endsWithPathHead (pre ++ t).reverse = false := by
  obtain ⟨hne, hdigits⟩ := ht
  rw [List.reverse_append]
  have hrev : ∀ c ∈ t.reverse, c.isDigit := fun c hc => hdigits c (List.mem_reverse.mp hc)
  obtain ⟨c, cs, hcs⟩ := List.exists_cons_of_ne_nil (List.reverse_ne_nil_iff.mpr hne)
  have hc : c.isDigit := hrev c (by rw [hcs]; exact List.mem_cons_self)
  have hword : ∀ d ∈ t.reverse, isWordChar d := fun d hd => isWordChar_of_digit (hrev d hd)
  have hrun : (t.reverse ++ pre.reverse).takeWhile isWordChar = t.reverse := by
    rw [List.takeWhile_append_of_pos hword]
    have hstop : pre.reverse.takeWhile isWordChar = [] := by
      cases hp : pre.reverse with
      | nil => rfl
      | cons d ds =>
        have : pre.getLast? = some d := by
          rw [← List.head?_reverse, hp]
          rfl
        simp [hpre d this]
    rw [hstop, List.append_nil]
  have hquestion : c ≠ '?' := by rintro rfl; exact absurd hc (by decide)
  have hbracket : c ≠ ']' := by rintro rfl; exact absurd hc (by decide)
  have hparen : c ≠ ')' := by rintro rfl; exact absurd hc (by decide)
  have hall : t.reverse.any (fun d => !d.isDigit) = false := by
    rw [List.any_eq_false]
    intro d hd
    simp [hrev d hd]
  rw [hcs, List.cons_append] at hrun
  rw [hcs] at hall
  rw [hcs, List.cons_append]
  simp only [endsWithPathHead, List.head?_cons, Option.some.injEq, hquestion, if_false, hrun, hall,
    beq_iff_eq, hbracket, hparen, Bool.or_eq_true, or_self, isWordChar_of_digit hc, if_true]

theorem IsNumber.quiet {n pre : Text} (h : IsNumber n) (hpre : Apart pre) : Quiet pre n := by
  cases h with
  | integer hn => exact hn.inert.quiet
  | @decimal s t hs ht =>
    apply hs.inert.quiet.append
    have hlast : (pre ++ s).getLast?.any isWordChar := by
      rw [List.getLast?_append_of_ne_nil _ hs.1, List.getLast?_eq_some_getLast hs.1]
      exact isWordChar_of_digit (hs.2 _ (List.getLast_mem hs.1))
    exact quiet_dot hlast (fun _ => endsWithPathHead_digits hpre hs) ht.1 ht.inert.quiet

/-! ### Tera syntax is quiet -/

/-- No character of the text is a word character. -/
def Separates (t : Text) : Prop := ∀ c ∈ t, isWordChar c = false

instance (t : Text) : Decidable (EndsInCode t) := inferInstanceAs (Decidable (_ = _))

instance (t : Text) : Decidable (Separates t) := List.decidableBAll _ t

theorem Blank.separates {w : Text} (h : Blank w) : Separates w := by
  intro c hc
  have := h c hc
  simp only [List.mem_cons, List.not_mem_nil, or_false] at this
  rcases this with rfl | rfl | rfl | rfl <;> decide

theorem Apart.append {p t : Text} (hp : Apart p) (ht : Separates t) : Apart (p ++ t) := by
  cases t using List.reverseRecOn with
  | nil => simpa using hp
  | append_singleton t c =>
    intro d hd
    rw [← List.append_assoc, List.getLast?_append, List.getLast?_singleton] at hd
    cases hd
    exact ht c (by simp)

theorem Separates.apart {p q t : Text} (ht : Separates t) (hne : t ≠ []) :
    Apart (p ++ (q ++ t)) := by
  cases t using List.reverseRecOn with
  | nil => exact absurd rfl hne
  | append_singleton t c =>
    intro d hd
    rw [← List.append_assoc, ← List.append_assoc, List.getLast?_append,
      List.getLast?_singleton] at hd
    cases hd
    exact ht c (by simp)

theorem Blank.apart {p q s w : Text} (hw : Blank w) (hs : Separates s) (hne : s ≠ []) :
    Apart (p ++ (q ++ s ++ w)) := by
  rw [← List.append_assoc]
  exact (hs.apart hne).append hw.separates

theorem Blank1.apart {p q w : Text} (hw : Blank1 w) : Apart (p ++ (q ++ w)) :=
  hw.2.separates.apart hw.1

theorem Quiet.sep {pre s t : Text} (hs : Quiet pre s) (ht : Inert t) : Quiet pre (s ++ t) :=
  hs.append ht.quiet

theorem inert_logicOps : ∀ op ∈ logicOps, Inert op.toList := by decide

theorem inert_compareOps : ∀ op ∈ compareOps, Inert op.toList := by decide

theorem separates_compareOps : ∀ op ∈ compareOps, Separates op.toList ∧ op.toList ≠ [] := by
  decide

/-- Tera syntax is quiet wherever it does not continue a word. -/
theorem Tera.quiet {k : Category} {t pre : Text} (h : Tera k t) (hpre : Apart pre) :
    Quiet pre t := by
  induction h generalizing pre with
  | path hp => exact hp.quiet pre
  | number hn => exact hn.quiet hpre
  | negative hn =>
    have hminus : Inert ['-'] := by decide
    exact hminus.quiet.append (hn.quiet (hpre.append (by decide)))
  | literal hd hbody => exact quiet_literal hd hbody
  | emptyArray hw =>
    have hopen : Inert ['['] := by decide
    exact hopen.quiet.append (hw.inert.quiet.sep (by decide))
  | array his ih =>
    have hopen : Inert ['['] := by decide
    exact hopen.quiet.append ((ih (hpre.append (by decide))).sep (by decide))
  | group hw he hw' ih =>
    have hopen : Inert ['('] := by decide
    have hparen : Apart (pre ++ ['(']) := hpre.append (by decide)
    exact hopen.quiet.append (((hw.inert.quiet.append (ih (hparen.append hw.separates))).sep
      hw'.inert).sep (by decide))
  | negation hw he ih =>
    have hnot : Inert "not".toList := by decide
    exact (hnot.quiet.sep hw.2.inert).append (ih hw.apart)
  | logic hop hl hw hw' hr ihl ihr =>
    exact ((((ihl hpre).sep hw.2.inert).sep (inert_logicOps _ hop)).sep hw'.2.inert).append
      (ihr hw'.apart)
  | compare hop hl hw hw' hr ihl ihr =>
    obtain ⟨hsep, hne⟩ := separates_compareOps _ hop
    exact ((((ihl hpre).sep hw.inert).sep (inert_compareOps _ hop)).sep hw'.inert).append
      (ihr (hw'.apart hsep hne))
  | filter he hw hw' hn ih =>
    exact ((((ih hpre).sep hw.inert).sep (by decide)).sep hw'.inert).sep hn.inert
  | filterCall he hw hw' hc ih ihc =>
    exact ((((ih hpre).sep hw.inert).sep (by decide)).sep hw'.inert).append
      (ihc (hw'.apart (by decide) (by decide)))
  | ofCall hc ih => exact ih hpre
  | emptyCall hn hw =>
    have hopen : Inert ['('] := by decide
    exact hn.inert.quiet.append (hopen.quiet.append (hw.inert.quiet.sep (by decide)))
  | @call n as hn has ih =>
    have hopen : Inert ['('] := by decide
    have hparen : Apart (pre ++ n ++ ['(']) := by
      rw [List.append_assoc]
      exact Separates.apart (by decide) (by decide)
    exact hn.inert.quiet.append (hopen.quiet.append ((ih hparen).sep (by decide)))
  | item hw he hw' ih =>
    exact (hw.inert.quiet.append (ih (hpre.append hw.separates))).sep hw'.inert
  | moreItems his hw he hw' ihs ih =>
    exact ((((ihs hpre).sep (by decide)).sep hw.inert).append
      (ih (hw.apart (by decide) (by decide)))).sep hw'.inert
  | arg hw hn hw₁ hw₂ he hw' ih =>
    exact (((((hw.inert.quiet.sep hn.inert).sep hw₁.inert).sep (by decide)).sep hw₂.inert).append
      (ih (hw₂.apart (by decide) (by decide)))).sep hw'.inert
  | moreArgs has hw hn hw₁ hw₂ he hw' ihs ih =>
    exact (((((((ihs hpre).sep (by decide)).sep hw.inert).sep hn.inert).sep hw₁.inert).sep
      (by decide)).sep hw₂.inert |>.append (ih (hw₂.apart (by decide) (by decide)))).sep hw'.inert

theorem Tera.ne_nil {k : Category} {t : Text} (h : Tera k t) : t ≠ [] := by
  induction h with
  | path hp =>
    rintro rfl
    exact absurd hp.last (by decide)
  | number hn =>
    cases hn with
    | integer ht => exact ht.1
    | decimal => simp
  | logic hop hl hw => simp [hw.1]
  | compare hop =>
    have := (separates_compareOps _ hop).2
    simp_all
  | ofCall hc ih => exact ih
  | item hw he hw' ih => simp [ih]
  | _ => simp

theorem inert_tagKeywords :
    ∀ keyword ∈ ["if", "elif", "else", "endif", "endfor"], Inert keyword.toList := by
  decide

theorem TeraTag.quiet {t pre : Text} (h : TeraTag t) : Quiet pre t := by
  cases h with
  | condition hk hw hw₁ he hw' =>
    have hk := inert_tagKeywords _ (List.mem_append_left ["else", "endif", "endfor"] hk)
    exact (((hw.inert.quiet.sep hk).sep hw₁.2.inert).append (he.quiet hw₁.apart)).sep hw'.inert
  | bare hk hw hw' =>
    have hk := inert_tagKeywords _ (List.mem_append_right ["if", "elif"] hk)
    exact (hw.inert.quiet.sep hk).sep hw'.inert
  | loop hw hw₁ hn hw₂ hw₃ he hw' =>
    exact (((((((hw.inert.quiet.sep (by decide)).sep hw₁.2.inert).sep hn.inert).sep
      hw₂.2.inert).sep (by decide)).sep hw₃.2.inert).append (he.quiet hw₃.apart)).sep hw'.inert
  | loopPair hw hw₁ hk hw₂ hw₃ hn hw₄ hw₅ he hw' =>
    exact (((((((((((hw.inert.quiet.sep (by decide)).sep hw₁.2.inert).sep hk.inert).sep
      hw₂.inert).sep (by decide)).sep hw₃.inert).sep hn.inert).sep hw₄.2.inert).sep
      (by decide)).sep hw₅.2.inert).append (he.quiet hw₅.apart)).sep hw'.inert
  | assign hw hw₁ hn hw₂ hw₃ he hw' =>
    exact (((((((hw.inert.quiet.sep (by decide)).sep hw₁.2.inert).sep hn.inert).sep
      hw₂.inert).sep (by decide)).sep hw₃.inert).append
      (he.quiet (hw₃.apart (by decide) (by decide)))).sep hw'.inert

theorem TeraTag.ne_nil {t : Text} (h : TeraTag t) : t ≠ [] := by
  cases h with
  | condition hk hw hw₁ => simp [hw₁.1]
  | bare hk hw hw' =>
    have : ∀ keyword ∈ ["else", "endif", "endfor"], keyword.toList ≠ [] := by decide
    simp [this _ hk]
  | _ => simp

theorem TeraBody.quiet {t pre : Text} (h : TeraBody t) (hpre : Apart pre) : Quiet pre t := by
  obtain ⟨w, e, w', rfl, hw, he, hw'⟩ := h
  exact (hw.inert.quiet.append (he.quiet (hpre.append hw.separates))).sep hw'.inert

theorem TeraBody.ne_nil {t : Text} (h : TeraBody t) : t ≠ [] := by
  obtain ⟨w, e, w', rfl, -, he, -⟩ := h
  simp [he.ne_nil]

/-! ### Native blocks -/

variable {block : Text}

theorem splits_of_ne_nil (h : blockInner block ≠ []) : Splits block := by
  unfold Splits
  unfold blockInner extractBlockParts at h ⊢
  simp only at h ⊢
  generalize (if "\x7b\x7b-".toList.isPrefixOf block || "\x7b%-".toList.isPrefixOf block then 3 else 2) = o
    at h ⊢
  generalize block.length -
    (if "-\x7d\x7d".toList.isSuffixOf block || "-%\x7d".toList.isSuffixOf block then 3 else 2) = c at h ⊢
  have hoc : o ≤ c := by
    by_contra hlt
    apply h
    apply List.drop_eq_nil_of_le
    rw [List.length_take]
    omega
  have ho : block.take o = (block.take c).take o := by rw [List.take_take, Nat.min_eq_left hoc]
  rw [ho, List.take_append_drop, List.take_append_drop]

theorem TeraBlock.inner_ne_nil (h : TeraBlock block) : blockInner block ≠ [] := by
  cases h with
  | expression ho hc hinner => exact hinner.ne_nil
  | tag ho hc hinner => exact hinner.ne_nil

/-- A native block is quiet, from its opening delimiter on. -/
theorem TeraBlock.quiet (h : TeraBlock block) :
    EndsInCode (extractBlockParts block).1 ∧ Quiet [] block := by
  have hopen : ∀ o ∈ ["\x7b\x7b".toList, "\x7b\x7b-".toList, "\x7b%".toList, "\x7b%-".toList],
      EndsInCode o ∧ Inert o ∧ Separates o := by
    decide
  have hclose : ∀ c ∈ ["\x7d\x7d".toList, "-\x7d\x7d".toList, "%\x7d".toList, "-%\x7d".toList], Inert c := by decide
  have hparts : ∀ {o c : Text}, (extractBlockParts block).1 = o →
      (extractBlockParts block).2.2 = c → Inert o → Inert c → Quiet o (blockInner block) →
      Quiet [] block := by
    rintro o c rfl rfl ho hc hinner
    rw [← splits_of_ne_nil h.inner_ne_nil]
    exact ((@Inert.quiet [] _ ho).append hinner).sep hc
  cases h with
  | expression ho hc hinner =>
    obtain ⟨hend, hinert, hsep⟩ := hopen _ (List.mem_append_left ["\x7b%".toList, "\x7b%-".toList] ho)
    have hc := hclose _ (List.mem_append_left ["%\x7d".toList, "-%\x7d".toList] hc)
    have hapart : Apart (extractBlockParts block).1 := Apart.append (p := []) (by simp [Apart]) hsep
    exact ⟨hend, hparts rfl rfl hinert hc (hinner.quiet hapart)⟩
  | tag ho hc hinner =>
    obtain ⟨hend, hinert, -⟩ := hopen _ (List.mem_append_right ["\x7b\x7b".toList, "\x7b\x7b-".toList] ho)
    have hc := hclose _ (List.mem_append_right ["\x7d\x7d".toList, "-\x7d\x7d".toList] hc)
    exact ⟨hend, hparts rfl rfl hinert hc hinner.quiet⟩

theorem TeraBlock.noDollar (h : TeraBlock block) : ForCode NoDollar block := by
  intro pre c rest hsplit hpre hc hdollar
  have hplain := (h.quiet.2 endsInCode_nil).2 pre c rest [] hsplit hpre hc
  exact absurd hdollar hplain.1

/-- A code character of the inner text is plain after the opening delimiter. -/
theorem TeraBlock.plain_inner (h : TeraBlock block) {pre rest : Text} {c : Char}
    (hsplit : blockInner block = pre ++ c :: rest) (hpre : EndsInCode pre)
    (hc : isStringDelim c = false) : ∃ post,
      PlainCode ((extractBlockParts block).1 ++ pre) c (rest ++ post) := by
  obtain ⟨hopen, hquiet⟩ := h.quiet
  refine ⟨(extractBlockParts block).2.2, ?_⟩
  have hblock : block = ((extractBlockParts block).1 ++ pre) ++
      c :: (rest ++ (extractBlockParts block).2.2) := by
    conv_lhs => rw [← splits_of_ne_nil h.inner_ne_nil, hsplit]
    simp
  have hend : EndsInCode ((extractBlockParts block).1 ++ pre) := by
    unfold EndsInCode openLiteral at hopen hpre ⊢
    rw [List.foldl_append, hopen, hpre]
  simpa using (hquiet endsInCode_nil).2 _ c _ [] hblock hend hc

theorem TeraBlock.noLeadingDot (h : TeraBlock block) :
    ForCode NoLeadingDot (blockInner block) := by
  intro pre c rest hsplit hpre hc hdot _
  obtain ⟨post, hplain⟩ := h.plain_inner hsplit hpre hc
  have hchain := (hplain.2 hdot).1
  cases pre with
  | nil =>
    -- the opening delimiter does not end in a chaining character
    have hopens : ∀ o ∈ ["\x7b\x7b".toList, "\x7b\x7b-".toList, "\x7b%".toList, "\x7b%-".toList],
        o.getLast?.any chainsDot = false := by
      decide
    rw [List.append_nil] at hchain
    cases h with
    | expression ho =>
      rw [hopens _ (List.mem_append_left ["\x7b%".toList, "\x7b%-".toList] ho)] at hchain
      exact absurd hchain (by simp)
    | tag ho =>
      rw [hopens _ (List.mem_append_right ["\x7b\x7b".toList, "\x7b\x7b-".toList] ho)] at hchain
      exact absurd hchain (by simp)
  | cons d pre => rwa [List.getLast?_append_of_ne_nil _ (by simp)] at hchain

theorem TeraBlock.noNumericSegment (h : TeraBlock block) :
    ForCode (NoNumericSegment (extractBlockParts block).1) (blockInner block) := by
  intro pre c rest hsplit hpre hc hdot hdigit
  obtain ⟨post, hplain⟩ := h.plain_inner hsplit hpre hc
  have hhead : (rest ++ post).head?.any (·.isDigit) := by
    cases rest with
    | nil => simp at hdigit
    | cons d rest => exact hdigit
  rw [(hplain.2 hdot).2 hhead]
  exact Bool.false_ne_true

/-! ### Native templates -/

variable {u : CharTables} {template : Text}

/-- A template in Tera syntax without the shape of a Go construct is left unchanged. -/
theorem native_unchanged (hn : TeraNative template) (hs : NoGoShape u template) :
    preprocess u template = template := by
  have hsplits : ∀ b ∈ liveBlocks template, Splits b := fun b hb =>
    splits_of_ne_nil (hn b hb).inner_ne_nil
  apply preprocess_id
  intro pass hpass
  simp only [passes, List.mem_cons, List.not_mem_nil, or_false] at hpass
  rcases hpass with rfl | rfl | rfl | rfl | rfl | rfl | rfl | rfl
  · rw [preprocessGoBlocks, convertGoBlocks_id u hs.actions]
    exact replaceLiveBlocks_id fun b hb => stripDollarBlock_id (hn b hb).noDollar
  · exact replaceLiveBlocks_id fun b hb =>
      onInner_id (hsplits b hb) (stripDots_id (hn b hb).noLeadingDot)
  · exact replaceLiveBlocks_id fun b hb => rewriteListSubexpr_id (hs.blocks b hb)
  · exact replaceLiveBlocks_id fun b hb => rewriteGoBuiltins_id (hsplits b hb) (hs.blocks b hb)
  · exact replaceLiveBlocks_id fun b hb => rewriteMap_id (hsplits b hb) (hs.blocks b hb)
  · exact replaceLiveBlocks_id fun b hb => rewritePositional_id (hsplits b hb) (hs.blocks b hb)
  · exact replaceLiveBlocks_id fun b hb => rewriteMethodCalls_id (hsplits b hb) (hs.blocks b hb)
  · exact replaceLiveBlocks_id fun b hb =>
      onInner_id (hsplits b hb) (indexSegments_id (hn b hb).noNumericSegment)

theorem isName_of_all {t : Text} (h : t.head?.any fun c => c.isAlpha || c == '_')
    (ht : t.all isWordChar) : IsName t := by
  cases t with
  | nil => simp at h
  | cons c cs => exact .mk h fun d hd => List.all_eq_true.mp ht d (List.mem_cons_of_mem _ hd)

theorem tera_name {t : Text} (h : t.head?.any fun c => c.isAlpha || c == '_')
    (ht : t.all isWordChar) : Tera .expr t :=
  .path (.name (isName_of_all h ht))

theorem blank_space : Blank [' '] := by decide

theorem blank1_space : Blank1 [' '] := ⟨by decide, blank_space⟩

/-- An expression between single spaces is a native block. -/
theorem teraBlock_expression {e block : Text} (he : Tera .expr e)
    (ho : (extractBlockParts block).1 = "\x7b\x7b".toList)
    (hc : (extractBlockParts block).2.2 = "\x7d\x7d".toList)
    (hi : blockInner block = [' '] ++ e ++ [' ']) : TeraBlock block :=
  .expression (by simp [ho]) (by simp [hc]) ⟨_, e, _, hi, blank_space, he, blank_space⟩

/-- A negation before `and` is not mistaken for a call. -/
theorem native_unchanged_demo :
    preprocess .ascii "\x7b\x7b not a and b.c | f \x7d\x7d".toList = "\x7b\x7b not a and b.c | f \x7d\x7d".toList := by
  have htext : "\x7b\x7b not a and b.c | f \x7d\x7d".toList = _ := String.toList_ofList
  have hlive : ∀ b ∈ liveBlocks "\x7b\x7b not a and b.c | f \x7d\x7d".toList,
      b = "\x7b\x7b not a and b.c | f \x7d\x7d".toList := by
    rw [htext]
    decide +kernel
  have hactions : NoGoAction .ascii "\x7b\x7b not a and b.c | f \x7d\x7d".toList := by
    rw [htext]
    decide +kernel
  have hquiet : QuietBlock .ascii "\x7b\x7b not a and b.c | f \x7d\x7d".toList := by
    rw [htext]
    decide +kernel
  refine native_unchanged (fun b hb => ?_) ⟨hactions, fun b hb => hlive b hb ▸ hquiet⟩
  rw [hlive b hb]
  have hb : Tera .expr "b.c".toList :=
    .path (.field (p := ['b']) (.name (isName_of_all rfl rfl)) (isName_of_all rfl rfl))
  have hnot : Tera .expr "not a".toList :=
    .negation (w := [' ']) blank1_space (tera_name (t := ['a']) rfl rfl)
  have hand : Tera .expr "not a and b.c".toList :=
    @Tera.logic "and" _ _ _ _ (by decide) hnot blank1_space blank1_space hb
  have hfilter : Tera .expr "not a and b.c | f".toList :=
    .filter hand blank_space blank_space (isName_of_all rfl rfl)
  exact teraBlock_expression hfilter rfl rfl (by decide)

/-- A chain of three operands is taken for a prefix call. -/
theorem native_chain_changed :
    ¬ ∀ (u : CharTables) (template : Text), TeraNative template →
      preprocess u template = template := by
  intro h
  have htext : "\x7b\x7b a and b or c \x7d\x7d".toList = _ := String.toList_ofList
  have hout : "\x7b\x7b a b and or or b or or or and or or or c \x7d\x7d".toList = _ :=
    String.toList_ofList
  have hbefore : preprocessListSubexpr (preprocessStripDots (preprocessGoBlocks .ascii
      "\x7b\x7b a and b or c \x7d\x7d".toList)) = "\x7b\x7b a and b or c \x7d\x7d".toList := by
    rw [htext]
    decide +kernel
  have hbuiltins : preprocessGoBuiltins .ascii "\x7b\x7b a and b or c \x7d\x7d".toList =
      "\x7b\x7b a b and or or b or or or and or or or c \x7d\x7d".toList := by
    rw [htext, hout]
    decide +kernel
  have hsyntax : preprocessPositionalSyntax (preprocessMapSyntax
      "\x7b\x7b a b and or or b or or or and or or or c \x7d\x7d".toList) =
      "\x7b\x7b a b and or or b or or or and or or or c \x7d\x7d".toList := by
    rw [hout]
    decide +kernel
  have hafter : rewriteNumericIndexSegments (preprocessMethodCalls .ascii
      "\x7b\x7b a b and or or b or or or and or or or c \x7d\x7d".toList) =
      "\x7b\x7b a b and or or b or or or and or or or c \x7d\x7d".toList := by
    rw [hout]
    decide +kernel
  have hchanged : preprocess .ascii "\x7b\x7b a and b or c \x7d\x7d".toList ≠
      "\x7b\x7b a and b or c \x7d\x7d".toList := by
    simp only [preprocess, passes, List.foldl_cons, List.foldl_nil, hbefore, hbuiltins, hsyntax,
      hafter]
    decide
  have hlive : ∀ b ∈ liveBlocks "\x7b\x7b a and b or c \x7d\x7d".toList,
      b = "\x7b\x7b a and b or c \x7d\x7d".toList := by
    rw [htext]
    decide +kernel
  refine hchanged (h .ascii _ fun b hb => ?_)
  rw [hlive b hb]
  have ha : Tera .expr "a and b".toList :=
    @Tera.logic "and" _ _ _ _ (by decide) (tera_name (t := ['a']) rfl rfl) blank1_space
      blank1_space (tera_name (t := ['b']) rfl rfl)
  have hchain : Tera .expr "a and b or c".toList :=
    @Tera.logic "or" _ _ _ _ (by decide) ha blank1_space blank1_space
      (tera_name (t := ['c']) rfl rfl)
  exact teraBlock_expression hchain rfl rfl (by decide)

end Anodizer.Template
