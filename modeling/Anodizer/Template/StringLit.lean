import Anodizer.Lib.Regex
import Mathlib

/-! # Characters and string literals of a template

Templates are lists of characters. A string literal closes at the next
occurrence of its opening delimiter, with no escape.
-/

namespace Anodizer.Template

open Regex

abbrev Text := List Char

instance : LawfulBEq Text := inferInstance

instance : LawfulBEq (List Text) := inferInstance

/-- The classes of characters that the regex engine takes from its Unicode tables. -/
structure CharTables where
  digit : Char → Bool
  word : Char → Bool
  digit_ascii : ∀ c, c.toNat < 128 → digit c = c.isDigit
  word_ascii : ∀ c, c.toNat < 128 → word c = (c.isAlphanum || c == '_')

/-- Tables that know the ASCII characters only. -/
def CharTables.ascii : CharTables where
  digit := Char.isDigit
  word c := c.isAlphanum || c == '_'
  digit_ascii _ _ := rfl
  word_ascii _ _ := rfl

/-- The Unicode `White_Space` property. -/
def isWhitespace (c : Char) : Bool :=
  let n := c.toNat
  (9 ≤ n && n ≤ 13) || n == 0x20 || n == 0x85 || n == 0xA0 || n == 0x1680 ||
    (0x2000 ≤ n && n ≤ 0x200A) || n == 0x2028 || n == 0x2029 || n == 0x202F || n == 0x205F ||
    n == 0x3000

def isAsciiWhitespace (c : Char) : Bool :=
  c == ' ' || c == '\t' || c == '\n' || c == Char.ofNat 12 || c == '\r'

/-- A letter, a digit or an underscore of ASCII. -/
def isWordChar (c : Char) : Bool := c.isAlphanum || c == '_'

def trimStart (s : Text) : Text := s.dropWhile isWhitespace

def trim (s : Text) : Text := (trimStart (trimStart s).reverse).reverse

/-- The text contains `needle`. -/
def contains (s needle : Text) : Bool := s.tails.any needle.isPrefixOf

/-! ### String literals -/

def isStringDelim (c : Char) : Bool := c == '"' || c == '\x27' || c == '\x60'

/-- The rest of the literal that `delim` opens, with its closing delimiter, and what follows. -/
def copyRawString (delim : Char) : Text → Text × Text
  | [] => ([], [])
  | c :: cs =>
    if c = delim then ([c], cs)
    else
      let (literal, rest) := copyRawString delim cs
      (c :: literal, rest)

/-- What follows the literal that `delim` opens. -/
def rawStringEnd (delim : Char) (cs : Text) : Text := (copyRawString delim cs).2

theorem copyRawString_append (delim : Char) (cs : Text) :
    (copyRawString delim cs).1 ++ (copyRawString delim cs).2 = cs := by
  induction cs with
  | nil => rfl
  | cons c cs ih =>
    simp only [copyRawString]
    split
    · rfl
    · rw [List.cons_append, ih]

theorem length_rawStringEnd (delim : Char) (cs : Text) :
    (rawStringEnd delim cs).length ≤ cs.length := by
  have h := congrArg List.length (copyRawString_append delim cs)
  simp only [List.length_append] at h
  unfold rawStringEnd
  omega

/-- A literal is closed, or runs to the end of the text. -/
theorem copyRawString_cases (delim : Char) (cs : Text) :
    (∃ body rest, delim ∉ body ∧ cs = body ++ delim :: rest ∧
      copyRawString delim cs = (body ++ [delim], rest)) ∨ copyRawString delim cs = (cs, []) := by
  induction cs with
  | nil => exact .inr rfl
  | cons c cs ih =>
    by_cases hc : c = delim
    · subst hc
      exact .inl ⟨[], cs, by simp, rfl, by simp [copyRawString]⟩
    · rcases ih with ⟨body, rest, hbody, rfl, h⟩ | h
      · refine .inl ⟨c :: body, rest, ?_, rfl, ?_⟩
        · simpa [Ne.symm hc] using hbody
        · simp only [List.cons_append, copyRawString, if_neg hc] at h ⊢
          rw [h]
      · right
        simp only [copyRawString, if_neg hc, h]

/-! ### Code positions -/

/-- The literal that is open after one more character. -/
def literalAfter (opened : Option Char) (c : Char) : Option Char :=
  match opened with
  | some delim => if c = delim then none else some delim
  | none => if isStringDelim c then some c else none

/-- The literal that is open after a text. -/
def openLiteral (text : Text) : Option Char := text.foldl literalAfter none

/-- The text ends outside string literals. -/
def EndsInCode (text : Text) : Prop := openLiteral text = none

theorem endsInCode_nil : EndsInCode [] := rfl

theorem foldl_literalAfter {delim : Char} {body : Text} (h : delim ∉ body) :
    body.foldl literalAfter (some delim) = some delim := by
  induction body with
  | nil => rfl
  | cons c body ih =>
    simp only [List.mem_cons, not_or] at h
    rw [List.foldl_cons, literalAfter, if_neg (Ne.symm h.1), ih h.2]

theorem EndsInCode.literal {pre body : Text} {delim : Char} (hpre : EndsInCode pre)
    (hd : isStringDelim delim) (h : delim ∉ body) :
    EndsInCode (pre ++ delim :: (body ++ [delim])) := by
  unfold EndsInCode openLiteral at hpre ⊢
  simp only [List.foldl_append, hpre, List.foldl_cons, literalAfter, if_pos hd,
    foldl_literalAfter h, List.foldl_nil, if_true]

theorem EndsInCode.code {pre : Text} {c : Char} (hpre : EndsInCode pre)
    (hc : isStringDelim c = false) : EndsInCode (pre ++ [c]) := by
  unfold EndsInCode openLiteral at hpre ⊢
  simp [List.foldl_append, hpre, literalAfter, hc]

/-- `P` holds of every character outside string literals, with its surroundings. -/
def ForCode (P : Text → Char → Text → Prop) (text : Text) : Prop :=
  ∀ pre c rest, text = pre ++ c :: rest → EndsInCode pre → isStringDelim c = false → P pre c rest

/-- A step that copies literals whole and leaves the rest to `code`. -/
def copyLiterals {σ : Type} (note : σ → Text → σ)
    (code : σ → Char → Text → Scan.Step σ Char Char) (s : σ) (c : Char) (cs : Text) :
    Scan.Step σ Char Char :=
  if isStringDelim c then
    let (literal, rest) := copyRawString c cs
    ⟨c :: literal, note s (c :: literal), rest⟩
  else code s c cs

/-- A scan that copies every code character, and so keeps the text. -/
theorem scan_copyLiterals {σ : Type} {note : σ → Text → σ}
    {code : σ → Char → Text → Scan.Step σ Char Char} {s₀ : σ} {text : Text}
    (st : Text → σ) (hstart : st [] = s₀) (hnote : ∀ pre t, note (st pre) t = st (pre ++ t))
    (hcode : ForCode (fun pre c rest => code (st pre) c rest = ⟨[c], st (pre ++ [c]), rest⟩)
      text) :
    Scan.scan (copyLiterals note code) s₀ text = text := by
  apply Scan.scan_copies (I := fun s rest => ∃ pre, text = pre ++ rest ∧ s = st pre ∧
    (EndsInCode pre ∨ rest = []))
  · rintro s c cs ⟨pre, htext, rfl, hpre⟩
    have hend : EndsInCode pre := hpre.resolve_right (by simp)
    unfold copyLiterals
    split
    · next hd =>
      rcases copyRawString_cases c cs with ⟨body, rest, hbody, rfl, h⟩ | h
      · rw [h]
        refine ⟨by simp, ?_, pre ++ c :: (body ++ [c]), by simp [htext], hnote _ _, ?_⟩
        · simp only [List.length_append, List.length_cons]
          omega
        · exact .inl (hend.literal hd hbody)
      · rw [h]
        exact ⟨by simp, by simp, pre ++ c :: cs, by simp [htext], hnote _ _, .inr rfl⟩
    · next hd =>
      have hd := eq_false_of_ne_true hd
      rw [hcode pre c cs htext hend hd]
      exact ⟨by simp, Nat.le_refl _, pre ++ [c], by simp [htext], rfl, .inl (hend.code hd)⟩
  · exact ⟨[], rfl, hstart.symm, .inl rfl⟩

/-! ### Pattern fragments -/

def space : Re := .char isWhitespace

def spaces : Re := .star true space

def spaces1 : Re := .plus true space

def anyChar : Re := .char fun _ => true

/-- `-?` -/
def trimMark : Re := .opt (.lit "-")

def quoted (delim : Char) : Re :=
  .cat [.char (· == delim), .star true (.char (· != delim)), .char (· == delim)]

/-- One complete string literal. -/
def rawStringRe : Re := .alt (quoted '"') (.alt (quoted '\x27') (quoted '\x60'))

/-- `[a-zA-Z_][a-zA-Z0-9_.]*` -/
def pathRe : Re :=
  .seq (.char fun c => c.isAlpha || c == '_') (.star true (.char fun c => isWordChar c || c == '.'))

/-- `(?:^|(?P<pre>[^a-zA-Z0-9_]))` -/
def preRe : Re := .alt .textStart (.group "pre" (.char (!isWordChar ·)))

end Anodizer.Template
