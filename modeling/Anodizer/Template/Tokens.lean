import Anodizer.Template.StringLit

/-! # Tokens of a block

A tokenizer that keeps every character. String literals, array literals and
balanced groups are one token each.
-/

namespace Anodizer.Template

inductive Token
  | ident (s : Text)
  | quoted (s : Text)
  | arrayLiteral (s : Text)
  | subExpr (s : Text)
  | pipe
  | space (s : Text)
  | other (s : Text)
  deriving DecidableEq, Repr

def tokenToStr : Token → Text
  | .ident s | .quoted s | .arrayLiteral s | .subExpr s | .space s | .other s => s
  | .pipe => ['|']

/-- What follows the array literal that is `depth` brackets deep. -/
def arrayRest : ℕ → ℕ → Text → Text
  | 0, _, cs => cs
  | _ + 1, _, [] => []
  | n + 1, depth, c :: cs =>
    if depth = 0 then c :: cs
    else if c = '[' then arrayRest n (depth + 1) cs
    else if c = ']' then arrayRest n (depth - 1) cs
    else if isStringDelim c then arrayRest n depth (rawStringEnd c cs)
    else arrayRest n depth cs

/-- What follows the group that is `depth` parentheses deep, if it closes. -/
def groupRest : ℕ → ℕ → Text → Option Text
  | 0, _, _ => none
  | _ + 1, _, [] => none
  | n + 1, depth, c :: cs =>
    if c = '(' then groupRest n (depth + 1) cs
    else if c = ')' then
      match depth with
      | 0 => none
      | 1 => some cs
      | d + 1 => groupRest n d cs
    else if isStringDelim c then groupRest n depth (rawStringEnd c cs)
    else groupRest n depth cs

/-- What follows the group that opens `s`, if it closes. -/
def balancedParenEnd (s : Text) : Option Text := groupRest s.length 0 s

/-- The part of `s` before its suffix `rest`. -/
def upTo (s rest : Text) : Text := s.take (s.length - rest.length)

def isPathChar (c : Char) : Bool := isWordChar c || c == '.'

/-- The state is the last token. -/
def tokenStep (last : Option Token) (c : Char) (cs : Text) :
    Scan.Step (Option Token) Char Token :=
  let push (t : Token) (rest : Text) : Scan.Step (Option Token) Char Token := ⟨[t], some t, rest⟩
  if isAsciiWhitespace c then
    push (.space (c :: cs.takeWhile isAsciiWhitespace)) (cs.dropWhile isAsciiWhitespace)
  else if isStringDelim c then
    push (.quoted (c :: (copyRawString c cs).1)) (copyRawString c cs).2
  else if c = '[' then
    let rest := arrayRest cs.length 1 cs
    push (.arrayLiteral (c :: upTo cs rest)) rest
  else if c = '(' then
    match last with
    | some (.ident _) => push (.other ['(']) cs
    | _ =>
      match balancedParenEnd (c :: cs) with
      | some rest => push (.subExpr (upTo (c :: cs) rest)) rest
      | none => push (.other ['(']) cs
  else if c = '|' then push .pipe cs
  else if isWordChar c then push (.ident (c :: cs.takeWhile isPathChar)) (cs.dropWhile isPathChar)
  else push (.other [c]) cs

def tokenizeBlock (inner : Text) : List Token := Scan.scan tokenStep none inner

def Token.isSpace : Token → Bool
  | .space _ => true
  | _ => false

def significantTokens (tokens : List Token) : List Token := tokens.filter (!·.isSpace)

def maxExprNesting : ℕ := 64

/-! ### The tokenizer loses nothing -/

theorem rawStringEnd_suffix (delim : Char) (cs : Text) : rawStringEnd delim cs <:+ cs :=
  ⟨_, copyRawString_append delim cs⟩

theorem arrayRest_suffix (n depth : ℕ) (cs : Text) : arrayRest n depth cs <:+ cs := by
  induction n generalizing depth cs with
  | zero => exact List.suffix_refl cs
  | succ n ih =>
    cases cs with
    | nil => exact List.suffix_refl []
    | cons c cs =>
      have hcons := List.suffix_cons c cs
      simp only [arrayRest]
      split_ifs
      · exact List.suffix_refl _
      · exact (ih _ _).trans hcons
      · exact (ih _ _).trans hcons
      · exact ((ih _ _).trans (rawStringEnd_suffix c cs)).trans hcons
      · exact (ih _ _).trans hcons

theorem groupRest_suffix {n depth : ℕ} {cs rest : Text} (h : groupRest n depth cs = some rest) :
    rest <:+ cs ∧ rest.length < cs.length := by
  have hlt : ∀ {c : Char} {t : Text}, rest <:+ t → rest.length < (c :: t).length := fun h =>
    Nat.lt_succ_of_le h.length_le
  induction n generalizing depth cs with
  | zero => simp [groupRest] at h
  | succ n ih =>
    cases cs with
    | nil => simp [groupRest] at h
    | cons c cs =>
      have hcons := List.suffix_cons c cs
      simp only [groupRest] at h
      split_ifs at h
      · have := (ih h).1
        exact ⟨this.trans hcons, hlt this⟩
      · split at h
        · simp at h
        · cases h
          exact ⟨hcons, hlt (List.suffix_refl _)⟩
        · have := (ih h).1
          exact ⟨this.trans hcons, hlt this⟩
      · have := (ih h).1.trans (rawStringEnd_suffix c cs)
        exact ⟨this.trans hcons, hlt this⟩
      · have := (ih h).1
        exact ⟨this.trans hcons, hlt this⟩

@[simp] theorem upTo_left (s rest : Text) : upTo (s ++ rest) rest = s := by
  simp [upTo]

theorem upTo_append {s rest : Text} (h : rest <:+ s) : upTo s rest ++ rest = s := by
  obtain ⟨pre, rfl⟩ := h
  rw [upTo_left]

theorem tokenStep_faithful : Scan.Faithful tokenStep tokenToStr fun _ _ => True := by
  intro last c cs _
  have hdrop (p : Char → Bool) : (cs.dropWhile p).length ≤ cs.length :=
    (List.dropWhile_suffix p).length_le
  simp only [tokenStep]
  split_ifs with _ _ _ hparen hpipe
  · exact ⟨by simp [tokenToStr], hdrop _, trivial⟩
  · exact ⟨by simp [tokenToStr, copyRawString_append], length_rawStringEnd c cs, trivial⟩
  · have h := arrayRest_suffix cs.length 1 cs
    exact ⟨by simp [tokenToStr, upTo_append h], h.length_le, trivial⟩
  · subst hparen
    split
    · exact ⟨by simp [tokenToStr], Nat.le_refl _, trivial⟩
    · split
      · next rest hrest =>
        obtain ⟨hsuf, hlen⟩ := groupRest_suffix hrest
        exact ⟨by simp [tokenToStr, upTo_append hsuf], Nat.le_of_lt_succ hlen, trivial⟩
      · exact ⟨by simp [tokenToStr], Nat.le_refl _, trivial⟩
  · exact ⟨by simp [tokenToStr, hpipe], Nat.le_refl _, trivial⟩
  · exact ⟨by simp [tokenToStr], hdrop _, trivial⟩
  · exact ⟨by simp [tokenToStr], Nat.le_refl _, trivial⟩

/-- A group token carries both parentheses. -/
def Token.WellFormed : Token → Prop
  | .subExpr s => ∃ body, s = '(' :: (body ++ [')'])
  | _ => True

theorem groupRest_close {n depth : ℕ} {cs rest : Text} (h : groupRest n depth cs = some rest) :
    ∃ body, cs = body ++ ')' :: rest := by
  induction n generalizing depth cs with
  | zero => simp [groupRest] at h
  | succ n ih =>
    cases cs with
    | nil => simp [groupRest] at h
    | cons c cs =>
      simp only [groupRest] at h
      split_ifs at h with _ hclose _
      · obtain ⟨body, rfl⟩ := ih h
        exact ⟨c :: body, rfl⟩
      · split at h
        · simp at h
        · cases h
          exact ⟨[], by rw [hclose, List.nil_append]⟩
        · obtain ⟨body, rfl⟩ := ih h
          exact ⟨c :: body, rfl⟩
      · obtain ⟨body, hbody⟩ := ih h
        refine ⟨c :: ((copyRawString c cs).1 ++ body), ?_⟩
        rw [List.cons_append, List.append_assoc, ← hbody]
        exact congrArg _ (copyRawString_append c cs).symm
      · obtain ⟨body, rfl⟩ := ih h
        exact ⟨c :: body, rfl⟩

theorem balancedParenEnd_close {cs rest : Text} (h : balancedParenEnd ('(' :: cs) = some rest) :
    ∃ body, cs = body ++ ')' :: rest := by
  simp only [balancedParenEnd, groupRest, List.length_cons, if_true] at h
  exact groupRest_close h

theorem wellFormed_tokenizeBlock (inner : Text) : ∀ t ∈ tokenizeBlock inner, t.WellFormed := by
  refine Scan.forall_scan (I := fun _ _ => True) ?_ trivial
  intro last c cs _
  refine ⟨?_, trivial⟩
  simp only [tokenStep]
  split_ifs with _ _ _ hparen
  · simp [Token.WellFormed]
  · simp [Token.WellFormed]
  · simp [Token.WellFormed]
  · subst hparen
    split
    · simp [Token.WellFormed]
    · split
      · next rest hrest =>
        obtain ⟨body, rfl⟩ := balancedParenEnd_close hrest
        simp only [List.mem_singleton, forall_eq, Token.WellFormed]
        have hcut : '(' :: (body ++ ')' :: rest) = '(' :: (body ++ [')']) ++ rest := by simp
        exact ⟨body, by rw [hcut, upTo_left]⟩
      · simp [Token.WellFormed]
  · simp [Token.WellFormed]
  · simp [Token.WellFormed]
  · simp [Token.WellFormed]

/-- The texts of a list of tokens. -/
def textOf (tokens : List Token) : Text := tokens.flatMap tokenToStr

/-- The tokens of a text make it up. -/
theorem textOf_tokenizeBlock (inner : Text) : textOf (tokenizeBlock inner) = inner :=
  Scan.scan_faithful tokenStep_faithful trivial

end Anodizer.Template
