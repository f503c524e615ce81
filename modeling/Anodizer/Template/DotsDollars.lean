import Anodizer.Template.GoBlocks

/-! # Dollars, leading dots and numeric segments

The passes that strip `$` and leading dots and that index by numeric segments.
Each copies string literals whole.
-/

namespace Anodizer.Template

open Regex

/-! ### The `$` of Go variables -/

def dollarStep (_ : Unit) (c : Char) (cs : Text) : Scan.Step Unit Char Char :=
  if c == '$' && cs.head?.any (fun d => d.isAlpha || d == '_') then ⟨[], (), cs⟩
  else ⟨[c], (), cs⟩

def stripDollarBlock (block : Text) : Text :=
  Scan.scan (copyLiterals (fun s _ => s) dollarStep) () block

def stripDollarVars (template : Text) : Text := replaceLiveBlocks template stripDollarBlock

/-- The first pass. -/
def preprocessGoBlocks (u : CharTables) (template : Text) : Text :=
  stripDollarVars (convertGoBlocks u template)

/-! ### Leading dots -/

/-- A dot after this character is a chained access. -/
def chainsDot (c : Char) : Bool := isWordChar c || c == '?' || c == ']'

/-- The state is the character before. -/
def dotStep (prev : Option Char) (c : Char) (cs : Text) : Scan.Step (Option Char) Char Char :=
  if c == '.' && cs.head?.any isWordChar then
    ⟨if prev.any chainsDot then ['.'] else [], some c, cs⟩
  else ⟨[c], some c, cs⟩

/-- Rewrite the inner text of a block. -/
def onInner (rewrite : Text → Text → Text) (block : Text) : Text :=
  let (opened, inner, closed) := extractBlockParts block
  opened ++ rewrite opened inner ++ closed

def stripDots (inner : Text) : Text := Scan.scan (copyLiterals before dotStep) none inner

def preprocessStripDots (template : Text) : Text :=
  replaceLiveBlocks template (onInner fun _ => stripDots)

/-! ### Numeric segments -/

/-- The output, last character first, ends in something a numeric segment can index. -/
def endsWithPathHead (out : Text) : Bool :=
  let out := if out.head? = some '?' then out.tail else out
  match out with
  | [] => false
  | c :: _ =>
    if c == ']' || c == ')' then true
    else if isWordChar c then (out.takeWhile isWordChar).any (!·.isDigit)
    else false

/-- The state is the output so far, last character first. -/
def numericStep (out : Text) (c : Char) (cs : Text) : Scan.Step Text Char Char :=
  if c == '.' && cs.head?.any (·.isDigit) then
    let digits := cs.takeWhile (·.isDigit)
    let rest := cs.dropWhile (·.isDigit)
    let endsAtBoundary := !rest.head?.any fun d => d.isAlpha || d == '_'
    if endsAtBoundary && endsWithPathHead out then
      let index := '[' :: digits ++ [']']
      ⟨index, index.reverse ++ out, rest⟩
    else ⟨[c], c :: out, cs⟩
  else ⟨[c], c :: out, cs⟩

def indexSegments (opened inner : Text) : Text :=
  Scan.scan (copyLiterals (fun out literal => literal.reverse ++ out) numericStep)
    opened.reverse inner

/-- The last pass. -/
def rewriteNumericIndexSegments (template : Text) : Text :=
  replaceLiveBlocks template (onInner indexSegments)

/-! ### What these passes leave alone -/

variable {opened inner block : Text}

/-- No `$` starts a variable. -/
def NoDollar (_ : Text) (c : Char) (rest : Text) : Prop :=
  c = '$' → ¬ rest.head?.any fun d => d.isAlpha || d == '_'

/-- A dot before a word chains an access. -/
def NoLeadingDot (pre : Text) (c : Char) (rest : Text) : Prop :=
  c = '.' → rest.head?.any isWordChar → pre.getLast?.any chainsDot

/-- Digits after a dot do not index a path. -/
def NoNumericSegment (opened pre : Text) (c : Char) (rest : Text) : Prop :=
  c = '.' → rest.head?.any (·.isDigit) → ¬ endsWithPathHead (opened ++ pre).reverse

theorem stripDollarBlock_id (h : ForCode NoDollar block) : stripDollarBlock block = block := by
  apply scan_copyLiterals (fun _ => ()) rfl
  · exact fun _ _ => rfl
  · intro pre c rest htext hpre hc
    have := h pre c rest htext hpre hc
    unfold NoDollar at this
    simp only [dollarStep]
    rw [if_neg (by simpa using this)]

theorem stripDots_id (h : ForCode NoLeadingDot inner) : stripDots inner = inner := by
  apply scan_copyLiterals List.getLast? rfl
  · exact fun pre t => by simp [before, List.getLast?_append]
  · intro pre c rest htext hpre hc
    simp only [dotStep, List.getLast?_append, List.getLast?_singleton]
    split
    · next hdot =>
      simp only [Bool.and_eq_true, beq_iff_eq] at hdot
      rw [if_pos (h pre c rest htext hpre hc hdot.1 hdot.2), hdot.1]
      rfl
    · rfl

theorem indexSegments_id (h : ForCode (NoNumericSegment opened) inner) :
    indexSegments opened inner = inner := by
  apply scan_copyLiterals (fun pre => (opened ++ pre).reverse) (by simp)
  · exact fun pre t => by simp
  · intro pre c rest htext hpre hc
    have := h pre c rest htext hpre hc
    unfold NoNumericSegment at this
    simp only [numericStep]
    split
    · next hdot =>
      simp only [Bool.and_eq_true, beq_iff_eq] at hdot
      have hhead := eq_false_of_ne_true (this hdot.1 hdot.2)
      rw [hhead, Bool.and_false]
      simp
    · simp

end Anodizer.Template
