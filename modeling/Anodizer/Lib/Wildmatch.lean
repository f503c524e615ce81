import Mathlib.Data.List.Infix
import Mathlib.Tactic.Common

/-! # Wildcard patterns

A star takes any text, a class takes one character of its ranges, and every other
character takes itself.
-/

namespace Wildmatch

/-- A star, or the characters that one position may hold. -/
inductive Token
  | star
  | one (negated : Bool) (ranges : List (Char × Char))
  deriving DecidableEq, Repr

namespace Token

/-- The character lies in one of the ranges, or in none where the class is negated. -/
def admits (negated : Bool) (ranges : List (Char × Char)) (c : Char) : Bool :=
  (ranges.any fun r => r.1 ≤ c && c ≤ r.2) != negated

def lit (c : Char) : Token := one false [(c, c)]

def any : Token := one true []

end Token

/-- Where the reading of a pattern stands: outside classes, behind a backslash, behind the bracket
that opens a class, or in a class with the character before and the ranges so far. -/
inductive Mode
  | text
  | escaped
  | opened
  | cls (negated : Bool) (prev : Option Char) (ranges : List (Char × Char))

/-- The tokens of a pattern, if its classes are closed. -/
def parse : Mode → List Char → Option (List Token)
  | .text, [] => some []
  | .text, c :: p =>
    if c = '*' then (parse .text p).map (.star :: ·)
    else if c = '?' then (parse .text p).map (.any :: ·)
    else if c = '[' then parse .opened p
    else if c = '\\' then parse .escaped p
    else (parse .text p).map (.lit c :: ·)
  | .escaped, c :: p => (parse .text p).map (.lit c :: ·)
  | .opened, c :: p =>
    if c = '!' ∨ c = '^' then parse (.cls true none []) p
    else parse (.cls false (some c) [(c, c)]) p
  -- a dash between two characters spans them, and stands for itself elsewhere
  | .cls negated (some a) ranges, '-' :: c :: p =>
    if c = ']' then (parse .text p).map (.one negated (ranges ++ [('-', '-')]) :: ·)
    else parse (.cls negated none (ranges ++ [(a, c)])) p
  | .cls negated _ ranges, c :: p =>
    if c = ']' ∧ ranges ≠ [] then (parse .text p).map (.one negated ranges :: ·)
    else parse (.cls negated (some c) (ranges ++ [(c, c)])) p
  | _, [] => none

/-- A text matches the tokens. -/
@[grind =] def accepts : List Token → List Char → Bool
  | [], s => s.isEmpty
  | .star :: ts, s => s.tails.any (accepts ts)
  | .one negated ranges :: ts, c :: s => Token.admits negated ranges c && accepts ts s
  | .one _ _ :: _, [] => false

/-- A text matches the pattern. -/
def wildmatch (pattern text : List Char) : Bool := (parse .text pattern).any (accepts · text)

variable {ts : List Token} {s : List Char} {negated : Bool} {ranges : List (Char × Char)}

@[simp] theorem accepts_nil : accepts [] s ↔ s = [] := by
  simp [accepts]

@[simp] theorem accepts_star : accepts (.star :: ts) s ↔ ∃ a b, s = a ++ b ∧ accepts ts b := by
  rw [accepts, List.any_eq_true]
  constructor
  · rintro ⟨b, hb, h⟩
    obtain ⟨a, rfl⟩ := List.mem_tails b s |>.mp hb
    exact ⟨a, b, rfl, h⟩
  · rintro ⟨a, b, rfl, h⟩
    exact ⟨b, (List.mem_tails b _).mpr (List.suffix_append a b), h⟩

@[simp] theorem accepts_one : accepts (.one negated ranges :: ts) s ↔
    ∃ c t, s = c :: t ∧ Token.admits negated ranges c ∧ accepts ts t := by
  cases s <;> simp [accepts]

@[simp] theorem accepts_lit {c : Char} :
    accepts (.lit c :: ts) s ↔ ∃ t, s = c :: t ∧ accepts ts t := by
  have hadmits : ∀ d, Token.admits false [(c, c)] d ↔ d = c := by
    intro d
    simp only [Token.admits, List.any_cons, List.any_nil, Bool.or_false, bne_iff_ne, ne_eq,
      Bool.not_eq_false, Bool.and_eq_true, decide_eq_true_eq]
    refine ⟨fun h => Char.le_antisymm h.2 h.1, ?_⟩
    rintro rfl
    exact ⟨Char.le_refl _, Char.le_refl _⟩
  rw [Token.lit, accepts_one]
  simp [hadmits]

/-- A literal text in a pattern stands for itself. -/
theorem accepts_text {w : List Char} :
    accepts (w.map .lit ++ ts) s ↔ ∃ t, s = w ++ t ∧ accepts ts t := by
  induction w generalizing s with
  | nil => simp
  | cons c w ih =>
    rw [List.map_cons, List.cons_append, accepts_lit]
    simp only [ih]
    constructor
    · rintro ⟨_, rfl, t, rfl, h⟩
      exact ⟨t, rfl, h⟩
    · rintro ⟨t, rfl, h⟩
      exact ⟨_, rfl, t, rfl, h⟩

end Wildmatch
