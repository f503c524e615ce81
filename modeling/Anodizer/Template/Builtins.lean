import Anodizer.Template.DotsDollars

/-! # Lists and Go builtins

The passes that turn `(list …)` into an array literal and the prefix calls of
comparisons, `and`, `or` and `len` into infix and filter form.
-/

namespace Anodizer.Template

open Regex

variable (u : CharTables)

/-! ### Lists -/

/-- A string literal or a path. -/
def itemRe : Re := .alt rawStringRe pathRe

/-- The texts of the items of an argument list. -/
def splitItems (args : Text) : List Text := (findIter itemRe args).map (·.text)

def joinTexts (sep : String) (texts : List Text) : Text := List.intercalate sep.toList texts

def listSubexprRe : Re :=
  .cat [.lit "(list", spaces1, .group "1" (.seq itemRe (.star true (.seq spaces1 itemRe))),
    .lit ")"]

def arrayLiteral (m : Found) : Text :=
  "[".toList ++ joinTexts ", " (splitItems (m.get "1")) ++ "]".toList

def rewriteListSubexpr (block : Text) : Text :=
  if !contains block "(list ".toList then block
  else replaceAll listSubexprRe arrayLiteral block

def preprocessListSubexpr (template : Text) : Text :=
  replaceLiveBlocks template rewriteListSubexpr

/-! ### Prefix calls -/

def noParens : Re := .star true (.char fun c => c != '(' && c != ')')

/-- A group with no group inside. -/
def flatGroupRe : Re := .cat [.lit "(", noParens, .lit ")"]

/-- A group whose inner groups stand next to each other. -/
def argGroupRe : Re := .cat [.lit "(", noParens, .star true flatGroupRe, noParens, .lit ")"]

/-- An argument: a string literal, a group, a path or a number. -/
def argRe : Re :=
  .alt rawStringRe (.alt argGroupRe (.alt pathRe (.plus true (.char u.digit))))

def prefixRe (funcName : String) : Re :=
  .cat [preRe, .lit funcName, spaces1, .group "a1" (argRe u), spaces1,
    .group "tail" (.seq (argRe u) (.star true (.seq spaces1 (argRe u))))]

def splitArgs (tail : Text) : List Text := (findIter (argRe u) tail).map (·.text)

/-- `X op Y` -/
def infixText (operator : String) (x y : Text) : Text :=
  x ++ ' ' :: operator.toList ++ ' ' :: y

def infixCall (operator : String) (m : Found) : Text :=
  let rest := splitArgs u (m.get "tail")
  m.get "pre" ++ joinTexts " or " (rest.map (infixText operator (m.get "a1")))

def rewritePrefixToInfix (expr : Text) (funcName operator : String) : Text :=
  replaceAll (prefixRe u funcName) (infixCall u operator) expr

def comparisonOps : List (String × String) :=
  [("eq", "=="), ("ne", "!="), ("gt", ">"), ("lt", "<"), ("ge", ">="), ("le", "<=")]

def rewriteComparisons (expr : Text) : Text :=
  comparisonOps.foldl (fun e op => rewritePrefixToInfix u e op.1 op.2) expr

def lenRe : Re :=
  .cat [preRe, .lit "len", spaces1, .group "arg" (.alt rawStringRe (.alt flatGroupRe pathRe))]

def lengthFilter (m : Found) : Text := m.get "pre" ++ m.get "arg" ++ " | length".toList

def rewriteLen (expr : Text) : Text := replaceAll lenRe lengthFilter expr

def rewriteComparisonExpr (expr : Text) : Text := rewriteLen (rewriteComparisons u expr)

/-- The content of a group with at most one level of groups inside. -/
def parenContentRe : Re :=
  .seq noParens (.star true (.cat [.lit "(", noParens, .lit ")", noParens]))

def logicalParenRe : Re :=
  .cat [preRe, .group "op" (.alt (.lit "and") (.lit "or")),
    spaces1, .lit "(", .group "3" parenContentRe, .lit ")",
    spaces1, .lit "(", .group "4" parenContentRe, .lit ")"]

def logicalInfix (m : Found) : Text :=
  m.get "pre" ++ rewriteComparisonExpr u (m.get "3") ++ ' ' :: m.get "op" ++
    ' ' :: rewriteComparisonExpr u (m.get "4")

def rewriteLogicalWithParenArgs (expr : Text) : Text :=
  replaceAll logicalParenRe (logicalInfix u) expr

def notParenRe : Re :=
  .cat [.lit "not", spaces1, .lit "(", .group "1" noParens, .lit ")"]

def notInfix (m : Found) : Text :=
  let inner := m.get "1"
  let rewritten := rewriteComparisonExpr u inner
  if rewritten ≠ inner then "not ".toList ++ rewritten else m.text

def rewriteNotWithParenComparison (expr : Text) : Text :=
  replaceAll notParenRe (notInfix u) expr

def rewriteGoBuiltinsInExpr (expr : Text) : Text :=
  let expr := rewriteLogicalWithParenArgs u expr
  let expr := rewriteNotWithParenComparison u expr
  let expr := rewriteComparisons u expr
  let expr := rewritePrefixToInfix u expr "and" "and"
  let expr := rewritePrefixToInfix u expr "or" "or"
  rewriteLen expr

/-- A block without one of the names before a blank is not looked at further. -/
def needsRewrite (inner : Text) : Bool :=
  comparisonOps.any (fun op => contains inner (op.1.toList ++ [' '])) ||
    contains inner "and ".toList || contains inner "or ".toList || contains inner "len ".toList

def rewriteGoBuiltins (block : Text) : Text :=
  let (opened, inner, closed) := extractBlockParts block
  if !needsRewrite inner then block
  else opened ++ rewriteGoBuiltinsInExpr u inner ++ closed

def preprocessGoBuiltins (template : Text) : Text :=
  replaceLiveBlocks template (rewriteGoBuiltins u)

end Anodizer.Template
