import Anodizer.Template.Builtins
import Anodizer.Template.Tokens

/-! # Positional calls

The passes that give the positional arguments of Go calls their names. A call
is found by its name and its number of arguments.
-/

namespace Anodizer.Template

open Regex

/-! ### Maps -/

def mapPositionalRe : Re :=
  .cat [preRe, .lit "map", spaces1,
    .group "args" (.seq itemRe (.plus true (.seq spaces1 itemRe)))]

def mapPairs (m : Found) : Text :=
  m.get "pre" ++ "map(pairs=[".toList ++ joinTexts ", " (splitItems (m.get "args")) ++
    "])".toList

def rewriteMap (block : Text) : Text :=
  if !contains block "map ".toList then block
  else if contains block "map(".toList then block
  else onInner (fun _ => replaceAll mapPositionalRe mapPairs) block

def preprocessMapSyntax (template : Text) : Text := replaceLiveBlocks template rewriteMap

/-! ### The builtins -/

structure PositionalSyntax where
  name : String
  standaloneParams : List String
  pipedParams : List String
  deriving DecidableEq, Repr

def positionalFunctions : List PositionalSyntax :=
  [⟨"replace", ["s", "old", "new"], ["from", "to"]⟩,
   ⟨"split", ["s", "sep"], ["sep"]⟩,
   ⟨"contains", ["s", "substr"], ["substr"]⟩,
   ⟨"in", ["items", "value"], ["value"]⟩,
   ⟨"reReplaceAll", ["pattern", "input", "replacement"], ["pattern", "replacement"]⟩,
   ⟨"filter", ["items", "regexp"], ["regexp"]⟩,
   ⟨"reverseFilter", ["items", "regexp"], ["regexp"]⟩,
   ⟨"index", ["collection", "key"], ["key"]⟩,
   ⟨"trimprefix", ["s", "prefix"], ["prefix"]⟩,
   ⟨"trimsuffix", ["s", "suffix"], ["suffix"]⟩,
   ⟨"envOrDefault", ["name", "default"], []⟩,
   ⟨"indexOrDefault", ["map", "key", "default"], []⟩]

/-- The builtins of one argument, with the name of that argument. -/
def unaryFunctions : List (String × String) :=
  [("abs", "s"), ("base", "s"), ("blake2b", "s"), ("blake2s", "s"), ("blake3", "s"),
   ("crc32", "s"), ("dir", "s"), ("englishJoin", "items"), ("incmajor", "v"),
   ("incminor", "v"), ("incpatch", "v"), ("isEnvSet", "name"), ("md5", "s"),
   ("mdv2escape", "s"), ("mustReadFile", "path"), ("readFile", "path"), ("sha1", "s"),
   ("sha224", "s"), ("sha256", "s"), ("sha384", "s"), ("sha512", "s"), ("sha3_224", "s"),
   ("sha3_256", "s"), ("sha3_384", "s"), ("sha3_512", "s"), ("time", "format"),
   ("title", "s"), ("tolower", "s"), ("toupper", "s"), ("trim", "s"), ("urlPathEscape", "s")]

def lookupPositional (name : Text) : Option PositionalSyntax :=
  positionalFunctions.find? (·.name.toList = name) <|>
    (unaryFunctions.find? (·.1.toList = name)).map fun f => ⟨f.1, [f.2], []⟩

/-- The variadic builtins, with the array parameter that collects their arguments. -/
def variadicFunctions : List (String × String) :=
  [("printf", "args"), ("print", "args"), ("println", "args"), ("list", "items"),
   ("join", "elems")]

def lookupVariadic (name : Text) : Option String :=
  (variadicFunctions.find? (·.1.toList = name)).map Prod.snd

/-! ### The rewrite of one expression -/

section Expression

/- How the groups of the expression are rewritten. -/
variable (sub : Text → Text)

def formatArgValue : Token → Option Text
  | .quoted s | .ident s | .arrayLiteral s => some s
  | .subExpr s => some (sub s)
  | _ => none

/-- A bare parenthesis: the arguments are named already. -/
def isNamedArgCall (sig : List Token) : Bool := sig.any (· == .other ['('])

def spaceText : Option Token → Text
  | some (.space s) => s
  | _ => []

/-- `text` between the outer whitespace of the tokens. -/
def withBlockWhitespace (tokens : List Token) (text : Text) : Text :=
  spaceText tokens.head? ++ text ++ spaceText tokens.getLast?

def tryRewriteSlice (tokens : List Token) : Option Text :=
  let sig := significantTokens tokens
  if isNamedArgCall sig then none
  else
    match sig with
    | .ident name :: args =>
      if name ≠ "slice".toList then none
      else do
        match ← args.mapM (formatArgValue sub) with
        | [item, start] =>
          withBlockWhitespace tokens
            (item ++ " | slice(start=".toList ++ start ++ ")".toList)
        | [item, start, stop] =>
          withBlockWhitespace tokens
            (item ++ " | slice(start=".toList ++ start ++ ", end=".toList ++ stop ++ ")".toList)
        | _ => none
    | _ => none

/-- An array of values under a name. -/
def namedArray (param : String) (values : List Text) : Text :=
  param.toList ++ "=[".toList ++ joinTexts ", " values ++ "]".toList

/-- The parameters of a variadic call. `printf` takes its first value as the format. -/
def variadicParams (name : Text) (param : String) (values : List Text) : Option Text :=
  if name = "printf".toList then
    match values with
    | [] => none
    | fmt :: values => some ("format=".toList ++ fmt ++ ", ".toList ++ namedArray param values)
  else some (namedArray param values)

def tryRewriteVariadic (tokens : List Token) : Option Text :=
  let sig := significantTokens tokens
  if isNamedArgCall sig then none
  else
    match sig with
    | .ident name :: args => do
      let param ← lookupVariadic name
      if (name = "list".toList ∨ name = "join".toList) ∧ args = [] then none
      else
        let values ← args.mapM (formatArgValue sub)
        let params ← variadicParams name param values
        withBlockWhitespace tokens (name ++ "(".toList ++ params ++ ")".toList)
    | _ => none

/-- A call of a builtin with one argument for each of its parameters. -/
def tryRewriteNamed (paramsOf : PositionalSyntax → Option (List String)) (tokens : List Token) :
    Option Text :=
  let sig := significantTokens tokens
  if isNamedArgCall sig then none
  else
    match sig with
    | .ident name :: args => do
      let params ← paramsOf (← lookupPositional name)
      if args.length ≠ params.length then none
      else
        let values ← args.mapM (formatArgValue sub)
        let named := List.zipWith (fun p v => p.toList ++ '=' :: v) params values
        withBlockWhitespace tokens (name ++ "(".toList ++ joinTexts ", " named ++ ")".toList)
    | _ => none

def tryRewriteStandalone : List Token → Option Text :=
  tryRewriteNamed sub fun spec => some spec.standaloneParams

/-- A builtin without piped parameters has no filter form. -/
def tryRewriteFilter : List Token → Option Text :=
  tryRewriteNamed sub fun spec => if spec.pipedParams = [] then none else some spec.pipedParams

def renderToken : Token → Text
  | .subExpr s => sub s
  | t => tokenToStr t

def Token.isSubExpr : Token → Bool
  | .subExpr _ => true
  | _ => false

def rewriteSubexprsOnly (tokens : List Token) : Option Text :=
  if tokens.any (·.isSubExpr) then some (tokens.flatMap (renderToken sub)) else none

def rewriteHeadSegment (tokens : List Token) : Option Text :=
  tryRewriteSlice sub tokens <|> tryRewriteVariadic sub tokens <|>
    tryRewriteStandalone sub tokens <|> rewriteSubexprsOnly sub tokens

def rewriteFilterSegment (tokens : List Token) : Option Text :=
  tryRewriteFilter sub tokens <|> rewriteSubexprsOnly sub tokens

def pipeSegments (tokens : List Token) : List (List Token) := tokens.splitOn .pipe

/-- The segments of a pipeline with what each becomes. -/
def rewriteSegments : List (List Token) → List (List Token × Option Text)
  | [] => []
  | head :: filters =>
    (head, rewriteHeadSegment sub head) :: filters.map fun f => (f, rewriteFilterSegment sub f)

def rewritePipeline (segments : List (List Token)) : Option Text :=
  let rewritten := rewriteSegments sub segments
  if rewritten.any (·.2.isSome) then
    some (joinTexts "|" (rewritten.map fun s => s.2.getD (textOf s.1)))
  else none

def rewriteExprTokensAt (tokens : List Token) : Option Text :=
  match pipeSegments tokens with
  | [only] => rewriteHeadSegment sub only
  | segments => rewritePipeline sub segments

end Expression

/-- The text between the delimiters of a group. -/
def groupInner (text : Text) : Text := (text.drop 1).dropLast

/-- Rewrite inside a group, with so many levels of nesting left. -/
def rewriteSubexpr : ℕ → Text → Text
  | 0, text => text
  | levels + 1, text =>
    match rewriteExprTokensAt (rewriteSubexpr levels) (tokenizeBlock (groupInner text)) with
    | some rewritten => "(".toList ++ rewritten ++ ")".toList
    | none => text

def rewriteExprTokens (tokens : List Token) : Option Text :=
  rewriteExprTokensAt (rewriteSubexpr maxExprNesting) tokens

/-! ### Blocks -/

def indexAfter (tokens : List Token) (start : ℕ) (p : Token → Bool) : Option ℕ :=
  ((tokens.drop start).findIdx? p).map (start + · + 1)

/-- Where the value expression of a tag begins. -/
def controlExprStart (tokens : List Token) : Option ℕ :=
  match significantTokens tokens with
  | .ident keyword :: _ => do
    let keywordEnd ← indexAfter tokens 0 (· == .ident keyword)
    if keyword = "if".toList ∨ keyword = "elif".toList then some keywordEnd
    else if keyword = "for".toList then
      indexAfter tokens keywordEnd (· == .ident "in".toList)
    else if keyword = "set".toList ∨ keyword = "set_global".toList then
      indexAfter tokens keywordEnd (· == .other "=".toList)
    else none
  | _ => none

def tryRewriteControlBlock (inner : Text) : Option Text := do
  let tokens := tokenizeBlock inner
  let start ← controlExprStart tokens
  let rewritten ← rewriteExprTokens (tokens.drop start)
  textOf (tokens.take start) ++ rewritten

def rewritePositional (block : Text) : Text :=
  let (opened, inner, closed) := extractBlockParts block
  let rewritten :=
    if "\x7b%".toList.isPrefixOf block then tryRewriteControlBlock inner
    else rewriteExprTokens (tokenizeBlock inner)
  match rewritten with
  | some rewritten => opened ++ rewritten ++ closed
  | none => block

def preprocessPositionalSyntax (template : Text) : Text :=
  replaceLiveBlocks template rewritePositional

end Anodizer.Template
