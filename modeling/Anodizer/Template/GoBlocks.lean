import Anodizer.Template.Blocks

/-! # Go block actions

The first pass turns the Go actions `if`, `else`, `range`, `with`, `end` and
`:=` into Tera tags. A stack says which closing tag an `end` becomes.
-/

namespace Anodizer.Template

open Regex

variable (u : CharTables)

/-! ### The actions -/

def wordRe : Re := .plus true (.char u.word)

def body1 : Re := .plus false anyChar

def goIfRe : Re :=
  .cat [.lit "\x7b\x7b", .group "1" trimMark, spaces, .lit "if", spaces1, .group "2" body1, spaces,
    .group "3" trimMark, .lit "\x7d\x7d"]

def goElseIfRe : Re :=
  .cat [.lit "\x7b\x7b", .group "1" trimMark, spaces, .lit "else", spaces1, .lit "if", spaces1,
    .group "2" body1, spaces, .group "3" trimMark, .lit "\x7d\x7d"]

/-- An action that is one keyword. -/
def goKeywordRe (keyword : String) : Re :=
  .cat [.lit "\x7b\x7b", .group "1" trimMark, spaces, .lit keyword, spaces, .group "2" trimMark,
    .lit "\x7d\x7d"]

def goElseRe : Re := goKeywordRe "else"

def goEndRe : Re := goKeywordRe "end"

/-- The bare dot. -/
def goDotRe : Re := goKeywordRe "."

def goRangeKvRe : Re :=
  .cat [.lit "\x7b\x7b", .group "1" trimMark, spaces, .lit "range", spaces1, .lit "$",
    .group "2" (wordRe u), spaces, .lit ",", spaces, .lit "$", .group "3" (wordRe u), spaces,
    .lit ":=", spaces, .group "4" body1, spaces, .group "5" trimMark, .lit "\x7d\x7d"]

def goRangeVRe : Re :=
  .cat [.lit "\x7b\x7b", .group "1" trimMark, spaces, .lit "range", spaces1,
    .opt (.cat [.lit "$", .group "2" (wordRe u), spaces, .lit ":=", spaces]), .group "3" body1,
    spaces, .group "4" trimMark, .lit "\x7d\x7d"]

def goWithRe : Re :=
  .cat [.lit "\x7b\x7b", .group "1" trimMark, spaces, .lit "with", spaces1, .group "2" body1, spaces,
    .group "3" trimMark, .lit "\x7d\x7d"]

def goVarAssignRe : Re :=
  .cat [.lit "\x7b\x7b", .group "1" trimMark, spaces, .lit "$", .group "2" (wordRe u), spaces,
    .lit ":=", spaces, .group "3" body1, spaces, .group "4" trimMark, .lit "\x7d\x7d"]

/-! ### The conversion -/

/-- A Tera tag with its trim markers. -/
def teraBlock (ltrim content rtrim : Text) : Text :=
  let l := if ltrim = ['-'] then "\x7b%-".toList else "\x7b%".toList
  let r := if rtrim = ['-'] then "-%\x7d".toList else "%\x7d".toList
  l ++ [' '] ++ content ++ [' '] ++ r

inductive BlockKind
  | ifBlock
  | forBlock
  | withBlock
  deriving DecidableEq, Repr

/-- An open block and the value `.` stands for inside it. -/
structure OpenBlock where
  kind : BlockKind
  contextVar : Option Text
  deriving DecidableEq, Repr

/-- The tag an `end` becomes. -/
def endTag : List OpenBlock → Text
  | ⟨.forBlock, _⟩ :: _ => "endfor".toList
  | _ => "endif".toList

/-- The value `.` stands for. -/
def dotValue (stack : List OpenBlock) : Text :=
  (stack.findSome? (·.contextVar)).getD ['.']

def convertDot (stack : List OpenBlock) (m : Found) : Text :=
  let l := if m.get "1" = ['-'] then "\x7b\x7b-".toList else "\x7b\x7b".toList
  let r := if m.get "2" = ['-'] then "-\x7d\x7d".toList else "\x7d\x7d".toList
  l ++ [' '] ++ dotValue stack ++ [' '] ++ r

/-- The inner text does not read as one of the other actions. -/
def plainAssign (remaining : Text) : Bool :=
  let inner := trimStart ((remaining.drop 2).dropWhile (· == '-'))
  !"if ".toList.isPrefixOf inner && !"else".toList.isPrefixOf inner &&
    !"end".toList.isPrefixOf inner && !"range ".toList.isPrefixOf inner &&
    !"with ".toList.isPrefixOf inner

def assignMatch (remaining : Text) : Option Found :=
  (matchStart (goVarAssignRe u) remaining).filter fun _ => plainAssign remaining

/-- What the action at the start of `remaining` becomes, the stack after it, and its match. -/
def convertAction (stack : List OpenBlock) (remaining : Text) :
    Option (Text × List OpenBlock × Found) :=
  (matchStart goDotRe remaining).map (fun m => (convertDot stack m, stack, m)) <|>
  (assignMatch u remaining).map (fun m =>
    (teraBlock (m.get "1") ("set ".toList ++ m.get "2" ++ " = ".toList ++ m.get "3") (m.get "4"),
      stack, m)) <|>
  (matchStart goElseIfRe remaining).map (fun m =>
    (teraBlock (m.get "1") ("elif ".toList ++ m.get "2") (m.get "3"), stack, m)) <|>
  (matchStart goIfRe remaining).map (fun m =>
    (teraBlock (m.get "1") ("if ".toList ++ m.get "2") (m.get "3"),
      ⟨.ifBlock, none⟩ :: stack, m)) <|>
  (matchStart goElseRe remaining).map (fun m =>
    (teraBlock (m.get "1") "else".toList (m.get "2"), stack, m)) <|>
  (matchStart goEndRe remaining).map (fun m =>
    (teraBlock (m.get "1") (endTag stack) (m.get "2"), stack.tail, m)) <|>
  (matchStart (goRangeKvRe u) remaining).map (fun m =>
    (teraBlock (m.get "1")
      ("for ".toList ++ m.get "2" ++ ", ".toList ++ m.get "3" ++ " in ".toList ++ m.get "4")
      (m.get "5"), ⟨.forBlock, some (m.get "3")⟩ :: stack, m)) <|>
  (matchStart (goRangeVRe u) remaining).map (fun m =>
    let loopVar := (m.get? "2").getD "val".toList
    (teraBlock (m.get "1") ("for ".toList ++ loopVar ++ " in ".toList ++ m.get "3") (m.get "4"),
      ⟨.forBlock, some loopVar⟩ :: stack, m)) <|>
  (matchStart goWithRe remaining).map (fun m =>
    (teraBlock (m.get "1") ("if ".toList ++ m.get "2") (m.get "3"),
      ⟨.withBlock, some (m.get "2")⟩ :: stack, m))

/-- The scan is at a position of the template, with the blocks open there. -/
structure GoState where
  pos : ℕ
  stack : List OpenBlock

def goStep (raw : List Span) (s : GoState) (c : Char) (cs : Text) :
    Scan.Step GoState Char Char :=
  match rawSpanAt raw s.pos with
  | some span =>
    let skipped := span.stop - s.pos
    ⟨(c :: cs).take skipped, { s with pos := span.stop }, (c :: cs).drop skipped⟩
  | none =>
    if "\x7b\x7b".toList.isPrefixOf (c :: cs) then
      match convertAction u s.stack (c :: cs) with
      | some (tag, stack, m) => ⟨tag, ⟨s.pos + m.text.length, stack⟩, m.rest⟩
      | none => ⟨[c], { s with pos := s.pos + 1 }, cs⟩
    else ⟨[c], { s with pos := s.pos + 1 }, cs⟩

/-- The conversion before the `$` of Go variables is stripped. -/
def convertGoBlocks (template : Text) : Text :=
  Scan.scan (goStep u (rawSpans template)) ⟨0, []⟩ template

end Anodizer.Template
