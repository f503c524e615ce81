import Anodizer.Template.GoShape

/-! # Tera syntax

The expressions and tags of Tera that templates are written in. The passes
that read a block character by character leave them alone.
-/

namespace Anodizer.Template

open Regex

def Blank (t : Text) : Prop := ∀ c ∈ t, c ∈ [' ', '\t', '\n', '\r']

instance (t : Text) : Decidable (Blank t) := List.decidableBAll _ t

def Blank1 (t : Text) : Prop := t ≠ [] ∧ Blank t

inductive IsName : Text → Prop
  | mk {c : Char} {cs : Text} (hc : c.isAlpha || c == '_') (hcs : ∀ d ∈ cs, isWordChar d) :
      IsName (c :: cs)

/-- A name followed by field names. -/
inductive IsPath : Text → Prop
  | name {n : Text} (hn : IsName n) : IsPath n
  | field {p n : Text} (hp : IsPath p) (hn : IsName n) : IsPath (p ++ '.' :: n)

def IsDigits (t : Text) : Prop := t ≠ [] ∧ ∀ c ∈ t, c.isDigit

inductive IsNumber : Text → Prop
  | integer {t : Text} (ht : IsDigits t) : IsNumber t
  | decimal {s t : Text} (hs : IsDigits s) (ht : IsDigits t) : IsNumber (s ++ '.' :: t)

inductive Category
  | expr
  | call
  | items
  | args

def logicOps : List String := ["and", "or"]

def compareOps : List String := ["==", "!=", "<", ">", "<=", ">="]

/-- The texts of Tera expressions, and of the calls, items and named arguments inside them. -/
inductive Tera : Category → Text → Prop
  | path {p : Text} (hp : IsPath p) : Tera .expr p
  | number {n : Text} (hn : IsNumber n) : Tera .expr n
  | negative {n : Text} (hn : IsNumber n) : Tera .expr ('-' :: n)
  | literal {d : Char} {body : Text} (hd : isStringDelim d) (hbody : d ∉ body) :
      Tera .expr (d :: (body ++ [d]))
  | emptyArray {w : Text} (hw : Blank w) : Tera .expr ('[' :: (w ++ [']']))
  | array {is : Text} (his : Tera .items is) : Tera .expr ('[' :: (is ++ [']']))
  | group {w e w' : Text} (hw : Blank w) (he : Tera .expr e) (hw' : Blank w') :
      Tera .expr ('(' :: (w ++ e ++ w' ++ [')']))
  | negation {w e : Text} (hw : Blank1 w) (he : Tera .expr e) :
      Tera .expr ("not".toList ++ w ++ e)
  | logic {op : String} {l w w' r : Text} (hop : op ∈ logicOps) (hl : Tera .expr l)
      (hw : Blank1 w) (hw' : Blank1 w') (hr : Tera .expr r) :
      Tera .expr (l ++ w ++ op.toList ++ w' ++ r)
  | compare {op : String} {l w w' r : Text} (hop : op ∈ compareOps) (hl : Tera .expr l)
      (hw : Blank w) (hw' : Blank w') (hr : Tera .expr r) :
      Tera .expr (l ++ w ++ op.toList ++ w' ++ r)
  | filter {e w w' n : Text} (he : Tera .expr e) (hw : Blank w) (hw' : Blank w')
      (hn : IsName n) : Tera .expr (e ++ w ++ ['|'] ++ w' ++ n)
  | filterCall {e w w' c : Text} (he : Tera .expr e) (hw : Blank w) (hw' : Blank w')
      (hc : Tera .call c) : Tera .expr (e ++ w ++ ['|'] ++ w' ++ c)
  | ofCall {c : Text} (hc : Tera .call c) : Tera .expr c
  | emptyCall {n w : Text} (hn : IsName n) (hw : Blank w) : Tera .call (n ++ '(' :: (w ++ [')']))
  | call {n as : Text} (hn : IsName n) (has : Tera .args as) :
      Tera .call (n ++ '(' :: (as ++ [')']))
  | item {w e w' : Text} (hw : Blank w) (he : Tera .expr e) (hw' : Blank w') :
      Tera .items (w ++ e ++ w')
  | moreItems {is w e w' : Text} (his : Tera .items is) (hw : Blank w) (he : Tera .expr e)
      (hw' : Blank w') : Tera .items (is ++ [','] ++ w ++ e ++ w')
  | arg {w n w₁ w₂ e w' : Text} (hw : Blank w) (hn : IsName n) (hw₁ : Blank w₁)
      (hw₂ : Blank w₂) (he : Tera .expr e) (hw' : Blank w') :
      Tera .args (w ++ n ++ w₁ ++ ['='] ++ w₂ ++ e ++ w')
  | moreArgs {as w n w₁ w₂ e w' : Text} (has : Tera .args as) (hw : Blank w) (hn : IsName n)
      (hw₁ : Blank w₁) (hw₂ : Blank w₂) (he : Tera .expr e) (hw' : Blank w') :
      Tera .args (as ++ [','] ++ w ++ n ++ w₁ ++ ['='] ++ w₂ ++ e ++ w')

/-- The inner texts of Tera tags. -/
inductive TeraTag : Text → Prop
  | condition {keyword : String} {w w₁ e w' : Text} (hk : keyword ∈ ["if", "elif"])
      (hw : Blank w) (hw₁ : Blank1 w₁) (he : Tera .expr e) (hw' : Blank w') :
      TeraTag (w ++ keyword.toList ++ w₁ ++ e ++ w')
  | bare {keyword : String} {w w' : Text} (hk : keyword ∈ ["else", "endif", "endfor"])
      (hw : Blank w) (hw' : Blank w') : TeraTag (w ++ keyword.toList ++ w')
  | loop {w w₁ n w₂ w₃ e w' : Text} (hw : Blank w) (hw₁ : Blank1 w₁) (hn : IsName n)
      (hw₂ : Blank1 w₂) (hw₃ : Blank1 w₃) (he : Tera .expr e) (hw' : Blank w') :
      TeraTag (w ++ "for".toList ++ w₁ ++ n ++ w₂ ++ "in".toList ++ w₃ ++ e ++ w')
  | loopPair {w w₁ k w₂ w₃ n w₄ w₅ e w' : Text} (hw : Blank w) (hw₁ : Blank1 w₁)
      (hk : IsName k) (hw₂ : Blank w₂) (hw₃ : Blank w₃) (hn : IsName n) (hw₄ : Blank1 w₄)
      (hw₅ : Blank1 w₅) (he : Tera .expr e) (hw' : Blank w') :
      TeraTag (w ++ "for".toList ++ w₁ ++ k ++ w₂ ++ [','] ++ w₃ ++ n ++ w₄ ++ "in".toList ++
        w₅ ++ e ++ w')
  | assign {w w₁ n w₂ w₃ e w' : Text} (hw : Blank w) (hw₁ : Blank1 w₁) (hn : IsName n)
      (hw₂ : Blank w₂) (hw₃ : Blank w₃) (he : Tera .expr e) (hw' : Blank w') :
      TeraTag (w ++ "set".toList ++ w₁ ++ n ++ w₂ ++ ['='] ++ w₃ ++ e ++ w')

/-- The inner texts of expression blocks. -/
def TeraBody (inner : Text) : Prop :=
  ∃ w e w', inner = w ++ e ++ w' ∧ Blank w ∧ Tera .expr e ∧ Blank w'

/-- A block in Tera syntax. -/
inductive TeraBlock (block : Text) : Prop
  | expression (ho : (extractBlockParts block).1 ∈ ["\x7b\x7b".toList, "\x7b\x7b-".toList])
      (hc : (extractBlockParts block).2.2 ∈ ["\x7d\x7d".toList, "-\x7d\x7d".toList])
      (hinner : TeraBody (blockInner block))
  | tag (ho : (extractBlockParts block).1 ∈ ["\x7b%".toList, "\x7b%-".toList])
      (hc : (extractBlockParts block).2.2 ∈ ["%\x7d".toList, "-%\x7d".toList])
      (hinner : TeraTag (blockInner block))

/-- A template whose live blocks are in Tera syntax. -/
def TeraNative (template : Text) : Prop := ∀ b ∈ liveBlocks template, TeraBlock b

end Anodizer.Template
