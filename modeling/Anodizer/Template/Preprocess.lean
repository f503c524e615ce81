import Anodizer.Template.Positional

/-! # The preprocessor

Method calls become filters, and all passes run one after the other.
-/

namespace Anodizer.Template

open Regex

variable (u : CharTables)

/-! ### Method calls -/

def nowFormatRe : Re := .cat [.lit "Now.Format", spaces1, .group "1" rawStringRe]

def targetVariantRe : Re :=
  .cat [.wordBoundary u.word, .lit "targetVariant", spaces1, .char (fun c => c == '.' || c == '$'),
    .group "1" (.alt space (.alt (.lit ")") (.alt (.lit "|") .textEnd)))]

def targetVariantPipedRe : Re :=
  .cat [.group "1" (.alt .textStart (.alt space (.lit "("))), .char (fun c => c == '.' || c == '$'),
    spaces, .lit "|", spaces, .lit "targetVariant", .wordBoundary u.word]

def nowFilter (m : Found) : Text := "Now | now_format(format=".toList ++ m.get "1" ++ ")".toList

def rewriteMethods (inner : Text) : Text :=
  let inner := replaceAll (targetVariantPipedRe u)
    (fun m => m.get "1" ++ "targetVariant()".toList) inner
  let inner := replaceAll (targetVariantRe u) (fun m => "targetVariant()".toList ++ m.get "1") inner
  replaceAll nowFormatRe nowFilter inner

def rewriteMethodCalls (block : Text) : Text :=
  if !contains block "Now.Format".toList && !contains block "targetVariant".toList then block
  else onInner (fun _ => rewriteMethods u) block

def preprocessMethodCalls (template : Text) : Text :=
  replaceLiveBlocks template (rewriteMethodCalls u)

/-! ### The passes -/

/-- The passes in the order they run. -/
def passes : List (Text → Text) :=
  [preprocessGoBlocks u, preprocessStripDots, preprocessListSubexpr, preprocessGoBuiltins u,
    preprocessMapSyntax, preprocessPositionalSyntax, preprocessMethodCalls u,
    rewriteNumericIndexSegments]

def preprocess (template : Text) : Text := (passes u).foldl (fun t pass => pass t) template

theorem preprocess_id {template : Text} (h : ∀ pass ∈ passes u, pass template = template) :
    preprocess u template = template := by
  unfold preprocess
  generalize passes u = ps at h
  induction ps with
  | nil => rfl
  | cons p ps ih =>
    rw [List.foldl_cons, h p (by simp)]
    exact ih fun pass hp => h pass (List.mem_cons_of_mem _ hp)

end Anodizer.Template
