import Anodizer.Template.StringLit

/-! # Blocks of a template

Every pass that rewrites blocks leaves raw spans and the text between blocks
alone.
-/

namespace Anodizer.Template

open Regex

/-- One expression or tag block. -/
def goBlockRe : Re :=
  .alt (.cat [.lit "\x7b\x7b", .star false anyChar, .lit "\x7d\x7d"])
    (.cat [.lit "\x7b%", .star false anyChar, .lit "%\x7d"])

/-- The open delimiter, the inner text and the close delimiter of a block. -/
def extractBlockParts (block : Text) : Text × Text × Text :=
  let openLen :=
    if "\x7b\x7b-".toList.isPrefixOf block || "\x7b%-".toList.isPrefixOf block then 3 else 2
  let closeLen :=
    if "-\x7d\x7d".toList.isSuffixOf block || "-%\x7d".toList.isSuffixOf block then 3 else 2
  let closeAt := block.length - closeLen
  (block.take openLen, (block.take closeAt).drop openLen, block.drop closeAt)

/-- The inner text of a block. -/
def blockInner (block : Text) : Text := (extractBlockParts block).2.1

/-- A range of positions of a template. -/
structure Span where
  start : ℕ
  stop : ℕ
  deriving DecidableEq, Repr

/-- The pieces of a searched template with the positions they start at. -/
def withOffsets : ℕ → List Piece → List (ℕ × Piece)
  | _, [] => []
  | at_, p :: ps => (at_, p) :: withOffsets (at_ + p.text.length) ps

def blockPieces (template : Text) : List (ℕ × Piece) :=
  withOffsets 0 (pieces goBlockRe template)

/-- A tag opens a span when none is open, and closes the open one. -/
def noteTag (acc : Option ℕ × List Span) : ℕ × Piece → Option ℕ × List Span
  | (_, .plain _) => acc
  | (start, .hit m) =>
    if !"\x7b%".toList.isPrefixOf m.text then acc
    else
      let tag := trim (blockInner m.text)
      if tag = "raw".toList && acc.1.isNone then (some start, acc.2)
      else if tag = "endraw".toList then
        match acc.1 with
        | some opened => (none, acc.2 ++ [⟨opened, start + m.text.length⟩])
        | none => acc
      else acc

/-- The spans marked raw, their delimiters included. An open span covers the rest. -/
def rawSpans (template : Text) : List Span :=
  if !contains template "raw".toList then []
  else
    let (opened, spans) := (blockPieces template).foldl noteTag (none, [])
    match opened with
    | some start => spans ++ [⟨start, template.length⟩]
    | none => spans

/-- The raw span that covers a position. -/
def rawSpanAt (spans : List Span) (pos : ℕ) : Option Span :=
  spans.find? fun s => s.start ≤ pos && pos < s.stop

/-- Rewrite every live block. -/
def replaceLiveBlocks (template : Text) (rewrite : Text → Text) : Text :=
  let spans := rawSpans template
  (blockPieces template).flatMap fun
    | (_, .plain c) => [c]
    | (start, .hit m) => if (rawSpanAt spans start).isSome then m.text else rewrite m.text

/-- The blocks outside raw spans. -/
def liveBlocks (template : Text) : List Text :=
  let spans := rawSpans template
  (blockPieces template).filterMap fun
    | (_, .plain _) => none
    | (start, .hit m) => if (rawSpanAt spans start).isSome then none else some m.text

theorem text_withOffsets (ps : List Piece) (n : ℕ) :
    (withOffsets n ps).flatMap (fun p => p.2.text) = ps.flatMap Piece.text := by
  induction ps generalizing n with
  | nil => rfl
  | cons p ps ih => rw [withOffsets, List.flatMap_cons, List.flatMap_cons, ih]

/-- The pieces of a template make it up. -/
theorem blockPieces_text (template : Text) :
    (blockPieces template).flatMap (fun p => p.2.text) = template :=
  (text_withOffsets _ _).trans (pieces_text _ _)

/-- A rewrite that keeps every live block keeps the template. -/
theorem replaceLiveBlocks_id {template : Text} {rewrite : Text → Text}
    (h : ∀ b ∈ liveBlocks template, rewrite b = b) :
    replaceLiveBlocks template rewrite = template := by
  calc replaceLiveBlocks template rewrite
      = (blockPieces template).flatMap (fun p => p.2.text) := by
        apply List.flatMap_congr
        rintro ⟨start, p⟩ hp
        cases p with
        | plain c => rfl
        | hit m =>
          simp only [Piece.text]
          split
          · rfl
          · next hlive =>
            apply h
            exact List.mem_filterMap.mpr ⟨_, hp, by simp only [if_neg hlive]⟩
    _ = template := blockPieces_text template

end Anodizer.Template
