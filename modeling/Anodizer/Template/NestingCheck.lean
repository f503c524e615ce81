import Anodizer.Lib.Scan
import Anodizer.Lib.Utf8
import Anodizer.Template.GoShape

/-! # The check of the nesting

Before any pass, the parentheses of each live block are counted. A block whose groups nest too
deep is refused, so that no group is left alone for its depth.
-/

namespace Anodizer.Template

/-! ### The scan of a block -/

inductive ParenImbalance
  | unclosed (n : ℕ)
  | unmatchedClose
  | unterminatedString
  deriving DecidableEq, Repr

structure ParenScan where
  imbalance : Option ParenImbalance
  maxDepth : ℕ
  deriving DecidableEq, Repr

/-- The scan of a text that is `depth` parentheses deep, in at most so many steps. -/
def scanFrom : ℕ → ℕ → ℕ → Text → ParenScan
  | 0, depth, maxDepth, _ => ⟨if 0 < depth then some (.unclosed depth) else none, maxDepth⟩
  | _ + 1, depth, maxDepth, [] => ⟨if 0 < depth then some (.unclosed depth) else none, maxDepth⟩
  | n + 1, depth, maxDepth, c :: cs =>
    if c = '(' then scanFrom n (depth + 1) (max maxDepth (depth + 1)) cs
    else if c = ')' then
      match depth with
      | 0 => ⟨some .unmatchedClose, maxDepth⟩
      | d + 1 => scanFrom n d maxDepth cs
    else if isStringDelim c then
      if (copyRawString c cs).1.getLast? = some c then
        scanFrom n depth maxDepth (rawStringEnd c cs)
      else ⟨some .unterminatedString, maxDepth⟩
    else scanFrom n depth maxDepth cs

def scanParens (inner : Text) : ParenScan := scanFrom inner.length 0 0 inner

/-! ### The check -/

def maxBlockSnippet : ℕ := 160

/-- The text up to the last end of a character at or before a byte. -/
def snippet (block : Text) : ℕ → Text
  | 0 => []
  | n + 1 => (Utf8.cutAt block (n + 1)).getD (snippet block n)

def quoteBlock (block : Text) : Text :=
  if (Utf8.encode block).length ≤ maxBlockSnippet then "`".toList ++ block ++ "`".toList
  else "`".toList ++ snippet block maxBlockSnippet ++ "…`".toList

def parenHint : Text :=
  ("A sub-expression argument must open and close inside the same block — " ++
    "for example `trimprefix (base Path) \"v\"`.").toList

def ParenImbalance.detail : ParenImbalance → Text
  | .unclosed n => Nat.toDigits 10 n ++ " unclosed `(`. ".toList ++ parenHint
  | .unmatchedClose => "a `)` with no matching `(`. ".toList ++ parenHint
  | .unterminatedString =>
    ("an unterminated string literal, so the rest of the block — including any `)` — " ++
      "reads as string contents. A literal closes at the next matching quote; " ++
      "a backslash does not escape it.").toList

def checkBlock (block : Text) : Except Text Unit :=
  let scan := scanParens (blockInner block)
  match scan.imbalance with
  | some imbalance => .error ("unbalanced expression in template ".toList ++ quoteBlock block ++
      ": ".toList ++ imbalance.detail)
  | none =>
    if maxExprNesting < scan.maxDepth then
      .error ("over-nested expression in template ".toList ++ quoteBlock block ++
        ": parentheses nest ".toList ++ Nat.toDigits 10 scan.maxDepth ++
        " deep, past the limit of ".toList ++ Nat.toDigits 10 maxExprNesting ++
        (". Every group is rewritten by descending into it, so a deeper nest exhausts memory or " ++
          "the stack before the engine sees the block. Bind an intermediate result to a variable " ++
          "and nest fewer calls.").toList)
    else .ok ()

def checkBlockExpressions (template : Text) : Except Text Unit :=
  (liveBlocks template).forM checkBlock

/-! ### The positional pass with a rewrite of its own past the cap -/

section Past

variable (past : Text → Text)

/-- Rewrite inside a group, with so many levels of nesting left, and as `past` does without any. -/
def rewriteSubexprPast : ℕ → Text → Text
  | 0, text => past text
  | levels + 1, text =>
    match rewriteExprTokensAt (rewriteSubexprPast levels) (tokenizeBlock (groupInner text)) with
    | some rewritten => "(".toList ++ rewritten ++ ")".toList
    | none => text

def rewriteExprTokensPast (tokens : List Token) : Option Text :=
  rewriteExprTokensAt (rewriteSubexprPast past maxExprNesting) tokens

def tryRewriteControlBlockPast (inner : Text) : Option Text := do
  let tokens := tokenizeBlock inner
  let start ← controlExprStart tokens
  let rewritten ← rewriteExprTokensPast past (tokens.drop start)
  textOf (tokens.take start) ++ rewritten

def rewritePositionalPast (block : Text) : Text :=
  let (opened, inner, closed) := extractBlockParts block
  let rewritten :=
    if "\x7b%".toList.isPrefixOf block then tryRewriteControlBlockPast past inner
    else rewriteExprTokensPast past (tokenizeBlock inner)
  match rewritten with
  | some rewritten => opened ++ rewritten ++ closed
  | none => block

def preprocessPositionalPast (template : Text) : Text :=
  replaceLiveBlocks template (rewritePositionalPast past)

end Past

/-- The text of a group that is rewritten inside, if it is. -/
def regroup (text : Text) (rewritten : Option Text) : Text :=
  rewritten.elim text fun rewritten => "(".toList ++ rewritten ++ ")".toList

theorem rewriteSubexprPast_succ (past : Text → Text) (levels : ℕ) (text : Text) :
    rewriteSubexprPast past (levels + 1) text = regroup text
      (rewriteExprTokensAt (rewriteSubexprPast past levels) (tokenizeBlock (groupInner text))) := by
  rw [rewriteSubexprPast]
  cases rewriteExprTokensAt (rewriteSubexprPast past levels) (tokenizeBlock (groupInner text)) <;> rfl

theorem rewriteSubexpr_succ (levels : ℕ) (text : Text) : rewriteSubexpr (levels + 1) text =
    regroup text
      (rewriteExprTokensAt (rewriteSubexpr levels) (tokenizeBlock (groupInner text))) := by
  rw [rewriteSubexpr]
  cases rewriteExprTokensAt (rewriteSubexpr levels) (tokenizeBlock (groupInner text)) <;> rfl

theorem rewriteSubexprPast_id : rewriteSubexprPast id = rewriteSubexpr := by
  ext1 levels
  induction levels with
  | zero => rfl
  | succ levels ih =>
    ext1 text
    rw [rewriteSubexprPast_succ, rewriteSubexpr_succ, ih]

/-- A block is rewritten alike when its expression is. -/
theorem rewritePositionalPast_congr {past : Text → Text} {block : Text}
    (hcontrol : tryRewriteControlBlockPast past (blockInner block) =
      tryRewriteControlBlock (blockInner block))
    (hexpr : rewriteExprTokensPast past (tokenizeBlock (blockInner block)) =
      rewriteExprTokens (tokenizeBlock (blockInner block))) :
    rewritePositionalPast past block = rewritePositional block := by
  have hrewritten : (if "\x7b%".toList.isPrefixOf block then
        tryRewriteControlBlockPast past (blockInner block)
      else rewriteExprTokensPast past (tokenizeBlock (blockInner block))) =
      if "\x7b%".toList.isPrefixOf block then tryRewriteControlBlock (blockInner block)
      else rewriteExprTokens (tokenizeBlock (blockInner block)) := by rw [hcontrol, hexpr]
  exact congrArg (fun r : Option Text => match r with
    | some rewritten => (extractBlockParts block).1 ++ rewritten ++ (extractBlockParts block).2.2
    | none => block) hrewritten

/-- A cap that leaves groups alone is that of the pass. -/
theorem preprocessPositionalPast_id : preprocessPositionalPast id = preprocessPositionalSyntax := by
  have hexpr : rewriteExprTokensPast id = rewriteExprTokens := by
    ext1 tokens
    rw [rewriteExprTokensPast, rewriteSubexprPast_id, rewriteExprTokens]
  have hcontrol : tryRewriteControlBlockPast id = tryRewriteControlBlock := by
    ext1 inner
    rw [tryRewriteControlBlockPast, tryRewriteControlBlock, hexpr]
  have hblock : rewritePositionalPast id = rewritePositional := by
    ext1 block
    exact rewritePositionalPast_congr (congrFun hcontrol _) (congrFun hexpr _)
  ext1 template
  rw [preprocessPositionalPast, hblock, preprocessPositionalSyntax]

/-! ### The levels of the groups -/

/-- Each opening parenthesis emits the level of its group. -/
def levelStep (depth : ℕ) (c : Char) (cs : Text) : Scan.Step ℕ Char ℕ :=
  if c = '(' then ⟨[depth + 1], depth + 1, cs⟩
  else if c = ')' then ⟨[], depth - 1, cs⟩
  else if isStringDelim c then ⟨[], depth, rawStringEnd c cs⟩
  else ⟨[], depth, cs⟩

/-- The levels of the groups of a text that is itself so deep. -/
def levels (depth : ℕ) (text : Text) : List ℕ := Scan.scan levelStep depth text

variable {c : Char} {cs text body rest : Text} {d e k n : ℕ}

theorem levelStep_shrinks : Scan.Shrinks levelStep := by
  intro d c cs
  rw [levelStep]
  split_ifs
  · exact Nat.le_refl _
  · exact Nat.le_refl _
  · exact length_rawStringEnd c cs
  · exact Nat.le_refl _

theorem levels_cons (d : ℕ) (c : Char) (cs : Text) : levels d (c :: cs) =
    (levelStep d c cs).emit ++ levels (levelStep d c cs).state (levelStep d c cs).rest :=
  Scan.scan_cons levelStep_shrinks

theorem levels_open (d : ℕ) (cs : Text) : levels d ('(' :: cs) = (d + 1) :: levels (d + 1) cs :=
  levels_cons d '(' cs

theorem levels_close (d : ℕ) (cs : Text) : levels d (')' :: cs) = levels (d - 1) cs :=
  levels_cons d ')' cs

theorem levels_literal (ho : c ≠ '(') (hc : c ≠ ')') (h : isStringDelim c) (d : ℕ) (cs : Text) :
    levels d (c :: cs) = levels d (rawStringEnd c cs) := by
  rw [levels_cons, levelStep, if_neg ho, if_neg hc, if_pos h]
  rfl

theorem levels_other (ho : c ≠ '(') (hc : c ≠ ')') (h : ¬ isStringDelim c) (d : ℕ) (cs : Text) :
    levels d (c :: cs) = levels d cs := by
  rw [levels_cons, levelStep, if_neg ho, if_neg hc, if_neg h]
  rfl

/-- Outside of literals, the levels behind a character are among those from it on. -/
theorem exists_levels_subset (h : ¬ isStringDelim c) (d : ℕ) (cs : Text) :
    ∃ d', levels d' cs ⊆ levels d (c :: cs) := by
  have hrest : (levelStep d c cs).rest = cs := by
    rw [levelStep]
    split_ifs <;> rfl
  refine ⟨(levelStep d c cs).state, ?_⟩
  rw [levels_cons, hrest]
  exact List.subset_append_right _ _

theorem exists_levels_append (h : ∀ c ∈ text, ¬ isStringDelim c) (d : ℕ) (rest : Text) :
    ∃ d', levels d' rest ⊆ levels d (text ++ rest) := by
  induction text generalizing d with
  | nil => exact ⟨d, List.Subset.refl _⟩
  | cons c text ih =>
    obtain ⟨hc, htext⟩ := List.forall_mem_cons.mp h
    obtain ⟨d₁, h₁⟩ := exists_levels_subset hc d (text ++ rest)
    obtain ⟨d₂, h₂⟩ := ih htext d₁
    exact ⟨d₂, List.Subset.trans h₂ h₁⟩

/-- An array literal is skipped along with the levels inside of it. -/
theorem exists_levels_arrayRest (n e d : ℕ) (cs : Text) :
    ∃ d', levels d' (arrayRest n e cs) ⊆ levels d cs := by
  induction n generalizing e d cs with
  | zero => exact ⟨d, List.Subset.refl _⟩
  | succ n ih =>
    cases cs with
    | nil => exact ⟨d, List.Subset.refl _⟩
    | cons c cs =>
      have hskip : ∀ e', ¬ isStringDelim c → ∃ d', levels d' (arrayRest n e' cs) ⊆ levels d (c :: cs) := by
        intro e' hc
        obtain ⟨d₁, h₁⟩ := exists_levels_subset hc d cs
        obtain ⟨d₂, h₂⟩ := ih e' d₁ cs
        exact ⟨d₂, List.Subset.trans h₂ h₁⟩
      simp only [arrayRest]
      split_ifs with _ hopen hclose hdelim
      · exact ⟨d, List.Subset.refl _⟩
      · exact hskip _ (by rw [hopen]; decide)
      · exact hskip _ (by rw [hclose]; decide)
      · have hne : c ≠ '(' ∧ c ≠ ')' := by
          constructor <;> rintro rfl <;> exact absurd hdelim (by decide)
        rw [levels_literal hne.1 hne.2 hdelim]
        exact ih _ d _
      · exact hskip _ hdelim

theorem copyRawString_of_notMem (h : c ∉ text) (rest : Text) :
    copyRawString c (text ++ c :: rest) = (text ++ [c], rest) := by
  induction text with
  | nil => simp [copyRawString]
  | cons b text ih =>
    obtain ⟨hb, htext⟩ : c ≠ b ∧ c ∉ text := by simpa using h
    rw [List.cons_append, copyRawString, if_neg (Ne.symm hb), ih htext]
    rfl

/-- A literal that something follows is closed, and so it is with less behind it. -/
theorem rawStringEnd_closed (h : rawStringEnd c cs = body ++ rest) (hne : rest ≠ []) :
    rawStringEnd c ((copyRawString c cs).1 ++ body) = body := by
  rcases copyRawString_cases c cs with ⟨lit, after, hlit, -, hcopy⟩ | hcopy
  · rw [hcopy, List.append_assoc, List.singleton_append, rawStringEnd,
      copyRawString_of_notMem hlit]
  · rw [rawStringEnd, hcopy] at h
    exact absurd (List.append_eq_nil_iff.mp h.symm).2 hne

/-- The levels of a group that closes are those inside of it, as much deeper as it lies, and then
those of the rest. -/
theorem levels_groupRest (h : groupRest n (e + 1) cs = some rest) :
    ∃ body, cs = body ++ ')' :: rest ∧ ∀ d, levels (d + e + 1) cs =
      (levels e body).map (· + (d + 1)) ++ levels d rest := by
  induction n generalizing e cs with
  | zero => simp [groupRest] at h
  | succ n ih =>
    cases cs with
    | nil => simp [groupRest] at h
    | cons c cs =>
      simp only [groupRest] at h
      split_ifs at h with hopen hclose hdelim
      · subst hopen
        obtain ⟨body, rfl, hlevels⟩ := ih h
        refine ⟨'(' :: body, rfl, fun d => ?_⟩
        have hdepth : d + e + 1 + 1 = d + (e + 1) + 1 := by omega
        have hlevel : e + 1 + (d + 1) = d + (e + 1) + 1 := by omega
        rw [levels_open, levels_open, hdepth, hlevels, List.map_cons, List.cons_append, hlevel]
      · subst hclose
        cases e with
        | zero =>
          obtain rfl := Option.some.inj h
          exact ⟨[], rfl, fun d => levels_close _ _⟩
        | succ e =>
          obtain ⟨body, rfl, hlevels⟩ := ih h
          refine ⟨')' :: body, rfl, fun d => ?_⟩
          have hdepth : d + (e + 1) + 1 - 1 = d + e + 1 := by omega
          rw [levels_close, levels_close, hdepth, hlevels, Nat.add_sub_cancel]
      · obtain ⟨body, hbody, hlevels⟩ := ih h
        have hne : c ≠ '(' ∧ c ≠ ')' := ⟨hopen, hclose⟩
        refine ⟨c :: ((copyRawString c cs).1 ++ body), ?_, fun d => ?_⟩
        · rw [List.cons_append, List.append_assoc, ← hbody]
          exact congrArg _ (copyRawString_append c cs).symm
        · rw [levels_literal hne.1 hne.2 hdelim, levels_literal hne.1 hne.2 hdelim, hlevels,
            rawStringEnd_closed hbody (List.cons_ne_nil _ _)]
      · obtain ⟨body, rfl, hlevels⟩ := ih h
        refine ⟨c :: body, rfl, fun d => ?_⟩
        rw [levels_other hopen hclose hdelim, levels_other hopen hclose hdelim, hlevels]

/-! ### The levels of the tokens -/

/-- The groups of a text lie at most so deep, at some depth of the text. -/
def Bounded (k : ℕ) (text : Text) : Prop := ∃ d, ∀ m ∈ levels d text, m ≤ k

theorem Bounded.mono (h : Bounded k text) (hsub : ∀ d, ∃ d', levels d' rest ⊆ levels d text) :
    Bounded k rest := by
  obtain ⟨d, hd⟩ := h
  obtain ⟨d', hd'⟩ := hsub d
  exact ⟨d', fun m hm => hd m (hd' hm)⟩

/-- A group token lies within a bound, and so do the groups inside of it. -/
def Token.Fits (k : ℕ) : Token → Prop
  | .subExpr s => ∃ body, s = '(' :: (body ++ [')']) ∧ 1 ≤ k ∧ ∀ m ∈ levels 0 body, m + 1 ≤ k
  | _ => True

theorem not_isStringDelim_of_isAsciiWhitespace (h : isAsciiWhitespace c) : ¬ isStringDelim c := by
  intro hd
  simp only [isStringDelim, Bool.or_eq_true, beq_iff_eq] at hd
  rcases hd with (rfl | rfl) | rfl <;> exact absurd h (by decide)

theorem not_isStringDelim_of_isPathChar (h : isPathChar c) : ¬ isStringDelim c := by
  intro hd
  simp only [isStringDelim, Bool.or_eq_true, beq_iff_eq] at hd
  rcases hd with (rfl | rfl) | rfl <;> exact absurd h (by decide)

/-- A run of characters outside of literals is skipped. -/
theorem Bounded.dropWhile {p : Char → Bool} (h : Bounded k (c :: cs)) (hc : ¬ isStringDelim c)
    (hp : ∀ c, p c → ¬ isStringDelim c) : Bounded k (cs.dropWhile p) := by
  refine h.mono fun d => ?_
  have hrun : ∀ b ∈ c :: cs.takeWhile p, ¬ isStringDelim b := by
    intro b hb
    rcases List.mem_cons.mp hb with rfl | hb
    · exact hc
    · exact hp b (List.mem_takeWhile_imp hb)
  have hsub := exists_levels_append hrun d (cs.dropWhile p)
  rwa [List.cons_append, List.takeWhile_append_dropWhile] at hsub

theorem Bounded.tail (h : Bounded k (c :: cs)) (hc : ¬ isStringDelim c) : Bounded k cs :=
  h.mono fun d => exists_levels_subset hc d cs

theorem Bounded.group (h : Bounded k ('(' :: cs)) (hrest : balancedParenEnd ('(' :: cs) = some rest) :
    (Token.subExpr (upTo ('(' :: cs) rest)).Fits k ∧ Bounded k rest := by
  simp only [balancedParenEnd, groupRest, List.length_cons, if_true] at hrest
  obtain ⟨body, rfl, hlevels⟩ := levels_groupRest hrest
  obtain ⟨d, hd⟩ := h
  rw [levels_open, hlevels d] at hd
  have hcut : '(' :: (body ++ ')' :: rest) = '(' :: (body ++ [')']) ++ rest := by simp
  refine ⟨⟨body, by rw [hcut, upTo_left], ?_, fun m hm => ?_⟩, d, fun m hm => ?_⟩
  · have := hd (d + 1) List.mem_cons_self
    omega
  · have hmem : m + (d + 1) ∈ (levels 0 body).map (· + (d + 1)) := List.mem_map_of_mem hm
    have := hd _ (List.mem_cons_of_mem _ (List.mem_append_left _ hmem))
    omega
  · exact hd m (List.mem_cons_of_mem _ (List.mem_append_right _ hm))

/-- The group tokens of a block lie as deep as its groups. -/
theorem fits_tokenizeBlock (h : Bounded k text) : ∀ t ∈ tokenizeBlock text, t.Fits k := by
  refine Scan.forall_scan (I := fun _ cs => Bounded k cs) ?_ h
  intro last c cs hI
  simp only [tokenStep]
  split_ifs with hspace hdelim hopen hparen hpipe hword
  · exact ⟨by simp [Token.Fits], hI.dropWhile (not_isStringDelim_of_isAsciiWhitespace hspace)
      fun _ => not_isStringDelim_of_isAsciiWhitespace⟩
  · have hne : c ≠ '(' ∧ c ≠ ')' := by
      constructor <;> rintro rfl <;> exact absurd hdelim (by decide)
    exact ⟨by simp [Token.Fits], hI.mono fun d => ⟨d, by
      rw [levels_literal hne.1 hne.2 hdelim]
      exact List.Subset.refl _⟩⟩
  · refine ⟨by simp [Token.Fits], hI.mono fun d => ?_⟩
    obtain ⟨d₁, h₁⟩ := exists_levels_subset hdelim d cs
    obtain ⟨d₂, h₂⟩ := exists_levels_arrayRest cs.length 1 d₁ cs
    exact ⟨d₂, List.Subset.trans h₂ h₁⟩
  · subst hparen
    split
    · exact ⟨by simp [Token.Fits], hI.tail hdelim⟩
    · split
      · next rest hrest =>
        obtain ⟨hfits, hbounded⟩ := hI.group hrest
        exact ⟨by simpa using hfits, hbounded⟩
      · exact ⟨by simp [Token.Fits], hI.tail hdelim⟩
  · exact ⟨by simp [Token.Fits], hI.tail hdelim⟩
  · have hpath : ∀ b, isPathChar b → ¬ isStringDelim b := fun _ => not_isStringDelim_of_isPathChar
    exact ⟨by simp [Token.Fits], hI.dropWhile hdelim hpath⟩
  · exact ⟨by simp [Token.Fits], hI.tail hdelim⟩

/-! ### What the check bounds -/

theorem levels_le_scanFrom {depth maxDepth : ℕ} (hn : cs.length ≤ n)
    (h : (scanFrom n depth maxDepth cs).imbalance = none) :
    maxDepth ≤ (scanFrom n depth maxDepth cs).maxDepth ∧
      ∀ m ∈ levels depth cs, m ≤ (scanFrom n depth maxDepth cs).maxDepth := by
  induction n generalizing depth maxDepth cs with
  | zero =>
    obtain rfl := List.length_eq_zero_iff.mp (Nat.le_zero.mp hn)
    exact ⟨Nat.le_refl _, nofun⟩
  | succ n ih =>
    cases cs with
    | nil => exact ⟨Nat.le_refl _, nofun⟩
    | cons c cs =>
      rw [List.length_cons] at hn
      simp only [scanFrom] at h ⊢
      split_ifs at h ⊢ with hopen hclose hdelim hclosed
      · subst hopen
        obtain ⟨hmax, hlevels⟩ := ih (Nat.le_of_succ_le_succ hn) h
        rw [levels_open, List.forall_mem_cons]
        exact ⟨(Nat.le_max_left _ _).trans hmax, (Nat.le_max_right _ _).trans hmax, hlevels⟩
      · subst hclose
        cases depth with
        | zero => exact absurd h nofun
        | succ depth =>
          rw [levels_close]
          exact ih (Nat.le_of_succ_le_succ hn) h
      · rw [levels_literal hopen hclose hdelim]
        have hlen := length_rawStringEnd c cs
        exact ih (by omega) h
      · rw [levels_other hopen hclose hdelim]
        exact ih (Nat.le_of_succ_le_succ hn) h

theorem checkBlock_eq_ok {block : Text} : checkBlock block = .ok () ↔
    (scanParens (blockInner block)).imbalance = none ∧
      (scanParens (blockInner block)).maxDepth ≤ maxExprNesting := by
  rw [checkBlock]
  cases hscan : (scanParens (blockInner block)).imbalance with
  | some imbalance => simp
  | none =>
    simp only [true_and]
    split_ifs with hdeep
    · simp [Nat.not_le.mpr hdeep]
    · simp [Nat.not_lt.mp hdeep]

theorem checkBlockExpressions_eq_ok {template : Text} : checkBlockExpressions template = .ok () ↔
    ∀ block ∈ liveBlocks template, checkBlock block = .ok () := by
  rw [checkBlockExpressions]
  induction liveBlocks template with
  | nil => simp [pure, Except.pure]
  | cons block blocks ih =>
    have hcons : (block :: blocks).forM checkBlock =
        (checkBlock block >>= fun _ => blocks.forM checkBlock) := rfl
    rw [hcons, List.forall_mem_cons, ← ih]
    cases checkBlock block with
    | error e => simp [bind, Except.bind]
    | ok u => simp [bind, Except.bind]

/-- An accepted block nests at most as deep as the pass rewrites. -/
theorem bounded_of_checkBlock {block : Text} (h : checkBlock block = .ok ()) :
    Bounded maxExprNesting (blockInner block) := by
  obtain ⟨hscan, hdeep⟩ := checkBlock_eq_ok.mp h
  obtain ⟨-, hlevels⟩ := levels_le_scanFrom (Nat.le_refl _) hscan
  exact ⟨0, fun m hm => (hlevels m hm).trans hdeep⟩

/-! ### Rewrites that agree on the groups -/

section Congr

variable {sub sub' : Text → Text} {tokens part : List Token}

def AgreeOn (sub sub' : Text → Text) (tokens : List Token) : Prop :=
  ∀ s, .subExpr s ∈ tokens → sub s = sub' s

theorem AgreeOn.subset (h : AgreeOn sub sub' tokens) (hpart : part ⊆ tokens) :
    AgreeOn sub sub' part := fun s hs => h s (hpart hs)

theorem AgreeOn.formatArgValue (h : AgreeOn sub sub' tokens) {t : Token} (ht : t ∈ tokens) :
    formatArgValue sub t = formatArgValue sub' t := by
  cases t with
  | subExpr s => exact congrArg some (h s ht)
  | _ => rfl

theorem AgreeOn.mapM (h : AgreeOn sub sub' tokens) :
    tokens.mapM (Template.formatArgValue sub) = tokens.mapM (Template.formatArgValue sub') := by
  induction tokens with
  | nil => rfl
  | cons t tokens ih =>
    rw [List.mapM_cons, List.mapM_cons, h.formatArgValue List.mem_cons_self,
      ih (h.subset (List.subset_cons_self _ _))]

theorem AgreeOn.callArgs {name : Text} (h : AgreeOn sub sub' tokens)
    (hsig : significantTokens tokens = .ident name :: part) : AgreeOn sub sub' part := by
  refine h.subset fun t ht => ?_
  have hmem : t ∈ significantTokens tokens := hsig ▸ List.mem_cons_of_mem _ ht
  exact (List.mem_filter.mp hmem).1

theorem AgreeOn.tryRewriteSlice (h : AgreeOn sub sub' tokens) :
    tryRewriteSlice sub tokens = tryRewriteSlice sub' tokens := by
  simp only [Template.tryRewriteSlice]
  split
  · rfl
  · split
    · next name args hsig => rw [(h.callArgs hsig).mapM]
    · rfl

theorem AgreeOn.tryRewriteVariadic (h : AgreeOn sub sub' tokens) :
    tryRewriteVariadic sub tokens = tryRewriteVariadic sub' tokens := by
  simp only [Template.tryRewriteVariadic]
  split
  · rfl
  · split
    · next name args hsig => rw [(h.callArgs hsig).mapM]
    · rfl

theorem AgreeOn.tryRewriteNamed (h : AgreeOn sub sub' tokens)
    (paramsOf : PositionalSyntax → Option (List String)) :
    tryRewriteNamed sub paramsOf tokens = tryRewriteNamed sub' paramsOf tokens := by
  simp only [Template.tryRewriteNamed]
  split
  · rfl
  · split
    · next name args hsig => rw [(h.callArgs hsig).mapM]
    · rfl

theorem AgreeOn.rewriteSubexprsOnly (h : AgreeOn sub sub' tokens) :
    rewriteSubexprsOnly sub tokens = rewriteSubexprsOnly sub' tokens := by
  have hrender : tokens.flatMap (renderToken sub) = tokens.flatMap (renderToken sub') := by
    apply List.flatMap_congr
    intro t ht
    cases t with
    | subExpr s => exact h s ht
    | _ => rfl
  rw [Template.rewriteSubexprsOnly, hrender, Template.rewriteSubexprsOnly]

theorem AgreeOn.rewriteHeadSegment (h : AgreeOn sub sub' tokens) :
    rewriteHeadSegment sub tokens = rewriteHeadSegment sub' tokens := by
  rw [Template.rewriteHeadSegment, h.tryRewriteSlice, h.tryRewriteVariadic, tryRewriteStandalone,
    h.tryRewriteNamed, h.rewriteSubexprsOnly]
  rfl

theorem AgreeOn.rewriteFilterSegment (h : AgreeOn sub sub' tokens) :
    rewriteFilterSegment sub tokens = rewriteFilterSegment sub' tokens := by
  rw [Template.rewriteFilterSegment, tryRewriteFilter, h.tryRewriteNamed, h.rewriteSubexprsOnly]
  rfl

/-- An expression is rewritten alike when its groups are. -/
theorem AgreeOn.rewriteExprTokensAt (h : AgreeOn sub sub' tokens) :
    rewriteExprTokensAt sub tokens = rewriteExprTokensAt sub' tokens := by
  have hsegment : ∀ segment ∈ pipeSegments tokens, AgreeOn sub sub' segment := fun _ hs =>
    h.subset fun _ ht => mem_of_mem_segment hs ht
  rw [Template.rewriteExprTokensAt, Template.rewriteExprTokensAt]
  cases hsegments : pipeSegments tokens with
  | nil => rfl
  | cons head filters =>
    rw [hsegments] at hsegment
    obtain ⟨hhead, hfilters⟩ := List.forall_mem_cons.mp hsegment
    have hrest : rewriteSegments sub (head :: filters) = rewriteSegments sub' (head :: filters) := by
      rw [rewriteSegments, rewriteSegments, hhead.rewriteHeadSegment]
      refine congrArg (_ :: ·) (List.map_congr_left fun f hf => ?_)
      rw [(hfilters f hf).rewriteFilterSegment]
    cases filters with
    | nil => exact hhead.rewriteHeadSegment
    | cons f filters =>
      simp only [rewritePipeline, hrest]

end Congr

/-! ### No group is left for its depth -/

section Uncapped

variable (past : Text → Text)

/-- A group that lies within the levels is rewritten without the cap. -/
theorem rewriteSubexprPast_eq {s : Text} (h : (Token.subExpr s).Fits n) :
    rewriteSubexprPast past n s = rewriteSubexpr n s := by
  induction n generalizing s with
  | zero =>
    obtain ⟨_, _, hpos, _⟩ := h
    exact absurd hpos (Nat.not_succ_le_zero 0)
  | succ n ih =>
    obtain ⟨body, rfl, -, hlevels⟩ := h
    have hinner : groupInner ('(' :: (body ++ [')'])) = body := by simp [groupInner]
    have hbounded : Bounded n body := ⟨0, fun m hm => Nat.le_of_succ_le_succ (hlevels m hm)⟩
    have hagree : AgreeOn (rewriteSubexprPast past n) (rewriteSubexpr n) (tokenizeBlock body) :=
      fun s hs => ih (fits_tokenizeBlock hbounded _ hs)
    rw [rewriteSubexprPast_succ, rewriteSubexpr_succ, hinner, hagree.rewriteExprTokensAt]

theorem rewriteExprTokensPast_eq {tokens : List Token} (h : ∀ t ∈ tokens, t.Fits maxExprNesting) :
    rewriteExprTokensPast past tokens = rewriteExprTokens tokens := by
  have hagree : AgreeOn (rewriteSubexprPast past maxExprNesting) (rewriteSubexpr maxExprNesting)
      tokens := fun s hs => rewriteSubexprPast_eq past (h _ hs)
  rw [rewriteExprTokensPast, hagree.rewriteExprTokensAt, rewriteExprTokens]

theorem rewritePositionalPast_eq {block : Text} (h : checkBlock block = .ok ()) :
    rewritePositionalPast past block = rewritePositional block := by
  have hfits := fits_tokenizeBlock (bounded_of_checkBlock h)
  refine rewritePositionalPast_congr ?_ (rewriteExprTokensPast_eq past hfits)
  rw [tryRewriteControlBlockPast, tryRewriteControlBlock]
  refine Option.bind_congr fun start _ => ?_
  rw [rewriteExprTokensPast_eq past fun t ht => hfits t (List.mem_of_mem_drop ht)]

end Uncapped

theorem replaceLiveBlocks_congr {template : Text} {f g : Text → Text}
    (h : ∀ b ∈ liveBlocks template, f b = g b) :
    replaceLiveBlocks template f = replaceLiveBlocks template g := by
  apply List.flatMap_congr
  rintro ⟨start, p⟩ hp
  cases p with
  | plain c => rfl
  | hit m =>
    dsimp only
    split
    · rfl
    · next hlive => exact h _ (List.mem_filterMap.mpr ⟨_, hp, by simp only [if_neg hlive]⟩)

def nestedCall : Text := "\x7b\x7b trim (dir x) \x7d\x7d".toList

end Anodizer.Template
