import Anodizer.Template.Preprocess

/-! # Shapes of Go constructs

The textual shapes the passes look for. A pass leaves a template without its
shapes unchanged.
-/

namespace Anodizer.Template

open Regex

variable (u : CharTables)

/-! ### Actions -/

def goActions : List Re :=
  [goDotRe, goVarAssignRe u, goElseIfRe, goIfRe, goElseRe, goEndRe, goRangeKvRe u, goRangeVRe u,
    goWithRe]

/-- A Go action opens the text. -/
def OpensAction (text : Text) : Prop := ∃ re ∈ goActions u, (matchStart re text).isSome

/-- No Go action opens outside the raw spans. -/
def NoGoAction (template : Text) : Prop :=
  ∀ i < template.length, rawSpanAt (rawSpans template) i = none →
    ¬ OpensAction u (template.drop i)

instance (text : Text) : Decidable (OpensAction u text) :=
  List.decidableBEx _ (goActions u)

instance (template : Text) : Decidable (NoGoAction u template) :=
  inferInstanceAs (Decidable (∀ i < _, _ → _))

theorem convertAction_eq_none {stack : List OpenBlock} {remaining : Text}
    (h : ¬ OpensAction u remaining) : convertAction u stack remaining = none := by
  have hnone : ∀ re ∈ goActions u, matchStart re remaining = none := by
    intro re hre
    cases hm : matchStart re remaining with
    | none => rfl
    | some m => exact absurd ⟨re, hre, by rw [hm]; rfl⟩ h
  simp only [goActions, List.forall_mem_cons, List.not_mem_nil, false_implies, implies_true,
    and_true] at hnone
  simp [convertAction, assignMatch, hnone]

theorem rawSpanAt_bounds {spans : List Span} {pos : ℕ} {span : Span}
    (h : rawSpanAt spans pos = some span) : pos < span.stop := by
  have := List.find?_some h
  simp only [Bool.and_eq_true, decide_eq_true_eq] at this
  exact this.2

/-- The scan is at the position its state says, or at the end. -/
def GoAt (template : Text) (s : GoState) (rest : Text) : Prop :=
  ∃ pre, template = pre ++ rest ∧ (s.pos = pre.length ∨ rest = [])

theorem GoAt.next {template : Text} {s : GoState} {c : Char} {cs : Text}
    (h : GoAt template s (c :: cs)) : GoAt template { s with pos := s.pos + 1 } cs := by
  obtain ⟨pre, htext, hpos⟩ := h
  have hpos := hpos.resolve_right (by simp)
  exact ⟨pre ++ [c], by simp [htext], .inl (by simp [hpos])⟩

theorem convertGoBlocks_id {template : Text} (h : NoGoAction u template) :
    convertGoBlocks u template = template := by
  apply Scan.scan_copies (I := GoAt template) _ ⟨[], rfl, .inl rfl⟩
  intro s c cs hat
  have hcopy : ∀ st, st = (⟨[c], { s with pos := s.pos + 1 }, cs⟩ : Scan.Step GoState Char Char) →
      st.emit.flatMap (fun a => [a]) ++ st.rest = c :: cs ∧ st.rest.length ≤ cs.length ∧
        GoAt template st.state st.rest := by
    rintro _ rfl
    exact ⟨rfl, Nat.le_refl _, hat.next⟩
  obtain ⟨pre, htext, hpos⟩ := hat
  have hpos := hpos.resolve_right (by simp)
  unfold goStep
  cases hraw : rawSpanAt (rawSpans template) s.pos with
  | some span =>
    have hstop := rawSpanAt_bounds hraw
    have hsplit := List.take_append_drop (span.stop - s.pos) (c :: cs)
    refine ⟨by rw [List.flatMap_singleton', hsplit], ?_, pre ++ (c :: cs).take (span.stop - s.pos),
      by rw [List.append_assoc, hsplit, htext], ?_⟩
    · simp only [List.length_drop, List.length_cons]
      omega
    · simp only [List.length_append, List.length_take, List.drop_eq_nil_iff]
      omega
  | none =>
    have hdrop : template.drop s.pos = c :: cs := by rw [htext, hpos, List.drop_left]
    have hlt : s.pos < template.length := by
      rw [htext, hpos, List.length_append, List.length_cons]
      omega
    have hno := h s.pos hlt hraw
    rw [hdrop] at hno
    apply hcopy
    simp only [convertAction_eq_none u hno, ite_self]

/-! ### Prefix calls -/

def prefixNames : List String := comparisonOps.map Prod.fst ++ ["and", "or"]

/-- No builtin is followed by arguments it would be called with. -/
structure NoPrefixCall (expr : Text) : Prop where
  infixCall : ∀ name ∈ prefixNames, ¬ Occurs (prefixRe u name) expr
  groups : ¬ Occurs logicalParenRe expr
  len : ¬ Occurs lenRe expr

instance (expr : Text) : Decidable (NoPrefixCall u expr) :=
  decidable_of_iff ((∀ name ∈ prefixNames, ¬ Occurs (prefixRe u name) expr) ∧
      ¬ Occurs logicalParenRe expr ∧ ¬ Occurs lenRe expr)
    ⟨fun h => ⟨h.1, h.2.1, h.2.2⟩, fun h => ⟨h.infixCall, h.groups, h.len⟩⟩

theorem rewriteComparisons_id {expr : Text}
    (h : ∀ name ∈ prefixNames, ¬ Occurs (prefixRe u name) expr) :
    rewriteComparisons u expr = expr := by
  have hops : ∀ op ∈ comparisonOps, rewritePrefixToInfix u expr op.1 op.2 = expr := fun op hop =>
    replaceAll_of_not_occurs (h _ (List.mem_append_left _ (List.mem_map_of_mem hop)))
  unfold rewriteComparisons
  generalize comparisonOps = ops at hops
  induction ops with
  | nil => rfl
  | cons op ops ih =>
    rw [List.foldl_cons, hops op List.mem_cons_self]
    exact ih fun o ho => hops o (List.mem_cons_of_mem _ ho)

theorem rewriteComparisonExpr_id {expr : Text} (h : NoPrefixCall u expr) :
    rewriteComparisonExpr u expr = expr := by
  unfold rewriteComparisonExpr rewriteLen
  rw [rewriteComparisons_id u h.infixCall, replaceAll_of_not_occurs h.len]

/-- A call that occurs after a character that is no word character occurs in the whole text. -/
theorem occurs_inside {r : Re} (hr : r.Plain) {pre inner post : Text} {c : Char}
    (hc : isWordChar c = false) (h : Occurs (.seq preRe r) inner) :
    Occurs (.seq preRe r) (pre ++ c :: (inner ++ post)) := by
  obtain ⟨before, ⟨text, rest, g⟩, hinner, hne, x, y, gx, gy, rfl, rfl, hx, hy⟩ := h
  simp only at hinner hne
  rcases hx with ⟨rfl, rfl, hprev⟩ | ⟨k, rfl, ⟨d, hd, rfl⟩, rfl⟩
  · obtain rfl := List.getLast?_eq_none_iff.mp hprev
    refine ⟨pre, ⟨c :: y, rest ++ post, gy ++ [("pre", [c])]⟩, by simp [hinner], by simp,
      [c], y, _, gy, rfl, rfl, .inr ⟨[], rfl, ⟨c, by simp [hc], rfl⟩, rfl⟩, hr.reads hy⟩
  · refine ⟨pre ++ c :: before, ⟨d :: y, rest ++ post, gy ++ [("pre", [d])]⟩, by simp [hinner],
      by simp, [d], y, _, gy, rfl, rfl, .inr ⟨[], rfl, ⟨d, hd, rfl⟩, rfl⟩, hr.reads hy⟩

theorem plain_prefixRe (name : String) : ∃ r : Re, r.Plain ∧ prefixRe u name = .seq preRe r := by
  refine ⟨_, ?_, rfl⟩
  simp [Re.cat, Re.Plain, Re.plus, spaces1, space, argRe, rawStringRe, quoted, argGroupRe,
    flatGroupRe, noParens, pathRe]

theorem plain_logicalParenRe : ∃ r : Re, r.Plain ∧ logicalParenRe = .seq preRe r := by
  refine ⟨_, ?_, rfl⟩
  simp [Re.cat, Re.Plain, Re.plus, spaces1, space, parenContentRe, noParens]

theorem plain_lenRe : ∃ r : Re, r.Plain ∧ lenRe = .seq preRe r := by
  refine ⟨_, ?_, rfl⟩
  simp [Re.cat, Re.Plain, Re.plus, spaces1, space, rawStringRe, quoted, flatGroupRe, noParens,
    pathRe]

/-- The content of a group has no calls the whole text does not have. -/
theorem NoPrefixCall.of_group {pre inner post : Text} {c : Char} (hc : isWordChar c = false)
    (h : NoPrefixCall u (pre ++ c :: (inner ++ post))) : NoPrefixCall u inner := by
  constructor
  · intro name hname hocc
    obtain ⟨r, hr, heq⟩ := plain_prefixRe u name
    exact h.infixCall name hname (heq ▸ occurs_inside hr hc (heq ▸ hocc))
  · intro hocc
    obtain ⟨r, hr, heq⟩ := plain_logicalParenRe
    exact h.groups (heq ▸ occurs_inside hr hc (heq ▸ hocc))
  · intro hocc
    obtain ⟨r, hr, heq⟩ := plain_lenRe
    exact h.len (heq ▸ occurs_inside hr hc (heq ▸ hocc))

/-- The text a negated group matches ends with the group it captures. -/
theorem notParenRe_reads {prev : Option Char} {m : Found}
    (h : notParenRe.Reads prev m.text m.rest m.groups) :
    ∃ front, m.text = front ++ '(' :: (m.get "1" ++ [')']) := by
  obtain ⟨text, rest, g⟩ := m
  obtain ⟨a, _, ga, _, rfl, rfl, ha, b, _, gb, _, rfl, rfl, hb, c, _, gc, _, rfl, rfl, hc,
    d, _, gd, _, rfl, rfl, hd, e, _, ge, _, rfl, rfl, he, rfl, rfl⟩ := h
  obtain ⟨-, rfl⟩ := Re.reads_lit.mp ha
  obtain ⟨rfl, rfl⟩ := Re.reads_lit.mp hc
  obtain ⟨rfl, rfl⟩ := Re.reads_lit.mp he
  obtain ⟨k, rfl, hd⟩ := hd
  have hgb : gb = [] := Re.GroupFree.nil (by simp [spaces1, Re.plus, space, Re.GroupFree]) hb
  subst hgb
  exact ⟨a ++ b, by simp [Found.get, Found.get?]⟩

theorem rewriteNotWithParenComparison_id {expr : Text} (h : NoPrefixCall u expr) :
    rewriteNotWithParenComparison u expr = expr := by
  apply replaceAll_id
  rintro pre m ⟨hexpr, -, hreads⟩
  obtain ⟨front, htext⟩ := notParenRe_reads hreads
  have hparts : expr = (pre ++ front) ++ '(' :: (m.get "1" ++ ')' :: m.rest) := by
    rw [hexpr, htext]
    simp
  have hinner : NoPrefixCall u (m.get "1") := .of_group u (by decide) (hparts ▸ h)
  simp only [notInfix, rewriteComparisonExpr_id u hinner, ne_eq, not_true_eq_false, if_false]

theorem rewriteGoBuiltinsInExpr_id {expr : Text} (h : NoPrefixCall u expr) :
    rewriteGoBuiltinsInExpr u expr = expr := by
  have hcalls : ∀ name ∈ prefixNames, ∀ operator,
      rewritePrefixToInfix u expr name operator = expr := fun name hname _ =>
    replaceAll_of_not_occurs (h.infixCall name hname)
  unfold rewriteGoBuiltinsInExpr rewriteLogicalWithParenArgs rewriteLen
  simp only [replaceAll_of_not_occurs h.groups, rewriteNotWithParenComparison_id u h,
    rewriteComparisons_id u h.infixCall, hcalls "and" (by decide), hcalls "or" (by decide),
    replaceAll_of_not_occurs h.len]

/-! ### Positional calls -/

def Token.isValue : Token → Bool
  | .quoted _ | .ident _ | .arrayLiteral _ | .subExpr _ => true
  | _ => false

/-- The builtin takes so many values at the head of a pipeline. -/
def headTakes (name : Text) (n : ℕ) : Bool :=
  (name = "slice".toList && (n = 2 || n = 3)) ||
    ((lookupVariadic name).isSome &&
      (n ≠ 0 || (name = "print".toList || name = "println".toList))) ||
    (lookupPositional name).any fun spec => spec.standaloneParams.length = n

/-- The builtin takes so many values after a pipe. -/
def filterTakes (name : Text) (n : ℕ) : Bool :=
  (lookupPositional name).any fun spec =>
    spec.pipedParams ≠ [] && spec.pipedParams.length = n

/-- The segment is a builtin followed by as many values as it takes. -/
def readsAsCall (takes : Text → ℕ → Bool) (segment : List Token) : Bool :=
  match significantTokens segment with
  | .ident name :: args => args.all (·.isValue) && takes name args.length
  | _ => false

/-- Some segment of the pipeline, or of one in a group, reads as a call. -/
def hasCall : ℕ → List Token → Bool
  | levels, tokens =>
    (match pipeSegments tokens with
      | [] => false
      | head :: filters => readsAsCall headTakes head || filters.any (readsAsCall filterTakes)) ||
    match levels with
    | 0 => false
    | levels + 1 => tokens.any fun
      | .subExpr s => hasCall levels (tokenizeBlock (groupInner s))
      | _ => false

variable {sub : Text → Text} {segment args : List Token} {values : List Text}

theorem mapM_formatArgValue (h : args.mapM (formatArgValue sub) = some values) :
    args.all (·.isValue) ∧ values.length = args.length := by
  induction args generalizing values with
  | nil => cases h; exact ⟨rfl, rfl⟩
  | cons a args ih =>
    simp only [List.mapM_cons, Option.bind_eq_bind, Option.bind_eq_some_iff, Option.pure_def,
      Option.some.injEq] at h
    obtain ⟨v, hv, vs, hvs, rfl⟩ := h
    obtain ⟨hall, hlen⟩ := ih hvs
    have ha : a.isValue := by cases a <;> simp_all [formatArgValue, Token.isValue]
    exact ⟨by rw [List.all_cons, ha, hall]; rfl, by simp [hlen]⟩

theorem tryRewriteSlice_eq_none (h : readsAsCall headTakes segment = false) :
    tryRewriteSlice sub segment = none := by
  by_contra hne
  obtain ⟨text, htext⟩ := Option.ne_none_iff_exists'.mp hne
  simp only [tryRewriteSlice, Option.ite_none_left_eq_some] at htext
  obtain ⟨-, htext⟩ := htext
  unfold readsAsCall at h
  split at htext
  · next name args hsig =>
    simp only [hsig, Option.ite_none_left_eq_some, Option.bind_eq_bind,
      Option.bind_eq_some_iff] at h htext
    obtain ⟨hname, values, hvalues, htext⟩ := htext
    obtain ⟨hall, hlen⟩ := mapM_formatArgValue hvalues
    rw [hall, Bool.true_and] at h
    have harity : args.length = 2 ∨ args.length = 3 := by
      split at htext
      · exact .inl hlen.symm
      · exact .inr hlen.symm
      · simp at htext
    rcases harity with hn | hn <;> simp [headTakes, hn, not_not.mp hname] at h
  · simp at htext

theorem tryRewriteVariadic_eq_none (h : readsAsCall headTakes segment = false) :
    tryRewriteVariadic sub segment = none := by
  by_contra hne
  obtain ⟨text, htext⟩ := Option.ne_none_iff_exists'.mp hne
  simp only [tryRewriteVariadic, Option.ite_none_left_eq_some] at htext
  obtain ⟨-, htext⟩ := htext
  unfold readsAsCall at h
  split at htext
  · next name args hsig =>
    simp only [hsig, Option.ite_none_left_eq_some, Option.bind_eq_bind,
      Option.bind_eq_some_iff] at h htext
    obtain ⟨param, hparam, hbare, values, hvalues, params, hparams, -⟩ := htext
    obtain ⟨hall, hlen⟩ := mapM_formatArgValue hvalues
    rw [hall, Bool.true_and] at h
    simp only [headTakes, hparam, Option.isSome_some, Bool.true_and, Bool.or_eq_false_iff] at h
    obtain ⟨⟨-, hzero, hprint, hprintln⟩, -⟩ := h
    have hargs : args = [] := by simpa using hzero
    rw [hargs, List.length_nil, List.length_eq_zero_iff] at hlen
    subst hargs hlen
    -- without arguments only `print` and `println` are rewritten
    have hname : name ∈ variadicFunctions.map (·.1.toList) := by
      obtain ⟨f, hf, -⟩ := Option.map_eq_some_iff.mp hparam
      rw [List.mem_map]
      exact ⟨f, List.mem_of_find?_eq_some hf, by simpa using List.find?_some hf⟩
    simp only [variadicFunctions, List.map_cons, List.map_nil, List.mem_cons,
      List.not_mem_nil, or_false] at hname
    rcases hname with rfl | rfl | rfl | rfl | rfl
    · simp [variadicParams] at hparams
    · simp at hprint
    · simp at hprintln
    · simp at hbare
    · simp at hbare
  · simp at htext

theorem tryRewriteNamed_eq_none {paramsOf : PositionalSyntax → Option (List String)}
    {takes : Text → ℕ → Bool}
    (htakes : ∀ name spec params, lookupPositional name = some spec →
      paramsOf spec = some params → takes name params.length)
    (h : readsAsCall takes segment = false) : tryRewriteNamed sub paramsOf segment = none := by
  by_contra hne
  obtain ⟨text, htext⟩ := Option.ne_none_iff_exists'.mp hne
  simp only [tryRewriteNamed, Option.ite_none_left_eq_some] at htext
  obtain ⟨-, htext⟩ := htext
  unfold readsAsCall at h
  split at htext
  · next name args hsig =>
    simp only [hsig, Option.ite_none_left_eq_some, Option.bind_eq_bind,
      Option.bind_eq_some_iff] at h htext
    obtain ⟨spec, hspec, params, hparams, hlen, values, hvalues, -⟩ := htext
    obtain ⟨hall, -⟩ := mapM_formatArgValue hvalues
    rw [hall, Bool.true_and, not_not.mp hlen, htakes name spec params hspec hparams] at h
    exact absurd h (by simp)
  · simp at htext

/-- What a rewrite yields, if anything, is the text of the tokens. -/
def Verbatim (rewrite : Option Text) (tokens : List Token) : Prop :=
  ∀ text, rewrite = some text → text = textOf tokens

/-- The groups among the tokens are kept. -/
def KeepsGroups (sub : Text → Text) (tokens : List Token) : Prop :=
  ∀ s, .subExpr s ∈ tokens → sub s = s

theorem rewriteSubexprsOnly_verbatim (hsub : KeepsGroups sub segment) :
    Verbatim (rewriteSubexprsOnly sub segment) segment := by
  intro text htext
  simp only [rewriteSubexprsOnly, Option.ite_none_right_eq_some, Option.some.injEq] at htext
  obtain ⟨-, rfl⟩ := htext
  apply List.flatMap_congr
  intro t ht
  cases t with
  | subExpr s => exact hsub s ht
  | _ => rfl

theorem rewriteHeadSegment_verbatim (h : readsAsCall headTakes segment = false)
    (hsub : KeepsGroups sub segment) : Verbatim (rewriteHeadSegment sub segment) segment := by
  have hnamed : tryRewriteStandalone sub segment = none := by
    refine tryRewriteNamed_eq_none (fun name spec params hspec hparams => ?_) h
    obtain rfl := Option.some.inj hparams
    simp [headTakes, hspec]
  unfold rewriteHeadSegment
  rw [tryRewriteSlice_eq_none h, tryRewriteVariadic_eq_none h, hnamed]
  exact rewriteSubexprsOnly_verbatim hsub

theorem rewriteFilterSegment_verbatim (h : readsAsCall filterTakes segment = false)
    (hsub : KeepsGroups sub segment) : Verbatim (rewriteFilterSegment sub segment) segment := by
  have hnamed : tryRewriteFilter sub segment = none := by
    refine tryRewriteNamed_eq_none (fun name spec params hspec hparams => ?_) h
    obtain ⟨hne, hparams⟩ := Option.ite_none_left_eq_some.mp hparams
    cases hparams
    simp [filterTakes, hspec, hne]
  unfold rewriteFilterSegment
  rw [hnamed]
  exact rewriteSubexprsOnly_verbatim hsub

theorem joinTexts_textOf (segments : List (List Token)) :
    joinTexts "|" (segments.map textOf) = textOf ([Token.pipe].intercalate segments) := by
  unfold joinTexts
  induction segments with
  | nil => rfl
  | cons s ss ih =>
    cases ss with
    | nil => simp [textOf]
    | cons s' ss =>
      simp only [List.map_cons, List.intercalate_cons_cons] at ih ⊢
      rw [ih]
      simp [textOf, tokenToStr]

theorem rewritePipeline_verbatim {head : List Token} {filters : List (List Token)}
    (hhead : readsAsCall headTakes head = false)
    (hfilters : ∀ f ∈ filters, readsAsCall filterTakes f = false)
    (hsub : ∀ s ∈ head :: filters, KeepsGroups sub s) :
    Verbatim (rewritePipeline sub (head :: filters))
      ([Token.pipe].intercalate (head :: filters)) := by
  intro text htext
  simp only [rewritePipeline, Option.ite_none_right_eq_some, Option.some.injEq] at htext
  obtain ⟨-, rfl⟩ := htext
  rw [← joinTexts_textOf, rewriteSegments, List.map_cons, List.map_map, List.map_cons]
  have hkeep : ∀ {rewrite : Option Text} {segment : List Token}, Verbatim rewrite segment →
      rewrite.getD (textOf segment) = textOf segment := by
    intro rewrite segment hv
    cases rewrite with
    | none => rfl
    | some text => exact hv text rfl
  rw [hkeep (rewriteHeadSegment_verbatim hhead (hsub head List.mem_cons_self))]
  congr 2
  apply List.map_congr_left
  intro f hf
  exact hkeep (rewriteFilterSegment_verbatim (hfilters f hf) (hsub f (List.mem_cons_of_mem _ hf)))

theorem pipeSegments_ne_nil (tokens : List Token) : pipeSegments tokens ≠ [] :=
  List.splitOn_ne_nil _ _

theorem mem_intercalate {sep segment : List Token} {segments : List (List Token)} {t : Token}
    (hs : segment ∈ segments) (ht : t ∈ segment) : t ∈ sep.intercalate segments := by
  induction segments with
  | nil => simp at hs
  | cons s ss ih =>
    cases ss with
    | nil => simp_all
    | cons s' ss =>
      rw [List.intercalate_cons_cons]
      rcases List.mem_cons.mp hs with rfl | hs
      · exact List.mem_append_left _ (List.mem_append_left _ ht)
      · exact List.mem_append_right _ (ih hs)

theorem mem_of_mem_segment {tokens segment : List Token} {t : Token}
    (hs : segment ∈ pipeSegments tokens) (ht : t ∈ segment) : t ∈ tokens := by
  have hjoin : [Token.pipe].intercalate (tokens.splitOn Token.pipe) = tokens :=
    List.intercalate_splitOn _
  rw [← hjoin]
  exact mem_intercalate hs ht

/-- Without calls and with its groups kept, an expression is kept. -/
theorem rewriteExprTokensAt_verbatim {levels : ℕ} {tokens : List Token}
    (h : hasCall levels tokens = false) (hsub : KeepsGroups sub tokens) :
    Verbatim (rewriteExprTokensAt sub tokens) tokens := by
  have hjoin : [Token.pipe].intercalate (pipeSegments tokens) = tokens :=
    List.intercalate_splitOn _
  unfold hasCall at h
  rw [Bool.or_eq_false_iff] at h
  replace h := h.1
  have hgroups : ∀ s ∈ pipeSegments tokens, KeepsGroups sub s := fun s hs t ht =>
    hsub t (mem_of_mem_segment hs ht)
  unfold rewriteExprTokensAt
  cases hsegs : pipeSegments tokens with
  | nil => exact absurd hsegs (pipeSegments_ne_nil tokens)
  | cons head filters =>
    rw [hsegs] at h hjoin hgroups
    simp only [Bool.or_eq_false_iff, List.any_eq_false] at h
    obtain ⟨hhead, hfilters⟩ := h
    have hfilters : ∀ f ∈ filters, readsAsCall filterTakes f = false := fun f hf =>
      eq_false_of_ne_true (hfilters f hf)
    split
    · next only heq =>
      cases heq
      rw [← hjoin]
      simpa using rewriteHeadSegment_verbatim hhead (hgroups head List.mem_cons_self)
    · rw [← hjoin]
      exact rewritePipeline_verbatim hhead hfilters hgroups

/-- Groups without calls are kept at every level of nesting. -/
theorem keepsGroups_rewriteSubexpr {levels : ℕ} {tokens : List Token}
    (hwf : ∀ t ∈ tokens, t.WellFormed) (h : hasCall levels tokens = false) :
    KeepsGroups (rewriteSubexpr levels) tokens := by
  induction levels generalizing tokens with
  | zero => exact fun _ _ => rfl
  | succ levels ih =>
    intro s hs
    unfold hasCall at h
    rw [Bool.or_eq_false_iff] at h
    have hin : hasCall levels (tokenizeBlock (groupInner s)) = false :=
      eq_false_of_ne_true (List.any_eq_false.mp h.2 _ hs)
    have hkeep := ih (wellFormed_tokenizeBlock _) hin
    obtain ⟨body, rfl⟩ := hwf _ hs
    unfold rewriteSubexpr
    split
    · next text htext =>
      rw [rewriteExprTokensAt_verbatim hin hkeep text htext, textOf_tokenizeBlock]
      simp [groupInner]
    · rfl

theorem rewriteExprTokens_verbatim {tokens : List Token} (hwf : ∀ t ∈ tokens, t.WellFormed)
    (h : hasCall maxExprNesting tokens = false) : Verbatim (rewriteExprTokens tokens) tokens :=
  rewriteExprTokensAt_verbatim h (keepsGroups_rewriteSubexpr hwf h)

/-! ### Blocks -/

/-- The tokens of the expression of a block, if it has one. -/
def exprTokens (block : Text) : Option (List Token) :=
  let tokens := tokenizeBlock (blockInner block)
  if "\x7b%".toList.isPrefixOf block then (controlExprStart tokens).map tokens.drop else some tokens

/-- No shape that a pass looks for in a block. -/
structure QuietBlock (block : Text) : Prop where
  list : contains block "(list ".toList → ¬ Occurs listSubexprRe block
  builtins : needsRewrite (blockInner block) → NoPrefixCall u (blockInner block)
  map : contains block "map ".toList → ¬ contains block "map(".toList →
    ¬ Occurs mapPositionalRe (blockInner block)
  positional : ∀ tokens ∈ exprTokens block, hasCall maxExprNesting tokens = false
  variantPiped : ¬ Occurs (targetVariantPipedRe u) (blockInner block)
  variant : ¬ Occurs (targetVariantRe u) (blockInner block)
  nowFormat : ¬ Occurs nowFormatRe (blockInner block)

instance (block : Text) : Decidable (QuietBlock u block) :=
  decidable_of_iff ((contains block "(list ".toList → ¬ Occurs listSubexprRe block) ∧
      (needsRewrite (blockInner block) → NoPrefixCall u (blockInner block)) ∧
      (contains block "map ".toList → ¬ contains block "map(".toList →
        ¬ Occurs mapPositionalRe (blockInner block)) ∧
      (∀ tokens ∈ exprTokens block, hasCall maxExprNesting tokens = false) ∧
      ¬ Occurs (targetVariantPipedRe u) (blockInner block) ∧
      ¬ Occurs (targetVariantRe u) (blockInner block) ∧ ¬ Occurs nowFormatRe (blockInner block))
    ⟨fun ⟨h₁, h₂, h₃, h₄, h₅, h₆, h₇⟩ => ⟨h₁, h₂, h₃, h₄, h₅, h₆, h₇⟩,
      fun h => ⟨h.list, h.builtins, h.map, h.positional, h.variantPiped, h.variant, h.nowFormat⟩⟩

/-- No shape that a pass looks for in the live blocks. -/
structure NoGoShape (template : Text) : Prop where
  actions : NoGoAction u template
  blocks : ∀ b ∈ liveBlocks template, QuietBlock u b

instance (template : Text) : Decidable (NoGoShape u template) :=
  decidable_of_iff (NoGoAction u template ∧ ∀ b ∈ liveBlocks template, QuietBlock u b)
    ⟨fun h => ⟨h.1, h.2⟩, fun h => ⟨h.actions, h.blocks⟩⟩

/-- The delimiters of a block do not overlap. -/
def Splits (block : Text) : Prop :=
  (extractBlockParts block).1 ++ blockInner block ++ (extractBlockParts block).2.2 = block

variable {u} {block : Text}

theorem onInner_id {rewrite : Text → Text → Text} (hs : Splits block)
    (h : rewrite (extractBlockParts block).1 (blockInner block) = blockInner block) :
    onInner rewrite block = block :=
  Eq.trans (congrArg (fun t => (extractBlockParts block).1 ++ t ++ (extractBlockParts block).2.2) h)
    hs

theorem rewriteListSubexpr_id (h : QuietBlock u block) : rewriteListSubexpr block = block := by
  unfold rewriteListSubexpr
  split
  · rfl
  · next hc => exact replaceAll_of_not_occurs (h.list (by simpa using hc))

theorem rewriteGoBuiltins_id (hs : Splits block) (h : QuietBlock u block) :
    rewriteGoBuiltins u block = block := by
  have hb : rewriteGoBuiltins u block = if !needsRewrite (blockInner block) then block
      else onInner (fun _ => rewriteGoBuiltinsInExpr u) block := rfl
  rw [hb]
  split
  · rfl
  · next hc => exact onInner_id hs (rewriteGoBuiltinsInExpr_id u (h.builtins (by simpa using hc)))

theorem rewriteMap_id (hs : Splits block) (h : QuietBlock u block) : rewriteMap block = block := by
  unfold rewriteMap
  split_ifs with hc hcall
  · rfl
  · rfl
  · exact onInner_id hs (replaceAll_of_not_occurs (h.map (by simpa using hc) hcall))

theorem rewriteMethodCalls_id (hs : Splits block) (h : QuietBlock u block) :
    rewriteMethodCalls u block = block := by
  unfold rewriteMethodCalls
  split
  · rfl
  · apply onInner_id hs
    simp only [rewriteMethods, replaceAll_of_not_occurs h.variantPiped,
      replaceAll_of_not_occurs h.variant, replaceAll_of_not_occurs h.nowFormat]

theorem tryRewriteControlBlock_verbatim {inner : Text}
    (h : ∀ start, controlExprStart (tokenizeBlock inner) = some start →
      hasCall maxExprNesting ((tokenizeBlock inner).drop start) = false) :
    ∀ text, tryRewriteControlBlock inner = some text → text = inner := by
  intro text htext
  simp only [tryRewriteControlBlock, Option.bind_eq_bind, Option.bind_eq_some_iff,
    Option.some.injEq] at htext
  obtain ⟨start, hstart, rewritten, hrewritten, rfl⟩ := htext
  have hwf : ∀ t ∈ (tokenizeBlock inner).drop start, t.WellFormed := fun t ht =>
    wellFormed_tokenizeBlock inner t (List.mem_of_mem_drop ht)
  rw [rewriteExprTokens_verbatim hwf (h start hstart) rewritten hrewritten]
  calc textOf ((tokenizeBlock inner).take start) ++ textOf ((tokenizeBlock inner).drop start)
      = textOf (tokenizeBlock inner) := by
        rw [textOf, textOf, ← List.flatMap_append, List.take_append_drop, textOf]
    _ = inner := textOf_tokenizeBlock inner

theorem rewritePositional_id (hs : Splits block) (h : QuietBlock u block) :
    rewritePositional block = block := by
  have hinner : ∀ text, (if "\x7b%".toList.isPrefixOf block then
        tryRewriteControlBlock (blockInner block)
      else rewriteExprTokens (tokenizeBlock (blockInner block))) = some text →
      text = blockInner block := by
    intro text htext
    have hcalls := h.positional
    unfold exprTokens at hcalls
    split at htext
    · next htag =>
      apply tryRewriteControlBlock_verbatim _ text htext
      intro start hstart
      apply hcalls
      simp only [if_pos htag, hstart, Option.map_some, Option.mem_def]
    · next htag =>
      rw [← textOf_tokenizeBlock (blockInner block)]
      apply rewriteExprTokens_verbatim (wellFormed_tokenizeBlock _) _ text htext
      apply hcalls
      simp only [if_neg htag, Option.mem_def]
  unfold rewritePositional
  simp only
  split
  · next text htext => rw [hinner text htext]; exact hs
  · rfl

end Anodizer.Template
