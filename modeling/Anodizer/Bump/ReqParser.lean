import Anodizer.Bump.Heal
import Anodizer.Lib.Lines

/-! # A reader of requirements

The syntax of requirements as a program. It reads and admits what the documentation says, so the
results about healed requirements hold of it.
-/

namespace Anodizer.Bump

open Template (Text)
open Git

namespace Reader

def dropSpaces (s : Text) : Text := s.dropWhile (· == ' ')

/-- The operator, whether it is written out, and what follows. -/
def readOp : Text → Op × Bool × Text
  | '=' :: s => (.exact, true, s)
  | '>' :: '=' :: s => (.greaterEq, true, s)
  | '>' :: s => (.greater, true, s)
  | '<' :: '=' :: s => (.lessEq, true, s)
  | '<' :: s => (.less, true, s)
  | '~' :: s => (.tilde, true, s)
  | '^' :: s => (.caret, true, s)
  | s => (.caret, false, s)

/-- A number of 64 bits without leading zeros. -/
def readNumber (s : Text) : Option (UInt64 × Text) :=
  let digits := s.takeWhile Char.isDigit
  if digits ≠ [] ∧ (digits.head? = some '0' → digits.length = 1) ∧
      Nat.ofDigitChars 10 digits 0 < 2 ^ 64 then
    some (UInt64.ofNat (Nat.ofDigitChars 10 digits 0), s.dropWhile Char.isDigit)
  else none

def readWildcard : Text → Option Text
  | '*' :: s => some s
  | 'x' :: s => some s
  | 'X' :: s => some s
  | _ => none

/-- Nothing, a wildcard or a number behind a dot. -/
inductive Part
  | absent
  | wildcard
  | number (n : UInt64)
  deriving DecidableEq

def Part.number? : Part → Option UInt64
  | number n => some n
  | _ => none

def readPart : Text → Option (Part × Text)
  | '.' :: s =>
    match readWildcard s with
    | some s => some (.wildcard, s)
    | none => (readNumber s).map fun ns => (.number ns.1, ns.2)
  | s => some (.absent, s)

def isIdentOrDot (c : Char) : Bool := isIdentChar c || c == '.'

def readPre (s : Text) : Option (Prerelease × Text) :=
  match s with
  | '-' :: s =>
    let id := s.takeWhile isIdentOrDot
    if h : isPrerelease id = true then
      if id = [] then none else some (⟨id, h⟩, s.dropWhile isIdentOrDot)
    else none
  | s => some (.empty, s)

def readBuild (s : Text) : Option Text :=
  match s with
  | '+' :: s =>
    if (s.takeWhile isIdentOrDot).splitOn '.' |>.all (· ≠ []) then
      some (s.dropWhile isIdentOrDot)
    else none
  | s => some s

/-- What may follow the numbers of a comparator, when all three are there. -/
def readSuffix (patch : Part) (s : Text) : Option (Prerelease × Text) :=
  match patch with
  | .number _ => (readPre s).bind fun ps => (readBuild ps.2).map fun s => (ps.1, s)
  | _ => some (.empty, s)

def finalOp (op : Op) (explicit : Bool) (minor patch : Part) : Op :=
  if !explicit && (minor = .wildcard || patch = .wildcard) then .wildcard else op

/-- The numbers and the prerelease of a comparator. -/
structure Parts where
  major : UInt64
  minor : Part
  patch : Part
  pre : Prerelease

def readParts (s : Text) : Option (Parts × Text) := do
  let major ← readNumber s
  let minor ← readPart major.2
  let patch ← readPart minor.2
  if minor.1 = .wildcard && patch.1.number?.isSome then none
  else
    let rest ← readSuffix patch.1 patch.2
    some (⟨major.1, minor.1, patch.1, rest.1⟩, dropSpaces rest.2)

def readComparator (s : Text) : Option (Comparator × Text) :=
  let op := readOp s
  (readParts (dropSpaces op.2.2)).map fun parts =>
    (⟨finalOp op.1 op.2.1 parts.1.minor parts.1.patch, parts.1.major, parts.1.minor.number?,
      parts.1.patch.number?, parts.1.pre⟩, parts.2)

/-- The comparators between commas, at most as many as the first argument. -/
def readAll : ℕ → Text → Option (List Comparator)
  | 0, _ => none
  | n + 1, s =>
    match readComparator s with
    | none => none
    | some (c, []) => some [c]
    | some (c, ',' :: s) => (readAll n (dropSpaces s)).map (c :: ·)
    | some (_, _ :: _) => none

def parse (s : Text) : Option (List Comparator) :=
  let s := dropSpaces s
  match readWildcard s with
  | some rest => if dropSpaces rest = [] then some [] else none
  | none => readAll 32 s

def admits (cs : List Comparator) (v : Version) : Bool :=
  cs.all (·.inRange v) && (v.pre.1 = [] || cs.any (·.allowsPre v))

/-- No build metadata comes first. -/
def compareBuild (a b : Text) : Ordering :=
  if a = [] || b = [] then cmp a.length b.length
  else Spec.identifiers (a.splitOn '.') (b.splitOn '.')

/-- Build metadata decides between versions that are otherwise the same. -/
def compare (v w : Version) : Ordering :=
  (Spec.precedence v.semver w.semver).then (compareBuild v.build w.build)

def reader : SemverCrate := ⟨parse, admits, compare⟩

example : parse ">= 0.6.1".toList = some [⟨.greaterEq, 0, some 6, some 1, .empty⟩] := by
  decide +kernel

example : parse "1.*".toList = some [⟨.wildcard, 1, none, none, .empty⟩] := by decide +kernel

/-! ### What is read was written -/

variable {s rest token : Text} {op : Op} {c : Comparator} {n : UInt64} {gap : ℕ}

theorem spaces_dropSpaces (s : Text) : ∃ lead, s = spaces lead ++ dropSpaces s := by
  refine ⟨(s.takeWhile (· == ' ')).length, ?_⟩
  have hspaces : s.takeWhile (· == ' ') = spaces (s.takeWhile (· == ' ')).length :=
    List.eq_replicate_iff.mpr ⟨rfl, fun t ht => by simpa using List.mem_takeWhile_imp ht⟩
  rw [← hspaces, dropSpaces, List.takeWhile_append_dropWhile]

theorem dropSpaces_head (s : Text) : ∀ t ∈ (dropSpaces s).head?, t ≠ ' ' := by
  intro t ht
  have hhead := List.head?_dropWhile_not (· == ' ') s
  rw [dropSpaces] at ht
  rw [Option.mem_def.mp ht] at hhead
  simpa using hhead

theorem readOp_token (h : isLowerBounded (readOp s).1) :
    ∃ token, Token (readOp s).1 token ∧ s = token ++ (readOp s).2.2 := by
  unfold readOp at h ⊢
  split at h
  · exact ⟨_, .exact, rfl⟩
  · exact ⟨_, .greaterEq, rfl⟩
  · exact ⟨_, .greater, rfl⟩
  · cases h
  · cases h
  · exact ⟨_, .tilde, rfl⟩
  · exact ⟨_, .caret, rfl⟩
  · exact ⟨[], .default, rfl⟩

theorem readNumber_head (h : readNumber s = some (n, rest)) :
    ∃ d ds, s = d :: ds ∧ d.isDigit := by
  rw [readNumber, Option.ite_none_right_eq_some] at h
  obtain ⟨⟨hne, -, -⟩, -⟩ := h
  cases s with
  | nil => exact absurd rfl hne
  | cons d ds =>
    refine ⟨d, ds, rfl, ?_⟩
    by_contra hd
    rw [List.takeWhile_cons_of_neg hd] at hne
    exact hne rfl

theorem finalOp_eq {explicit : Bool} {minor patch : Part}
    (h : isLowerBounded (finalOp op explicit minor patch)) :
    finalOp op explicit minor patch = op := by
  unfold finalOp at h ⊢
  split
  · next hwild =>
    rw [if_pos hwild] at h
    cases h
  · rfl

/-- Without a dot nothing is read. -/
theorem readPart_absent {part : Part × Text} (h : readPart s = some part)
    (habsent : part.1 = .absent) : part.2 = s := by
  unfold readPart at h
  split at h
  · split at h
    · obtain rfl := Option.some.inj h
      cases habsent
    · obtain ⟨ns, -, rfl⟩ := Option.map_eq_some_iff.mp h
      cases habsent
  · obtain rfl := Option.some.inj h
    rfl

theorem readParts_written {parts : Parts × Text} (h : readParts s = some parts) :
    (parts.1.patch.number?.isSome → parts.1.minor.number?.isSome) ∧
      ∃ d ds, s = d :: ds ∧ d.isDigit := by
  simp only [readParts, Option.bind_eq_bind, Option.bind_eq_some_iff] at h
  obtain ⟨major, hmajor, minor, hminor, patch, hpatch, h⟩ := h
  split at h
  · cases h
  · next hwild =>
    obtain ⟨suffix, -, heq⟩ := Option.bind_eq_some_iff.mp h
    obtain rfl := Option.some.inj heq
    refine ⟨fun hsome => ?_, readNumber_head hmajor⟩
    cases hkind : minor.1 with
    | number b => rfl
    | wildcard => exact absurd (by simpa [hkind] using hsome) hwild
    | absent =>
      rw [readPart_absent hminor hkind] at hpatch
      rw [← (Prod.mk.inj (Option.some.inj (hminor.symm.trans hpatch))).1, hkind] at hsome
      exact hsome

theorem readComparator_written (h : readComparator s = some (c, rest))
    (hop : isLowerBounded c.op) (hs : ∀ t ∈ s.head?, t ≠ ' ') :
    (c.patch.isSome → c.minor.isSome) ∧ ∃ token gap d ds, Token c.op token ∧
      (token = [] → gap = 0) ∧ Char.isDigit d ∧ s = token ++ (spaces gap ++ d :: ds) := by
  obtain ⟨parts, hparts, heq⟩ := Option.map_eq_some_iff.mp h
  obtain ⟨rfl, -⟩ := Prod.mk.inj heq
  have hfinal := finalOp_eq hop
  simp only [hfinal] at hop ⊢
  obtain ⟨token, htoken, hs'⟩ := readOp_token hop
  obtain ⟨gap, hgap⟩ := spaces_dropSpaces (readOp s).2.2
  obtain ⟨hsome, d, ds, hds, hd⟩ := readParts_written hparts
  rw [hds] at hgap
  refine ⟨hsome, token, gap, d, ds, htoken, ?_, hd, by rw [← hgap, ← hs']⟩
  rintro rfl
  rw [List.nil_append] at hs'
  by_contra hne
  obtain ⟨k, rfl⟩ := Nat.exists_eq_succ_of_ne_zero hne
  refine hs ' ' ?_ rfl
  rw [hs', hgap]
  rfl

theorem readAll_single {k : ℕ} (h : readAll k s = some [c]) :
    ∃ rest, readComparator s = some (c, rest) := by
  have hne : ∀ {k : ℕ} {s : Text}, readAll k s ≠ some [] := by
    intro k
    induction k with
    | zero => intro s h; cases h
    | succ k ih =>
      intro s h
      rw [readAll] at h
      split at h
      · cases h
      · cases h
      · obtain ⟨cs, -, hcs⟩ := Option.map_eq_some_iff.mp h
        cases hcs
      · cases h
  cases k with
  | zero => cases h
  | succ k =>
    rw [readAll] at h
    split at h
    · cases h
    · next c' hc =>
      obtain rfl := (List.cons.inj (Option.some.inj h)).1
      exact ⟨_, hc⟩
    · next c' s' hc =>
      obtain ⟨cs, hcs, heq⟩ := Option.map_eq_some_iff.mp h
      obtain ⟨rfl, rfl⟩ := List.cons.inj heq
      exact absurd hcs hne
    · cases h

theorem parse_written (h : parse s = some [c]) (hop : isLowerBounded c.op) :
    (c.patch.isSome → c.minor.isSome) ∧ ∃ lead token gap d ds, Token c.op token ∧
      (token = [] → gap = 0) ∧ Char.isDigit d ∧
      s = spaces lead ++ (token ++ (spaces gap ++ d :: ds)) := by
  rw [parse] at h
  split at h
  · split at h <;> cases h
  · obtain ⟨rest, hc⟩ := readAll_single h
    obtain ⟨lead, hlead⟩ := spaces_dropSpaces s
    obtain ⟨hparts, token, gap, d, ds, htoken, hgap, hd, hs⟩ :=
      readComparator_written hc hop (dropSpaces_head s)
    exact ⟨hparts, lead, token, gap, d, ds, htoken, hgap, hd, hs ▸ hlead⟩

/-! ### What is written is read -/

theorem dropSpaces_spaces (gap : ℕ) (h : ∀ t ∈ s.head?, t ≠ ' ') :
    dropSpaces (spaces gap ++ s) = s := by
  rw [dropSpaces, List.dropWhile_append_of_pos fun t ht => by
    rw [List.eq_of_mem_replicate ht]
    rfl]
  exact List.dropWhile_beq_eq_self_of_head?_ne fun hhead => h ' ' hhead rfl

/-- Only the number zero starts with a zero. -/
theorem eq_zero_of_head {n : ℕ} (h : (Nat.toDigits 10 n).head? = some '0') : n = 0 := by
  induction n using Nat.strongRecOn with
  | ind n ih =>
    rcases Nat.lt_or_ge n 10 with hlt | hge
    · rw [Nat.toDigits_of_lt_base hlt, List.head?_cons, Option.some.injEq] at h
      have hchars : ∀ m < 10, Nat.digitChar m = '0' → m = 0 := by decide
      exact hchars n hlt h
    · rw [Nat.toDigits_of_base_le (by decide) hge,
        List.head?_append_of_ne_nil _ Nat.toDigits_ne_nil] at h
      have hzero := ih (n / 10) (Nat.div_lt_self (by omega) (by decide)) h
      omega

theorem readNumber_number (n : UInt64) (h : ∀ t ∈ s.head?, t.isDigit = false) :
    readNumber (number n ++ s) = some (n, s) := by
  have hcut : (number n ++ s).takeWhile Char.isDigit = number n ∧
      (number n ++ s).dropWhile Char.isDigit = s := by
    rw [List.takeWhile_append_of_pos fun _ => isDigit_number,
      List.dropWhile_append_of_pos fun _ => isDigit_number]
    cases s with
    | nil => exact ⟨List.append_nil _, rfl⟩
    | cons t s =>
      have ht : ¬ t.isDigit = true := by simp [h t rfl]
      rw [List.takeWhile_cons_of_neg ht, List.dropWhile_cons_of_neg ht]
      exact ⟨List.append_nil _, rfl⟩
  have hzero : (number n).head? = some '0' → (number n).length = 1 := by
    intro hhead
    rw [number, eq_zero_of_head hhead, Nat.toDigits_zero]
    rfl
  have hvalue : Nat.ofDigitChars 10 (number n) 0 = n.toNat := Nat.ofDigitChars_ten_toDigits
  rw [readNumber, hcut.1, hcut.2, if_pos ⟨number_ne_nil n, hzero, hvalue ▸ n.toNat_lt⟩, hvalue,
    UInt64.ofNat_toNat]

theorem readPart_number (n : UInt64) (h : ∀ t ∈ s.head?, t.isDigit = false) :
    readPart ('.' :: (number n ++ s)) = some (.number n, s) := by
  have hwild : readWildcard (number n ++ s) = none := by
    obtain ⟨d, ds, hds⟩ := List.exists_cons_of_ne_nil (number_ne_nil n)
    have hd : d.isDigit := isDigit_number (hds ▸ List.mem_cons_self)
    rw [hds, List.cons_append]
    unfold readWildcard
    split
    · next heq => obtain ⟨rfl, -⟩ := List.cons.inj heq; cases hd
    · next heq => obtain ⟨rfl, -⟩ := List.cons.inj heq; cases hd
    · next heq => obtain ⟨rfl, -⟩ := List.cons.inj heq; cases hd
    · rfl
  simp only [readPart, hwild, readNumber_number n h, Option.map_some]

theorem mem_prerelease {t : Text} (h : isPrerelease t) {x : Char} (hx : x ∈ t) :
    isIdentOrDot x := by
  simp only [isPrerelease, Bool.or_eq_true, decide_eq_true_eq, List.all_eq_true,
    Bool.and_eq_true] at h
  rcases h with rfl | hids
  · cases hx
  · have hjoin : ['.'].intercalate (t.splitOn '.') = t := List.intercalate_splitOn '.'
    rw [← hjoin] at hx
    rcases Lines.mem_intercalate hx with rfl | ⟨id, hid, hx⟩
    · rfl
    · rw [isIdentOrDot, (hids id hid).1.2 x hx, Bool.true_or]

theorem readPre_written {pre : Prerelease} (h : pre.1 ≠ []) :
    readPre ('-' :: pre.1) = some (pre, []) := by
  have hall : ∀ x ∈ pre.1, isIdentOrDot x = true := fun x => mem_prerelease pre.2
  have htake : pre.1.takeWhile isIdentOrDot = pre.1 := List.takeWhile_eq_self_iff.mpr hall
  have hdrop : pre.1.dropWhile isIdentOrDot = [] := List.dropWhile_eq_nil_iff.mpr hall
  simp only [readPre, htake, hdrop, pre.2, h, if_false, dite_true]

theorem readSuffix_written (n : UInt64) (pre : Prerelease) :
    readSuffix (.number n) (if pre.1 = [] then [] else '-' :: pre.1) = some (pre, []) := by
  by_cases h : pre.1 = []
  · rw [if_pos h]
    exact congrArg (fun p => some (p, ([] : Text))) (Subtype.ext h.symm)
  · rw [if_neg h]
    simp only [readSuffix, readPre_written h, Option.bind_some]
    rfl

theorem readOp_written (h : Token op token) (hs : ∀ t ∈ s.head?, t = ' ' ∨ t.isDigit) :
    ∃ explicit, readOp (token ++ s) = (op, explicit, s) := by
  cases h with
  | exact => exact ⟨true, rfl⟩
  | greaterEq => exact ⟨true, rfl⟩
  | tilde => exact ⟨true, rfl⟩
  | caret => exact ⟨true, rfl⟩
  | greater =>
    refine ⟨true, ?_⟩
    change readOp ('>' :: s) = _
    unfold readOp
    split <;> simp_all
  | default =>
    refine ⟨false, ?_⟩
    change readOp s = _
    unfold readOp
    split <;> simp_all

theorem dot_notDigit (s : Text) : ∀ t ∈ ('.' :: s).head?, t.isDigit = false := by
  rintro t ⟨⟩
  rfl

theorem readParts_text (w : Partial) (op : Op) : ∃ parts : Parts, readParts w.text = some (parts, []) ∧
    (∀ explicit, finalOp op explicit parts.minor parts.patch = op) ∧
    (⟨op, parts.major, parts.minor.number?, parts.patch.number?, parts.pre⟩ : Comparator) =
      w.comparator op := by
  have hend : ∀ t ∈ ([] : Text).head?, t.isDigit = false := by simp
  have hnil : readPart [] = some (.absent, []) := rfl
  cases w with
  | major a =>
    have hmajor := readNumber_number a hend
    rw [List.append_nil] at hmajor
    exact ⟨⟨a, .absent, .absent, .empty⟩, by simp [readParts, Partial.text, hmajor, hnil,
      readSuffix, dropSpaces], by simp [finalOp], rfl⟩
  | minor a b =>
    have hmajor := readNumber_number a (dot_notDigit (number b))
    have hminor := readPart_number b hend
    rw [List.append_nil] at hminor
    exact ⟨⟨a, .number b, .absent, .empty⟩, by simp [readParts, Partial.text, hmajor, hminor, hnil,
      readSuffix, dropSpaces], by simp [finalOp], rfl⟩
  | patch a b p pre =>
    have hmajor := fun s => readNumber_number a (dot_notDigit s)
    have hminor := fun s => readPart_number b (dot_notDigit s)
    have hpatch := readPart_number p (s := if pre.1 = [] then [] else '-' :: pre.1) (by
      split
      · exact hend
      · rintro t ⟨⟩
        rfl)
    exact ⟨⟨a, .number b, .number p, pre⟩, by simp [readParts, Partial.text, hmajor, hminor, hpatch,
      readSuffix_written, dropSpaces], by simp [finalOp], rfl⟩

theorem readComparator_of_written {w : Partial} (h : Token op token) :
    readComparator (token ++ (spaces gap ++ w.text)) = some (w.comparator op, []) := by
  obtain ⟨d, ds, htext, hd⟩ := w.text_cons
  have hspace : ∀ t ∈ w.text.head?, t ≠ ' ' := by
    rw [htext]
    rintro t ⟨⟩ rfl
    cases hd
  have hhead : ∀ t ∈ (spaces gap ++ w.text).head?, t = ' ' ∨ t.isDigit := by
    cases gap with
    | zero =>
      rw [htext]
      rintro t ⟨⟩
      exact .inr hd
    | succ k =>
      rintro t ⟨⟩
      exact .inl rfl
  obtain ⟨explicit, hop⟩ := readOp_written h hhead
  obtain ⟨parts, hparts, hfinal, hcomparator⟩ := readParts_text w op
  simp only [readComparator, hop, dropSpaces_spaces gap hspace, hparts, Option.map_some, hfinal,
    hcomparator]

/-- A comparator starts with an operator or a digit. -/
theorem written_head {w : Partial} (h : Token op token) (hgap : token = [] → gap = 0) :
    ∃ t ts, token ++ (spaces gap ++ w.text) = t :: ts ∧ (t ∈ ['=', '>', '~', '^'] ∨ t.isDigit) := by
  obtain ⟨d, ds, htext, hd⟩ := w.text_cons
  cases h with
  | default => exact ⟨d, ds, by rw [hgap rfl, htext]; rfl, .inr hd⟩
  | exact => exact ⟨'=', _, rfl, .inl (by decide)⟩
  | greater => exact ⟨'>', _, rfl, .inl (by decide)⟩
  | greaterEq => exact ⟨'>', _, rfl, .inl (by decide)⟩
  | tilde => exact ⟨'~', _, rfl, .inl (by decide)⟩
  | caret => exact ⟨'^', _, rfl, .inl (by decide)⟩

theorem parse_of_written {w : Partial} (h : Token op token) (hgap : token = [] → gap = 0) :
    parse (token ++ (spaces gap ++ w.text)) = some [w.comparator op] := by
  obtain ⟨t, ts, hts, ht⟩ := written_head (w := w) h hgap
  have hdrop : dropSpaces (token ++ (spaces gap ++ w.text)) = token ++ (spaces gap ++ w.text) := by
    refine List.dropWhile_beq_eq_self_of_head?_ne fun hhead => ?_
    rw [hts, List.head?_cons] at hhead
    obtain rfl := Option.some.inj hhead
    exact absurd ht (by decide)
  have hwild : readWildcard (token ++ (spaces gap ++ w.text)) = none := by
    rw [hts]
    unfold readWildcard
    split
    · next heq => obtain ⟨rfl, -⟩ := List.cons.inj heq; exact absurd ht (by decide)
    · next heq => obtain ⟨rfl, -⟩ := List.cons.inj heq; exact absurd ht (by decide)
    · next heq => obtain ⟨rfl, -⟩ := List.cons.inj heq; exact absurd ht (by decide)
    · rfl
  simp only [parse, hdrop, hwild, readAll, readComparator_of_written h]

/-- The reader does what the documentation says. -/
theorem reader_documented : reader.Documented where
  reads _ _ h hop := parse_written h hop
  parses _ _ _ _ h hgap := parse_of_written h hgap
  admits cs v := by simp [reader, admits]

end Reader

end Anodizer.Bump
