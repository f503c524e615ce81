import Anodizer.Bump.VersionReq
import Anodizer.Lib.Squeeze

/-! # Raising a requirement

A requirement that is raised to a version keeps its operator and the number of components that its
author wrote. It admits the version, and raising it again changes nothing.
-/

namespace Anodizer.Bump

open Template (Text isWhitespace trim trimStart)
open Git

/-- What is written in front of the first digit, if there is a digit. -/
def beforeDigit (s : Text) : Option Text :=
  if s.any Char.isDigit then some (s.takeWhile (!·.isDigit)) else none

/-- The version with the components that the comparator has. A prerelease is written in full. -/
def renderAt (c : Comparator) (new : Version) : Text :=
  if new.pre.1 ≠ [] then
    number new.major ++ '.' :: (number new.minor ++ '.' :: (number new.patch ++ '-' :: new.pre.1))
  else
    match c.minor, c.patch with
    | none, _ => number new.major
    | some _, none => number new.major ++ '.' :: number new.minor
    | some _, some _ =>
      number new.major ++ '.' :: (number new.minor ++ '.' :: number new.patch)

section Crate

variable (crate : SemverCrate)

/-- The operator and the lowest version of a requirement of one comparator with a lower bound. -/
def requirementMinimum (spec : Text) : Option (Op × Version) :=
  match crate.parse spec with
  | some [c] =>
    if !isLowerBounded c.op then none
    else some (c.op, ⟨c.major, c.minor.getD 0, c.patch.getD 0, c.pre, []⟩)
  | _ => none

/-- The requirement at a new version, as precise as it was written. -/
def restyleRequirement (spec : Text) (new : Version) : Option Text :=
  match crate.parse spec with
  | some [c] =>
    if !isLowerBounded c.op then none
    else (beforeDigit (trim spec)).map fun written =>
      let op := if c.op = .greater then '>' :: '=' :: written.dropWhile (· == '>') else written
      op ++ renderAt c new
  | _ => none

/-- The minimum asks for the version, or for more. A minimum that is exclusive does not. -/
def upToDate (minOp : Op) (minimum want : Version) : Bool :=
  let order := crate.compare minimum want
  order = .gt || (order = .eq && minOp ≠ .greater)

/-- What a requirement that is stale for the version is raised to. -/
def healRequirement (spec : Text) (want : Version) : Option Text :=
  match requirementMinimum crate spec with
  | none => none
  | some (minOp, minimum) =>
    if upToDate crate minOp minimum want then none
    else (restyleRequirement crate spec want).filter (· ≠ spec)

end Crate

/-! ### The new requirement -/

variable {crate : SemverCrate} {spec next token : Text} {c : Comparator} {v : Version} {op : Op}

def keptOp (op : Op) : Op := if op = .greater then .greaterEq else op

/-- The version, as precise as the comparator is. A prerelease is written in full. -/
def restyled (c : Comparator) (v : Version) : Partial :=
  if v.pre.1 ≠ [] then .patch v.major v.minor v.patch v.pre
  else
    match c.minor, c.patch with
    | none, _ => .major v.major
    | some _, none => .minor v.major v.minor
    | some _, some _ => .patch v.major v.minor v.patch .empty

theorem isDigit_number {n : UInt64} {d : Char} (h : d ∈ number n) : d.isDigit := isDigit_toDigits h

theorem number_ne_nil (n : UInt64) : number n ≠ [] := Nat.toDigits_ne_nil

/-- A version starts with a digit. -/
theorem Partial.text_cons (w : Partial) : ∃ d rest, w.text = d :: rest ∧ d.isDigit := by
  have hnumber : ∀ (n : UInt64) (t : Text), ∃ d rest, number n ++ t = d :: rest ∧ d.isDigit := by
    intro n t
    obtain ⟨d, ds, hds⟩ := List.exists_cons_of_ne_nil (number_ne_nil n)
    exact ⟨d, ds ++ t, by rw [hds, List.cons_append], isDigit_number (hds ▸ List.mem_cons_self)⟩
  cases w with
  | major a => simpa [text] using hnumber a []
  | minor a b => exact hnumber a _
  | patch a b c pre => exact hnumber a _

theorem Token.notDigit (h : Token op token) : ∀ t ∈ token, t.isDigit = false := by
  have hall : token.all (!·.isDigit) = true := by cases h <;> rfl
  intro t ht
  simpa using List.all_eq_true.mp hall t ht

theorem not_isDigit_of_spaces {n : ℕ} {t : Char} (h : t ∈ spaces n) : t.isDigit = false := by
  obtain rfl := List.eq_of_mem_replicate h
  rfl

theorem spaces_dropWhile {n : ℕ} {s : Text} (h : ∀ t ∈ s.head?, isWhitespace t = false) :
    (spaces n ++ s).dropWhile isWhitespace = s := by
  rw [List.dropWhile_append_of_pos fun t ht => by rw [List.eq_of_mem_replicate ht]; rfl]
  cases s with
  | nil => rfl
  | cons t s => rw [List.dropWhile_cons_of_neg (by simp [h t rfl])]

theorem isWhitespace_of_isDigit {d : Char} (h : d.isDigit) : isWhitespace d = false := by
  simp only [Char.isDigit, Bool.and_eq_true, decide_eq_true_eq, UInt32.le_iff_toNat_le] at h
  obtain ⟨hlo, hhi⟩ := h
  have h48 : '0'.val.toNat = 48 := rfl
  have h57 : '9'.val.toNat = 57 := rfl
  have hn : d.toNat = d.val.toNat := rfl
  simp only [isWhitespace, Bool.or_eq_false_iff, Bool.and_eq_false_iff, decide_eq_false_iff_not,
    beq_eq_false_iff_ne]
  omega

theorem Token.not_isWhitespace (h : Token op token) : ∀ t ∈ token, isWhitespace t = false := by
  have hall : token.all (!isWhitespace ·) = true := by cases h <;> rfl
  intro t ht
  simpa using List.all_eq_true.mp hall t ht

/-- The operator of a requirement, with the spaces behind it. -/
theorem beforeDigit_trim {lead gap : ℕ} {d : Char} {rest : Text} (h : Token op token)
    (hgap : token = [] → gap = 0) (hd : d.isDigit) :
    beforeDigit (trim (spaces lead ++ (token ++ (spaces gap ++ d :: rest)))) =
      some (token ++ spaces gap) := by
  have hstart : trimStart (spaces lead ++ (token ++ (spaces gap ++ d :: rest))) =
      (token ++ spaces gap) ++ d :: rest := by
    rw [trimStart, spaces_dropWhile, List.append_assoc]
    intro t ht
    cases token with
    | nil =>
      obtain rfl := hgap rfl
      obtain rfl : d = t := by simpa [spaces] using ht
      exact isWhitespace_of_isDigit hd
    | cons t' token =>
      obtain rfl : t' = t := by simpa using ht
      exact h.not_isWhitespace _ List.mem_cons_self
  have htrim : trim (spaces lead ++ (token ++ (spaces gap ++ d :: rest))) =
      (token ++ spaces gap) ++ d :: rest.rdropWhile isWhitespace := by
    rw [trim, hstart]
    exact Squeeze.rdropWhile_append_cons (isWhitespace_of_isDigit hd) _ _
  have hnotDigit : ∀ t ∈ token ++ spaces gap, (!t.isDigit) = true := by
    intro t ht
    rcases List.mem_append.mp ht with ht | ht
    · rw [h.notDigit t ht, Bool.not_false]
    · rw [not_isDigit_of_spaces ht, Bool.not_false]
  rw [htrim, beforeDigit, if_pos (by simp [hd]), List.takeWhile_append_of_pos hnotDigit,
    List.takeWhile_cons_of_neg (by simp [hd]), List.append_nil]

/-! ### Restyling -/

/-- The text of the kept operator: `>` becomes `>=`. -/
def keptToken (op : Op) (token : Text) : Text := if op = .greater then ['>', '='] else token

theorem Token.kept (h : Token op token) : Token (keptOp op) (keptToken op token) := by
  cases h
  case greater => exact .greaterEq
  all_goals constructor

theorem Token.kept_eq_nil (h : Token op token) (hnil : keptToken op token = []) : token = [] := by
  cases h <;> simp_all [keptToken]

theorem spaces_not_greater {n : ℕ} : (spaces n).dropWhile (· == '>') = spaces n := by
  cases n <;> rfl

/-- The operator that restyling writes. -/
theorem Token.restyle_op (h : Token op token) (gap : ℕ) :
    (if op = .greater then '>' :: '=' :: (token ++ spaces gap).dropWhile (· == '>')
      else token ++ spaces gap) = keptToken op token ++ spaces gap := by
  cases h <;> simp [keptToken, spaces_not_greater]

theorem renderAt_eq (c : Comparator) (v : Version) : renderAt c v = (restyled c v).text := by
  rw [renderAt, restyled]
  by_cases hpre : v.pre.1 = []
  · rw [if_neg (not_not.mpr hpre), if_neg (not_not.mpr hpre)]
    rcases c.minor with - | b
    · rfl
    · rcases c.patch with - | p
      · rfl
      · simp [Partial.text, Prerelease.empty]
  · rw [if_pos hpre, if_pos hpre, Partial.text, if_neg hpre]

/-- A requirement of one comparator with a lower bound. -/
theorem requirementMinimum_some {minimum : Version}
    (h : requirementMinimum crate spec = some (op, minimum)) :
    ∃ c, crate.parse spec = some [c] ∧ c.op = op ∧ isLowerBounded c.op := by
  rw [requirementMinimum] at h
  split at h
  · next c hparse =>
    split at h
    · cases h
    · next hop =>
      obtain ⟨rfl, -⟩ := Prod.mk.inj (Option.some.inj h)
      exact ⟨c, hparse, rfl, by simpa using hop⟩
  · cases h

/-- The kept operator in front of the version. -/
theorem restyle_of_written {lead gap : ℕ} {d : Char} {rest : Text}
    (hparse : crate.parse (spaces lead ++ (token ++ (spaces gap ++ d :: rest))) = some [c])
    (hop : isLowerBounded c.op) (h : Token c.op token) (hgap : token = [] → gap = 0)
    (hd : d.isDigit) (v : Version) :
    restyleRequirement crate (spaces lead ++ (token ++ (spaces gap ++ d :: rest))) v =
      some (keptToken c.op token ++ (spaces gap ++ (restyled c v).text)) := by
  simp only [restyleRequirement, hparse, hop, Bool.not_true, if_neg Bool.false_ne_true,
    beforeDigit_trim h hgap hd, Option.map_some, h.restyle_op, renderAt_eq, List.append_assoc]

/-- The new requirement is read as the version, behind the kept operator. -/
theorem parse_restyled (hdoc : crate.Documented) {gap : ℕ} (h : Token c.op token)
    (hgap : token = [] → gap = 0) (v : Version) :
    crate.parse (keptToken c.op token ++ (spaces gap ++ (restyled c v).text)) =
      some [(restyled c v).comparator (keptOp c.op)] :=
  hdoc.parses _ _ gap _ h.kept fun hnil => hgap (h.kept_eq_nil hnil)

theorem restyled_restyled (c : Comparator) (v : Version) (op : Op) :
    restyled ((restyled c v).comparator op) v = restyled c v := by
  by_cases hpre : v.pre.1 = []
  · rcases hminor : c.minor with - | b
    · simp [restyled, hpre, hminor, Partial.comparator]
    · rcases hpatch : c.patch with - | p
      · simp [restyled, hpre, hminor, hpatch, Partial.comparator]
      · simp [restyled, hpre, hminor, hpatch, Partial.comparator]
  · simp [restyled, hpre]

theorem isLowerBounded_keptOp (h : isLowerBounded op) : isLowerBounded (keptOp op) := by
  cases op <;> first | rfl | exact h

theorem comparator_op (w : Partial) (op : Op) : (w.comparator op).op = op := by cases w <;> rfl

theorem keptToken_keptToken (h : Token op token) :
    keptToken (keptOp op) (keptToken op token) = keptToken op token := by
  cases h <;> rfl

/-- What restyling makes of a requirement. -/
structure Restyled (crate : SemverCrate) (spec : Text) (c : Comparator) (v : Version)
    (next : Text) : Prop where
  restyle : restyleRequirement crate spec v = some next
  parse : crate.parse next = some [(restyled c v).comparator (keptOp c.op)]
  again : restyleRequirement crate next v = some next

/-- Restyling gives a requirement of the kept operator and the version, and changes it no more. -/
theorem exists_restyled (hdoc : crate.Documented) (hparse : crate.parse spec = some [c])
    (hop : isLowerBounded c.op) (v : Version) : ∃ next, Restyled crate spec c v next := by
  obtain ⟨-, lead, token, gap, d, rest, htoken, hgap, hd, rfl⟩ := hdoc.reads spec c hparse hop
  have hnext := parse_restyled hdoc htoken hgap v
  refine ⟨_, restyle_of_written hparse hop htoken hgap hd v, hnext, ?_⟩
  obtain ⟨d', rest', htext, hd'⟩ := (restyled c v).text_cons
  rw [htext] at hnext ⊢
  have hop' : isLowerBounded ((restyled c v).comparator (keptOp c.op)).op := by
    rw [comparator_op]
    exact isLowerBounded_keptOp hop
  have htoken' : Token ((restyled c v).comparator (keptOp c.op)).op (keptToken c.op token) := by
    rw [comparator_op]
    exact htoken.kept
  have hagain := @restyle_of_written _ _ _ 0 _ _ _ hnext hop' htoken'
    (fun hnil => hgap (htoken.kept_eq_nil hnil)) hd' v
  rw [comparator_op, keptToken_keptToken htoken, restyled_restyled, htext] at hagain
  exact hagain

/-! ### What the new requirement admits -/

/-- A comparator that names the version, up to components that are left out. -/
structure Names (c : Comparator) (v : Version) : Prop where
  major : c.major = v.major
  minor : ∀ b ∈ c.minor, b = v.minor
  patch : ∀ p ∈ c.patch, p = v.patch
  pre : c.patch.isSome → c.pre = v.pre
  release : v.pre.1 = [] → c.pre.1 = []
  full : v.pre.1 ≠ [] → c.minor.isSome ∧ c.patch.isSome

theorem names_restyled (c : Comparator) (v : Version) (op : Op) :
    Names ((restyled c v).comparator op) v := by
  by_cases hpre : v.pre.1 = []
  · have hempty : Prerelease.empty = v.pre := Subtype.ext hpre.symm
    rw [restyled, if_neg (not_not.mpr hpre)]
    rcases c.minor with - | b
    · exact ⟨rfl, by simp [Partial.comparator], by simp [Partial.comparator],
        by simp [Partial.comparator], fun _ => rfl, fun h => absurd hpre h⟩
    · rcases c.patch with - | p
      · exact ⟨rfl, by simp [Partial.comparator], by simp [Partial.comparator],
          by simp [Partial.comparator], fun _ => rfl, fun h => absurd hpre h⟩
      · exact ⟨rfl, by simp [Partial.comparator], by simp [Partial.comparator], fun _ => hempty,
          fun _ => rfl, fun h => absurd hpre h⟩
  · rw [restyled, if_pos hpre]
    exact ⟨rfl, by simp [Partial.comparator], by simp [Partial.comparator], fun _ => rfl,
      fun h => absurd h hpre, fun _ => ⟨rfl, rfl⟩⟩

theorem then_ne_gt {o o' : Ordering} (h : o ≠ .gt) (h' : o' ≠ .gt) : o.then o' ≠ .gt := by
  cases o with
  | lt => exact Ordering.noConfusion
  | eq => exact h'
  | gt => exact absurd rfl h

theorem cmp_ne_gt {m n : ℕ} (h : m ≤ n) : cmp m n ≠ .gt := fun heq =>
  absurd ((cmp_compares m n).eq_gt.mp heq) (Nat.not_lt.mpr h)

/-- The lowest version that the comparator names is not above the version. -/
theorem Names.floor_le (h : Names c v) :
    Spec.precedence c.floor.semver v.semver ≠ .gt := by
  have hget : ∀ {o : Option UInt64} {n : UInt64}, (∀ b ∈ o, b = n) →
      (o.getD 0).toNat ≤ n.toNat := by
    intro o n ho
    cases o with
    | none => exact Nat.zero_le _
    | some b => rw [ho b rfl, Option.getD_some]
  refine then_ne_gt (cmp_ne_gt (congrArg UInt64.toNat h.major).le) (then_ne_gt (cmp_ne_gt (hget h.minor))
    (then_ne_gt (cmp_ne_gt (hget h.patch)) ?_))
  have hpre : c.pre.1 = v.pre.1 := by
    by_cases hv : v.pre.1 = []
    · rw [hv, h.release hv]
    · rw [h.pre (h.full hv).2]
  simp only [Version.semver, Comparator.floor, hpre, spec_prerelease_self]
  exact Ordering.noConfusion

theorem Names.all_minor (h : Names c v) : c.minor.all (· = v.minor) := by
  rcases hminor : c.minor with - | b
  · rfl
  · simp [h.minor b hminor]

theorem Names.all_patch (h : Names c v) : c.patch.all (· = v.patch) := by
  rcases hpatch : c.patch with - | p
  · rfl
  · simp [h.patch p hpatch]

theorem Names.inRange (h : Names c v) (hop : isLowerBounded c.op) (hne : c.op ≠ .greater) :
    c.inRange v := by
  have hsame : c.sameAs v := by simp [Comparator.sameAs, h.major, h.all_minor, h.all_patch]
  have hpre : c.patch.isNone || decide (c.pre = v.pre) := by
    rcases hpatch : c.patch with - | p
    · rfl
    · simp [h.pre (by rw [hpatch]; rfl)]
  have hminor : c.minor.all fun b => b = v.minor && (b ≠ 0 || c.patch.all (· = v.patch)) := by
    rcases hminor : c.minor with - | b
    · rfl
    · simp [h.minor b hminor, h.all_patch]
  unfold Comparator.inRange
  cases hc : c.op with
  | greater => exact absurd hc hne
  | exact => simp [hsame, hpre]
  | greaterEq => simp [h.floor_le]
  | tilde => simp [h.floor_le, h.major, h.all_minor]
  | caret =>
    simp only [h.floor_le, h.major, hminor, ne_eq, not_false_eq_true, decide_true, Bool.or_true,
      Bool.and_self]
  | less => rw [hc] at hop; cases hop
  | lessEq => rw [hc] at hop; cases hop
  | wildcard => rw [hc] at hop; cases hop

/-- A library as documented admits the version where a comparator with a lower bound, other than
`>`, names it. -/
theorem Names.admits (h : Names c v) (hdoc : crate.Documented) (hop : isLowerBounded c.op)
    (hne : c.op ≠ .greater) : crate.admits [c] v := by
  refine (hdoc.admits _ _).mpr ⟨?_, ?_⟩
  · rintro c' hc'
    obtain rfl := List.mem_singleton.mp hc'
    exact h.inRange hop hne
  · by_cases hpre : v.pre.1 = []
    · exact .inl hpre
    · obtain ⟨hminor, hpatch⟩ := h.full hpre
      obtain ⟨b, hb⟩ := Option.isSome_iff_exists.mp hminor
      obtain ⟨p, hp⟩ := Option.isSome_iff_exists.mp hpatch
      refine .inr ⟨c, List.mem_singleton_self c, ?_⟩
      simp [Comparator.allowsPre, h.major, h.pre hpatch, hpre, hb, hp, h.minor b hb, h.patch p hp]

end Anodizer.Bump
