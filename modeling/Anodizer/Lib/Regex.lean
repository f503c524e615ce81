import Anodizer.Lib.Scan
import Mathlib.Order.Basic

/-! # Regular expressions

A backtracking matcher for leftmost-first search. The matches at a position are
listed in order of priority, and a search takes the first one.
-/

namespace Regex

/-- Patterns. `star true` is greedy and `star false` lazy. -/
inductive Re
  | empty
  | char (p : Char → Bool)
  | seq (a b : Re)
  | alt (a b : Re)
  | star (greedy : Bool) (a : Re)
  | group (name : String) (a : Re)
  | textStart
  | textEnd
  | wordBoundary (word : Char → Bool)

/-- A match: its text, the input after it and the captured groups. -/
structure Found where
  text : List Char
  rest : List Char
  groups : List (String × List Char)
  deriving DecidableEq

namespace Found

/-- The text of a captured group, if the group took part in the match. -/
def get? (m : Found) (name : String) : Option (List Char) := m.groups.lookup name

/-- The text of a captured group, empty where the group took no part. -/
def get (m : Found) (name : String) : List Char := (m.get? name).getD []

end Found

/-- The character before the input once `text` has been read. -/
def before (prev : Option Char) (text : List Char) : Option Char := text.getLast?.or prev

theorem before_append (prev : Option Char) (s t : List Char) :
    before prev (s ++ t) = before (before prev s) t := by
  simp [before, List.getLast?_append, Option.or_assoc]

/-- A word character stands on exactly one side. -/
def atBoundary (word : Char → Bool) (prev : Option Char) (rest : List Char) : Bool :=
  prev.any word != rest.head?.any word

/-- Repetitions of a matcher, at most `n` of them, none of an empty text. -/
def repeats (r : Option Char → List Char → List Found) (greedy : Bool) :
    ℕ → Option Char → List Char → List Found
  | 0, _, s => [⟨[], s, []⟩]
  | n + 1, prev, s =>
    let more := ((r prev s).filter (·.text ≠ [])).flatMap fun m =>
      (repeats r greedy n (before prev m.text) m.rest).map fun k =>
        ⟨m.text ++ k.text, k.rest, k.groups ++ m.groups⟩
    if greedy then more ++ [⟨[], s, []⟩] else ⟨[], s, []⟩ :: more

namespace Re

/-- The matches at the start of `s`, first the one that takes priority. -/
def results : Re → Option Char → List Char → List Found
  | empty, _, s => [⟨[], s, []⟩]
  | char _, _, [] => []
  | char p, _, c :: s => if p c then [⟨[c], s, []⟩] else []
  | seq a b, prev, s => (a.results prev s).flatMap fun m =>
      (b.results (before prev m.text) m.rest).map fun k =>
        ⟨m.text ++ k.text, k.rest, k.groups ++ m.groups⟩
  | alt a b, prev, s => a.results prev s ++ b.results prev s
  | star greedy a, prev, s => repeats a.results greedy s.length prev s
  | group name a, prev, s => (a.results prev s).map fun m =>
      { m with groups := (name, m.text) :: m.groups }
  | textStart, prev, s => if prev.isNone then [⟨[], s, []⟩] else []
  | textEnd, _, s => if s.isEmpty then [⟨[], s, []⟩] else []
  | wordBoundary word, prev, s => if atBoundary word prev s then [⟨[], s, []⟩] else []

/-- A literal text. -/
def lit (s : String) : Re := s.toList.foldr (fun c r => seq (char (· == c)) r) empty

/-- A sequence of patterns. -/
def cat (rs : List Re) : Re := rs.foldr seq empty

def plus (greedy : Bool) (a : Re) : Re := seq a (star greedy a)

def opt (a : Re) : Re := alt a empty

end Re

/-! ### Search -/

/-- The match at a position, in view of the character before it. -/
def first (r : Re) (prev : Option Char) (s : List Char) : Option Found := (r.results prev s).head?

/-- The match at the very start of a text. -/
def matchStart (r : Re) (s : List Char) : Option Found := first r none s

/-- A piece of a searched text: a character outside the matches, or a match. -/
inductive Piece
  | plain (c : Char)
  | hit (m : Found)

namespace Piece

def text : Piece → List Char
  | plain c => [c]
  | hit m => m.text

end Piece

/-- One step of a search for a pattern that does not match the empty text. -/
def searchStep (r : Re) (prev : Option Char) (c : Char) (cs : List Char) :
    Scan.Step (Option Char) Char Piece :=
  match first r prev (c :: cs) with
  | none => ⟨[.plain c], some c, cs⟩
  | some m =>
    if m.text = [] then ⟨[.plain c], some c, cs⟩
    else ⟨[.hit m], before prev m.text, m.rest⟩

/-- The text cut at the matches a search finds from left to right. -/
def pieces (r : Re) (s : List Char) : List Piece := Scan.scan (searchStep r) none s

/-- Replace every match. -/
def replaceAll (r : Re) (f : Found → List Char) (s : List Char) : List Char :=
  (pieces r s).flatMap fun
    | .plain c => [c]
    | .hit m => f m

/-- The matches of a search. -/
def findIter (r : Re) (s : List Char) : List Found :=
  (pieces r s).filterMap fun
    | .plain _ => none
    | .hit m => some m

/-! ### The language of a pattern -/

/-- What a pattern relates: the character before, the text read, the rest and the groups. -/
abbrev Rel := Option Char → List Char → List Char → List (String × List Char) → Prop

/-- Repetitions of a relation, none of an empty text. -/
inductive Many (R : Rel) : Rel
  | none {prev rest} : Many R prev [] rest []
  | more {prev t v rest g k} (ht : t ≠ []) (hR : R prev t (v ++ rest) g)
      (hv : Many R (before prev t) v rest k) : Many R prev (t ++ v) rest (k ++ g)

namespace Re

/-- The texts of a pattern, with the groups they capture. -/
def Reads : Re → Rel
  | empty, _, t, _, g => t = [] ∧ g = []
  | char p, _, t, _, g => (∃ c, p c ∧ t = [c]) ∧ g = []
  | seq a b, prev, t, rest, g => ∃ x y gx gy, t = x ++ y ∧ g = gy ++ gx ∧
      a.Reads prev x (y ++ rest) gx ∧ b.Reads (before prev x) y rest gy
  | alt a b, prev, t, rest, g => a.Reads prev t rest g ∨ b.Reads prev t rest g
  | star _ a, prev, t, rest, g => Many a.Reads prev t rest g
  | group name a, prev, t, rest, g => ∃ k, g = (name, t) :: k ∧ a.Reads prev t rest k
  | textStart, prev, t, _, g => t = [] ∧ g = [] ∧ prev = none
  | textEnd, _, t, rest, g => t = [] ∧ g = [] ∧ rest = []
  | wordBoundary word, prev, t, rest, g => t = [] ∧ g = [] ∧ atBoundary word prev rest

/-- A matcher lists exactly the texts of a relation. -/
def Lists (f : Option Char → List Char → List Found) (R : Rel) (n : ℕ) : Prop :=
  ∀ prev s m, s.length ≤ n →
    (m ∈ f prev s ↔ s = m.text ++ m.rest ∧ R prev m.text m.rest m.groups)

theorem mem_nil_match {s : List Char} {m : Found} :
    m ∈ [(⟨[], s, []⟩ : Found)] ↔ m.text = [] ∧ m.rest = s ∧ m.groups = [] := by
  cases m
  simp

theorem mem_repeats {f : Option Char → List Char → List Found} {greedy : Bool} {n : ℕ}
    {prev : Option Char} {s : List Char} {m : Found} :
    m ∈ repeats f greedy (n + 1) prev s ↔ m ∈ [(⟨[], s, []⟩ : Found)] ∨
      ∃ a ∈ f prev s, a.text ≠ [] ∧ ∃ k ∈ repeats f greedy n (before prev a.text) a.rest,
        ⟨a.text ++ k.text, k.rest, k.groups ++ a.groups⟩ = m := by
  cases greedy <;>
    simp only [repeats, Bool.false_eq_true, if_true, if_false, List.mem_cons, List.mem_append,
      List.mem_flatMap, List.mem_filter, List.mem_map, decide_eq_true_eq, List.not_mem_nil,
      or_false, and_assoc]
  exact or_comm

theorem lists_repeats {f : Option Char → List Char → List Found} {R : Rel} {n : ℕ}
    (h : Lists f R n) (greedy : Bool) : Lists (repeats f greedy n) (Many R) n := by
  suffices key : ∀ k ≤ n, Lists (repeats f greedy k) (Many R) k from key n (Nat.le_refl n)
  intro k hk
  induction k with
  | zero =>
    rintro prev s ⟨t, rest, g⟩ hs
    obtain rfl := List.length_eq_zero_iff.mp (Nat.le_zero.mp hs)
    rw [repeats, mem_nil_match]
    constructor
    · rintro ⟨rfl, rfl, rfl⟩
      exact ⟨rfl, .none⟩
    · rintro ⟨hs, hM⟩
      obtain ⟨rfl, rfl⟩ := List.append_eq_nil_iff.mp hs.symm
      generalize ht : ([] : List Char) = t at hM
      cases hM with
      | none => exact ⟨rfl, rfl, rfl⟩
      | more hne => exact absurd (List.append_eq_nil_iff.mp ht.symm).1 hne
  | succ k ih =>
    rintro prev s ⟨t, rest, g⟩ hs
    rw [mem_repeats, mem_nil_match]
    constructor
    · rintro (⟨rfl, rfl, rfl⟩ | ⟨a, ha, hne, b, hb, heq⟩)
      · exact ⟨rfl, .none⟩
      · cases heq
        obtain ⟨rfl, hR⟩ := (h prev s a (Nat.le_trans hs hk)).mp ha
        have hpos := List.length_pos_iff.mpr hne
        rw [List.length_append] at hs
        obtain ⟨hrest, hM⟩ := (ih (by omega) _ _ b (by omega)).mp hb
        rw [hrest] at hR ⊢
        exact ⟨(List.append_assoc _ _ _).symm, .more hne hR hM⟩
    · rintro ⟨rfl, hM⟩
      cases hM with
      | none => exact .inl ⟨rfl, rfl, rfl⟩
      | @more _ t v _ gt k' hne hR hM =>
        right
        have hpos := List.length_pos_iff.mpr hne
        simp only [List.append_eq, List.length_append] at hs
        refine ⟨⟨t, v ++ rest, gt⟩, ?_, hne, ⟨v, rest, k'⟩, ?_, rfl⟩
        · refine (h _ _ _ ?_).mpr ⟨List.append_assoc _ _ _, hR⟩
          simp only [List.append_eq, List.length_append]
          omega
        · refine (ih (by omega) _ _ _ ?_).mpr ⟨rfl, hM⟩
          simp only [List.length_append]
          omega

/-- The matcher lists exactly the texts of the pattern. -/
theorem mem_results {r : Re} {prev : Option Char} {s : List Char} {m : Found} :
    m ∈ r.results prev s ↔ s = m.text ++ m.rest ∧ r.Reads prev m.text m.rest m.groups := by
  have hnil {P : Prop} {t rest s : List Char} {g : List (String × List Char)} [Decidable P] :
      (⟨t, rest, g⟩ : Found) ∈ (if P then [⟨[], s, []⟩] else []) ↔
        s = t ++ rest ∧ t = [] ∧ g = [] ∧ P := by
    split <;> grind
  induction r generalizing prev s m with
  | empty => cases m; simp only [results, Reads, mem_nil_match]; grind
  | char p =>
    obtain ⟨t, rest, g⟩ := m
    cases s with
    | nil => simp [results, Reads]; grind
    | cons c s => simp only [results, Reads]; split <;> grind
  | seq a b iha ihb =>
    obtain ⟨t, rest, g⟩ := m
    simp only [results, Reads, List.mem_flatMap, List.mem_map, iha, ihb]
    constructor
    · rintro ⟨x, ⟨rfl, ha⟩, y, ⟨hy, hb⟩, heq⟩
      cases heq
      rw [hy] at ha ⊢
      exact ⟨(List.append_assoc _ _ _).symm, _, _, _, _, rfl, rfl, ha, hb⟩
    · rintro ⟨rfl, x, y, gx, gy, rfl, rfl, ha, hb⟩
      exact ⟨⟨x, y ++ rest, gx⟩, ⟨List.append_assoc _ _ _, ha⟩, ⟨y, rest, gy⟩, ⟨rfl, hb⟩, rfl⟩
  | alt a b iha ihb =>
    simp only [results, Reads, List.mem_append, iha, ihb]
    exact and_or_left.symm
  | star greedy a ih =>
    exact lists_repeats (f := a.results) (R := a.Reads) (fun _ _ _ _ => ih) greedy prev s m
      (Nat.le_refl _)
  | group name a ih =>
    obtain ⟨t, rest, g⟩ := m
    simp only [results, Reads, List.mem_map, ih]
    constructor
    · rintro ⟨k, ⟨rfl, hk⟩, heq⟩
      cases heq
      exact ⟨rfl, _, rfl, hk⟩
    · rintro ⟨rfl, k, rfl, hk⟩
      exact ⟨⟨t, rest, k⟩, ⟨rfl, hk⟩, rfl⟩
  | textStart => cases m; simp only [results, Reads, Option.isNone_iff_eq_none, hnil]
  | textEnd => cases m; simp only [results, Reads, List.isEmpty_iff, hnil]; grind
  | wordBoundary word => cases m; simp only [results, Reads, hnil]; grind

end Re

variable {r : Re} {prev : Option Char} {s : List Char} {m : Found}

theorem first_sound (h : first r prev s = some m) :
    s = m.text ++ m.rest ∧ r.Reads prev m.text m.rest m.groups :=
  Re.mem_results.mp (List.mem_of_mem_head? h)

/-- The text read so far, when a search reaches a position. -/
def At (s : List Char) (prev : Option Char) (cs : List Char) : Prop :=
  ∃ pre, s = pre ++ cs ∧ prev = pre.getLast?

theorem At.skip {t cs : List Char} (h : At s prev (t ++ cs)) : At s (before prev t) cs := by
  obtain ⟨pre, hs, rfl⟩ := h
  exact ⟨pre ++ t, by rw [hs, List.append_assoc], by simp [before, List.getLast?_append]⟩

/-- A match of the pattern somewhere in a text, after `pre`. -/
def MatchIn (r : Re) (s pre : List Char) (m : Found) : Prop :=
  s = pre ++ (m.text ++ m.rest) ∧ m.text ≠ [] ∧ r.Reads pre.getLast? m.text m.rest m.groups

/-- The pattern occurs in a text. -/
def Occurs (r : Re) (s : List Char) : Prop := ∃ pre m, MatchIn r s pre m

/-- A step of a search emits a character or a match in the text. -/
theorem searchStep_cases {c : Char} {cs : List Char} (hat : At s prev (c :: cs)) :
    searchStep r prev c cs = ⟨[.plain c], some c, cs⟩ ∨
      ∃ pre m, MatchIn r s pre m ∧ m.text ++ m.rest = c :: cs ∧
        searchStep r prev c cs = ⟨[.hit m], before prev m.text, m.rest⟩ := by
  obtain ⟨pre, hs, rfl⟩ := hat
  unfold searchStep
  split
  · exact .inl rfl
  · next m hm =>
    obtain ⟨hcs, hr⟩ := first_sound hm
    split
    · exact .inl rfl
    · next hne => exact .inr ⟨pre, m, ⟨by rw [hs, hcs], hne, hr⟩, hcs.symm, rfl⟩

theorem searchStep_faithful (r : Re) (s : List Char) :
    Scan.Faithful (searchStep r) Piece.text (At s) := by
  intro prev c cs hat
  rcases searchStep_cases (r := r) hat with h | ⟨pre, m, ⟨-, hne, -⟩, hcs, h⟩ <;> rw [h]
  · exact ⟨rfl, Nat.le_refl _, hat.skip (t := [c])⟩
  · refine ⟨by simpa [Piece.text] using hcs, ?_, (hcs ▸ hat).skip⟩
    have hlen := congrArg List.length hcs
    have hpos := List.length_pos_iff.mpr hne
    simp only [List.length_cons, List.length_append] at hlen ⊢
    omega

/-- The pieces of a search make up the text. -/
theorem pieces_text (r : Re) (s : List Char) : (pieces r s).flatMap Piece.text = s :=
  Scan.scan_faithful (searchStep_faithful r s) ⟨[], rfl, rfl⟩

/-- Every match a search finds is a match in the text. -/
theorem matchIn_of_hit (h : .hit m ∈ pieces r s) : ∃ pre, MatchIn r s pre m := by
  refine Scan.forall_scan (P := fun p => ∀ m, p = .hit m → ∃ pre, MatchIn r s pre m) (I := At s)
    ?_ ⟨[], rfl, rfl⟩ _ h m rfl
  intro prev c cs hat
  rcases searchStep_cases (r := r) hat with h | ⟨pre, m, hm, hcs, h⟩ <;> rw [h]
  · exact ⟨by simp, hat.skip (t := [c])⟩
  · refine ⟨?_, (hcs ▸ hat).skip⟩
    simp only [List.mem_singleton, forall_eq, Piece.hit.injEq]
    rintro _ rfl
    exact ⟨pre, hm⟩

/-- A replacement that keeps every match keeps the text. -/
theorem replaceAll_id {f : Found → List Char} (h : ∀ pre m, MatchIn r s pre m → f m = m.text) :
    replaceAll r f s = s := by
  calc replaceAll r f s = (pieces r s).flatMap Piece.text := by
        apply List.flatMap_congr
        intro p hp
        cases p with
        | plain c => rfl
        | hit m =>
          obtain ⟨pre, hm⟩ := matchIn_of_hit hp
          exact h pre m hm
    _ = s := pieces_text r s

theorem occurs_iff_results : Occurs r s ↔ ∃ i ∈ List.range (s.length + 1),
    ∃ m ∈ r.results (s.take i).getLast? (s.drop i), m.text ≠ [] := by
  constructor
  · rintro ⟨pre, m, hs, hne, hr⟩
    refine ⟨pre.length, ?_, m, ?_, hne⟩
    · rw [List.mem_range, hs, List.length_append]
      omega
    · rw [hs, List.take_left, List.drop_left]
      exact Re.mem_results.mpr ⟨rfl, hr⟩
  · rintro ⟨i, -, m, hm, hne⟩
    obtain ⟨hs, hr⟩ := Re.mem_results.mp hm
    exact ⟨s.take i, m, by rw [← hs, List.take_append_drop], hne, hr⟩

instance : Decidable (Occurs r s) := decidable_of_iff _ occurs_iff_results.symm

theorem replaceAll_of_not_occurs {f : Found → List Char} (h : ¬ Occurs r s) :
    replaceAll r f s = s :=
  replaceAll_id fun pre m hm => absurd ⟨pre, m, hm⟩ h

/-! ### Literal texts and patterns without groups -/

namespace Re

@[simp] theorem reads_lit {w : String} {t rest : List Char} {g : List (String × List Char)} :
    (lit w).Reads prev t rest g ↔ t = w.toList ∧ g = [] := by
  unfold lit
  induction w.toList generalizing prev t rest g with
  | nil => rfl
  | cons c cs ih =>
    simp only [List.foldr_cons, Reads, ih, beq_iff_eq]
    constructor
    · rintro ⟨x, y, gx, gy, rfl, rfl, ⟨⟨d, rfl, rfl⟩, rfl⟩, rfl, rfl⟩
      exact ⟨rfl, rfl⟩
    · rintro ⟨rfl, rfl⟩
      exact ⟨[c], cs, [], [], rfl, rfl, ⟨⟨c, rfl, rfl⟩, rfl⟩, rfl, rfl⟩

@[simp] theorem reads_star_char {greedy : Bool} {p : Char → Bool} {t rest : List Char}
    {g : List (String × List Char)} :
    (star greedy (char p)).Reads prev t rest g ↔ (∀ c ∈ t, p c) ∧ g = [] := by
  constructor
  · intro h
    change Many (char p).Reads prev t rest g at h
    induction h with
    | none => simp
    | more _ hc _ ih =>
      obtain ⟨⟨c, hc, rfl⟩, rfl⟩ := hc
      simpa [hc, ih.2] using ih.1
  · rintro ⟨h, rfl⟩
    change Many (char p).Reads prev t rest []
    induction t generalizing prev with
    | nil => exact .none
    | cons c t ih =>
      exact .more (t := [c]) (v := t) (g := []) (k := []) (by simp)
        ⟨⟨c, h c (by simp), rfl⟩, rfl⟩ (ih fun d hd => h d (by simp [hd]))

@[simp] theorem reads_plus_char {greedy : Bool} {p : Char → Bool} {t rest : List Char}
    {g : List (String × List Char)} :
    (plus greedy (char p)).Reads prev t rest g ↔ t ≠ [] ∧ (∀ c ∈ t, p c) ∧ g = [] := by
  constructor
  · rintro ⟨x, y, gx, gy, rfl, rfl, ⟨⟨c, hc, rfl⟩, rfl⟩, hy⟩
    obtain ⟨hy, rfl⟩ := reads_star_char.mp hy
    simpa [hc] using hy
  · rintro ⟨hne, h, rfl⟩
    cases t with
    | nil => exact absurd rfl hne
    | cons c t =>
      exact ⟨[c], t, [], [], rfl, rfl, ⟨⟨c, h c (by simp), rfl⟩, rfl⟩,
        reads_star_char.mpr ⟨fun d hd => h d (by simp [hd]), rfl⟩⟩

/-- The pattern captures nothing. -/
def GroupFree : Re → Prop
  | .seq a b | .alt a b => a.GroupFree ∧ b.GroupFree
  | .star _ a => a.GroupFree
  | .group _ _ => False
  | _ => True

theorem GroupFree.nil {r : Re} (h : r.GroupFree) {prev : Option Char} {t rest : List Char}
    {g : List (String × List Char)} (hr : r.Reads prev t rest g) : g = [] := by
  induction r generalizing prev t rest g with
  | empty => exact hr.2
  | char p => exact hr.2
  | seq a b iha ihb =>
    obtain ⟨x, y, gx, gy, -, rfl, ha, hb⟩ := hr
    rw [iha h.1 ha, ihb h.2 hb, List.append_nil]
  | alt a b iha ihb =>
    rcases hr with ha | hb
    · exact iha h.1 ha
    · exact ihb h.2 hb
  | star greedy a ih =>
    change Many a.Reads prev t rest g at hr
    induction hr with
    | none => rfl
    | more _ ha _ ihm => rw [ih h ha, ihm, List.append_nil]
  | group name a => exact h.elim
  | textStart => exact hr.2.1
  | textEnd => exact hr.2.1
  | wordBoundary word => exact hr.2.1

end Re

/-! ### Patterns without anchors -/

/-- The pattern does not look at what is around the text it reads. -/
def Re.Plain : Re → Prop
  | .seq a b | .alt a b => a.Plain ∧ b.Plain
  | .star _ a | .group _ a => a.Plain
  | .textStart | .textEnd | .wordBoundary _ => False
  | .empty | .char _ => True

@[simp] theorem Re.plain_lit (w : String) : (lit w).Plain := by
  unfold lit
  induction w.toList with
  | nil => trivial
  | cons c cs ih => exact ⟨trivial, ih⟩

theorem Re.Plain.reads {r : Re} (h : r.Plain) {prev prev' : Option Char} {t rest rest' : List Char}
    {g : List (String × List Char)} (hr : r.Reads prev t rest g) : r.Reads prev' t rest' g := by
  induction r generalizing prev prev' t rest rest' g with
  | empty => exact hr
  | char p => exact hr
  | seq a b iha ihb =>
    obtain ⟨x, y, gx, gy, rfl, rfl, ha, hb⟩ := hr
    exact ⟨x, y, gx, gy, rfl, rfl, iha h.1 ha, ihb h.2 hb⟩
  | alt a b iha ihb =>
    rcases hr with ha | hb
    · exact .inl (iha h.1 ha)
    · exact .inr (ihb h.2 hb)
  | star greedy a ih =>
    change Many a.Reads prev t rest g at hr
    change Many a.Reads prev' t rest' g
    induction hr generalizing prev' rest' with
    | none => exact .none
    | more hne ha _ ihm => exact .more hne (ih h ha) ihm
  | group name a ih =>
    obtain ⟨k, rfl, ha⟩ := hr
    exact ⟨k, rfl, ih h ha⟩
  | textStart => exact h.elim
  | textEnd => exact h.elim
  | wordBoundary word => exact h.elim

/-! ### Search from a place -/

def findFrom (r : Re) : Option Char → List Char → ℕ → Option (ℕ × Found)
  | prev, [], i => (first r prev []).map (i, ·)
  | prev, c :: cs, i =>
    match first r prev (c :: cs) with
    | some m => some (i, m)
    | none => findFrom r (some c) cs (i + 1)

/-- The first match at or after a place, which sees the character before it. -/
def findAt (r : Re) (s : List Char) (pos : ℕ) : Option (ℕ × Found) :=
  findFrom r (s.take pos).getLast? (s.drop pos) pos

theorem findFrom_sound {pre cs : List Char} {i j : ℕ} (hi : pre.length = i)
    (h : findFrom r pre.getLast? cs i = some (j, m)) : i ≤ j ∧ ∃ mid,
      pre ++ cs = mid ++ (m.text ++ m.rest) ∧ mid.length = j ∧
        r.Reads mid.getLast? m.text m.rest m.groups := by
  have hhere : ∀ {cs}, first r pre.getLast? cs = some m → ∃ mid,
      pre ++ cs = mid ++ (m.text ++ m.rest) ∧ mid.length = i ∧
        r.Reads mid.getLast? m.text m.rest m.groups := by
    intro cs hm
    obtain ⟨rfl, hreads⟩ := first_sound hm
    exact ⟨pre, rfl, hi, hreads⟩
  induction cs generalizing pre i with
  | nil =>
    obtain ⟨m', hm, heq⟩ := Option.map_eq_some_iff.mp h
    cases heq
    exact ⟨Nat.le_refl _, hhere hm⟩
  | cons c cs ih =>
    rw [findFrom] at h
    split at h
    · next m' hm =>
      cases h
      exact ⟨Nat.le_refl _, hhere hm⟩
    · have hlast : (pre ++ [c]).getLast? = some c := by simp
      rw [← hlast] at h
      have hlen : (pre ++ [c]).length = i + 1 := by simp [hi]
      obtain ⟨hle, mid, hmid, hj, hreads⟩ := ih hlen h fun {cs} hm => by
        obtain ⟨rfl, hreads⟩ := first_sound hm
        exact ⟨pre ++ [c], rfl, hlen, hreads⟩
      exact ⟨by omega, mid, by rw [← hmid]; simp, hj, hreads⟩

/-- A match that a search finds is a match in the text, at its place. -/
theorem findAt_sound {pos i : ℕ} (hpos : pos ≤ s.length) (h : findAt r s pos = some (i, m)) :
    pos ≤ i ∧ ∃ pre, s = pre ++ (m.text ++ m.rest) ∧ pre.length = i ∧
      r.Reads pre.getLast? m.text m.rest m.groups := by
  have hlen : (s.take pos).length = pos := by rw [List.length_take, Nat.min_eq_left hpos]
  have := findFrom_sound hlen h
  rwa [List.take_append_drop] at this

/-- Where the pattern reads a text, the search finds a match. -/
theorem first_complete {t rest : List Char} {g : List (String × List Char)}
    (h : r.Reads prev t rest g) : ∃ m, first r prev (t ++ rest) = some m := by
  have hmem : (⟨t, rest, g⟩ : Found) ∈ r.results prev (t ++ rest) := Re.mem_results.mpr ⟨rfl, h⟩
  exact ⟨_, List.head?_eq_some_head (List.ne_nil_of_mem hmem)⟩

theorem findFrom_complete {mid rest : List Char} {i : ℕ}
    (h : first r (before prev mid) rest = some m) :
    ∃ j m, findFrom r prev (mid ++ rest) i = some (j, m) ∧ j ≤ i + mid.length := by
  induction mid generalizing prev i with
  | nil =>
    have hhere : first r prev rest = some m := h
    cases rest with
    | nil => exact ⟨i, m, by rw [List.nil_append, findFrom, hhere]; rfl, Nat.le_refl _⟩
    | cons c rest => exact ⟨i, m, by rw [List.nil_append, findFrom, hhere], Nat.le_refl _⟩
  | cons c mid ih =>
    rw [List.cons_append, findFrom]
    cases hfirst : first r prev (c :: (mid ++ rest)) with
    | some m => exact ⟨i, m, rfl, Nat.le_add_right _ _⟩
    | none =>
      have hnext : before prev (c :: mid) = before (some c) mid := before_append prev [c] mid
      rw [hnext] at h
      obtain ⟨j, m', hfind, hle⟩ := ih (i := i + 1) h
      refine ⟨j, m', hfind, ?_⟩
      rw [List.length_cons]
      omega

/-- A search finds no later than where the text has a match. -/
theorem findAt_complete {pos i : ℕ} (hpos : pos ≤ i)
    (h : first r (s.take i).getLast? (s.drop i) = some m) :
    ∃ j m, findAt r s pos = some (j, m) ∧ j ≤ i := by
  have hmid : s.drop pos = (s.drop pos).take (i - pos) ++ s.drop i := by
    conv_lhs => rw [← List.take_append_drop (i - pos) (s.drop pos)]
    rw [List.drop_drop, Nat.add_sub_cancel' hpos]
  have htake : s.take i = s.take pos ++ (s.drop pos).take (i - pos) := by
    conv_lhs => rw [← Nat.add_sub_cancel' hpos, List.take_add]
  have hbefore : (s.take i).getLast? =
      before (s.take pos).getLast? ((s.drop pos).take (i - pos)) := by
    rw [htake, List.getLast?_append, before]
  rw [hbefore] at h
  obtain ⟨j, m', hfind, hle⟩ := findFrom_complete (i := pos) h
  rw [← hmid] at hfind
  refine ⟨j, m', hfind, ?_⟩
  have hlen := List.length_take_le (i - pos) (s.drop pos)
  omega

end Regex
