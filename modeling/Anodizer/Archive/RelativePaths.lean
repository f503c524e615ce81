import Anodizer.Archive.FileSpecs
import Anodizer.Lib.Lines
import Anodizer.Lib.SplitOnce
import Anodizer.Lib.Squeeze

/-! # Relative paths

A path is the names of its directory and the names behind it, and so is a path joined to a
destination. Slashes and dots between names do not count, backslashes count as slashes where a path
is written to an archive.
-/

namespace Anodizer.FileSpecs

open PublishOnly (components isAbsolute joinPath normalizePathSeparators)
open Template (Text)

variable {p q rel dst t : Text} {base parts : List Text} {n : ℕ}

/-! ### Names of a path -/

/-- The components of a path without its root and dots. -/
def names (p : Text) : List Text := (p.splitOn '/').filter isPart

theorem names_append_slash (p q : Text) : names (p ++ '/' :: q) = names p ++ names q := by
  rw [names, List.splitOn_append_cons_self, List.filter_append, names, names]

theorem components_cons {first : Text} {tail : List Text} (hparts : p.splitOn '/' = first :: tail)
    (hp : p ≠ []) : components p = first :: tail.filter isPart := by
  have hpart : ∀ l : List Text, (l.filter (· ≠ [])).filter (· ≠ ".".toList) = l.filter isPart := by
    intro l
    rw [List.filter_filter]
    exact List.filter_congr fun x _ => by rw [isPart, Bool.and_comm]
  obtain ⟨c, p, rfl⟩ := List.exists_cons_of_ne_nil hp
  by_cases hc : c = '/'
  · subst hc
    have hsplit : ('/' :: p).splitOn '/' = [] :: p.splitOn '/' :=
      List.splitOn_append_cons_self [] p
    obtain ⟨rfl, rfl⟩ := List.cons.inj (hsplit.symm.trans hparts)
    rw [components, hparts]
    simp only [isAbsolute, List.head?_cons, decide_true, if_true]
    rw [List.filter_cons_of_neg (by simp), hpart]
  · have hfirst : first ≠ [] := by
      rintro rfl
      rw [List.splitOn_cons_eq_if_modifyHead, if_neg (by simpa using hc)] at hparts
      cases hp : p.splitOn '/' <;> simp [hp] at hparts
    have hrel : isAbsolute (c :: p) = false := by simp [isAbsolute, hc]
    rw [components, hparts, hrel]
    rw [List.filter_cons_of_pos (by simpa using hfirst)]
    simp only [Bool.false_eq_true, if_false, hpart]

theorem names_eq_filter_components (p : Text) : names p = (components p).filter isPart := by
  cases hparts : p.splitOn '/' with
  | nil => exact absurd hparts (List.splitOn_ne_nil _ _)
  | cons first tail =>
    by_cases hp : p = []
    · subst hp
      rfl
    · rw [components_cons hparts hp, names, hparts]
      simp [List.filter_cons, List.filter_filter]

theorem not_slash_of_mem_splitOn {l : Text} (h : l ∈ p.splitOn '/') : '/' ∉ l :=
  Lines.not_mem_of_mem_splitOn h

theorem names_intercalate (h : ∀ l ∈ parts, '/' ∉ l) :
    names (['/'].intercalate parts) = parts.filter isPart := by
  by_cases hne : parts = []
  · subst hne
    rfl
  · rw [names, List.splitOn_intercalate '/' h hne]

theorem isAbsolute_intercalate {first : Text} (h : '/' ∉ first) (rest : List Text) :
    isAbsolute (['/'].intercalate (first :: rest)) = decide (first = [] ∧ rest ≠ []) := by
  cases first with
  | nil => cases rest <;> simp [isAbsolute, List.intercalate]
  | cons c first =>
    have hc : c ≠ '/' := fun hc => h (hc ▸ List.mem_cons_self)
    cases rest <;> simp [isAbsolute, List.intercalate, hc]

/-! ### What is left of a path -/

theorem filter_behind (n : ℕ) (parts : List Text) :
    (behind n parts).filter isPart = (parts.filter isPart).drop n := by
  induction parts generalizing n with
  | nil => cases n <;> simp [behind]
  | cons part parts ih =>
    cases n with
    | zero => rw [behind, List.drop_zero]
    | succ n =>
      rw [behind, List.filter_cons]
      split
      · rw [ih, List.drop_succ_cons]
      · exact ih (n + 1)

theorem behind_suffix (n : ℕ) (parts : List Text) : behind n parts <:+ parts := by
  induction parts generalizing n with
  | nil => cases n <;> simp [behind]
  | cons part parts ih =>
    cases n with
    | zero => rw [behind]
    | succ n =>
      rw [behind]
      split <;> exact (ih _).trans (List.suffix_cons _ _)

theorem filter_rdropWhile (parts : List Text) :
    (trimmed parts).filter isPart = parts.filter isPart := by
  induction parts using List.reverseRecOn with
  | nil => rfl
  | append_singleton parts part ih =>
    cases hpart : isPart part with
    | true => rw [trimmed, List.rdropWhile_concat_neg _ _ _ (by simp [hpart])]
    | false =>
      rw [trimmed, List.rdropWhile_concat_pos _ _ _ (by simp [hpart]), ← trimmed, ih]
      simp [hpart]

theorem filter_dropWhile (parts : List Text) :
    (parts.dropWhile (!isPart ·)).filter isPart = parts.filter isPart := by
  induction parts with
  | nil => rfl
  | cons part parts ih =>
    cases hpart : isPart part with
    | true => rw [List.dropWhile_cons_of_neg (by simp [hpart])]
    | false =>
      rw [List.dropWhile_cons_of_pos (by simp [hpart]), ih, List.filter_cons_of_neg (by simp [hpart])]

/-- The parts behind some components, without those that are none in front. -/
def kept (tail : List Text) (n : ℕ) : List Text := (behind n tail).dropWhile (!isPart ·)

theorem kept_suffix (tail : List Text) (n : ℕ) : kept tail n <:+ tail :=
  (List.dropWhile_suffix _).trans (behind_suffix n tail)

theorem filter_kept (tail : List Text) (n : ℕ) :
    (kept tail n).filter isPart = (tail.filter isPart).drop n := by
  rw [kept, filter_dropWhile, filter_behind]

/-- The whole path is left behind no component. -/
theorem remainder_zero (p : Text) :
    names (remainder p 0) = names p ∧ isAbsolute (remainder p 0) = isAbsolute p := by
  cases hparts : p.splitOn '/' with
  | nil => exact absurd hparts (List.splitOn_ne_nil _ _)
  | cons first tail =>
    have hslash : ∀ l ∈ first :: tail, '/' ∉ l := fun l hl => not_slash_of_mem_splitOn (hparts ▸ hl)
    have hp : p = ['/'].intercalate (first :: tail) := by
      rw [← hparts, List.intercalate_splitOn]
    have habs : isAbsolute p = decide (first = [] ∧ tail ≠ []) := by
      rw [hp, isAbsolute_intercalate (hslash first List.mem_cons_self)]
    have hrest := filter_rdropWhile tail
    have hsub : ∀ l ∈ trimmed tail, l ∈ tail :=
      fun l hl => (List.rdropWhile_prefix _ _).subset hl
    have hnames : names p = (first :: tail).filter isPart := by rw [names, hparts]
    simp only [remainder, hparts, List.tail_cons, List.headD_cons]
    by_cases hroot : trimmed tail = [] ∧ isAbsolute p
    · rw [if_pos hroot, hnames, hroot.2]
      have hfirst : first = [] := (of_decide_eq_true (habs ▸ hroot.2)).1
      rw [hroot.1] at hrest
      rw [hfirst, List.filter_cons_of_neg (by decide), ← hrest]
      exact ⟨rfl, rfl⟩
    · rw [if_neg hroot, hnames, habs, isAbsolute_intercalate (hslash first List.mem_cons_self),
        names_intercalate]
      · refine ⟨by rw [List.filter_cons, List.filter_cons, hrest], decide_eq_decide.mpr ?_⟩
        constructor
        · rintro ⟨hfirst, hne⟩
          refine ⟨hfirst, ?_⟩
          rintro rfl
          exact hne rfl
        · rintro ⟨hfirst, hne⟩
          exact ⟨hfirst, fun hnil => hroot ⟨hnil, habs.trans (decide_eq_true ⟨hfirst, hne⟩)⟩⟩
      · intro l hl
        rcases List.mem_cons.mp hl with rfl | hl
        · exact hslash l List.mem_cons_self
        · exact hslash l (List.mem_cons_of_mem _ (hsub l hl))

theorem remainder_eq {first : Text} {tail : List Text} (hparts : p.splitOn '/' = first :: tail)
    (n : ℕ) : remainder p (n + 1) = ['/'].intercalate (trimmed (kept tail n)) := by
  simp only [remainder, hparts, List.tail_cons, kept]

/-- What is left behind some components is not absolute. -/
theorem remainder_succ {first : Text} {tail : List Text} (hparts : p.splitOn '/' = first :: tail)
    (n : ℕ) : names (remainder p (n + 1)) = (tail.filter isPart).drop n ∧
      isAbsolute (remainder p (n + 1)) = false := by
  have hslash : ∀ l ∈ trimmed (kept tail n), '/' ∉ l := by
    intro l hl
    have hmem : l ∈ tail := (kept_suffix tail n).subset ((List.rdropWhile_prefix _ _).subset hl)
    exact not_slash_of_mem_splitOn (p := p) (hparts ▸ List.mem_cons_of_mem _ hmem)
  rw [remainder_eq hparts]
  refine ⟨by rw [names_intercalate hslash, filter_rdropWhile, filter_kept], ?_⟩
  cases hkept : kept tail n with
  | nil => rfl
  | cons part rest =>
    have hhead := List.head?_dropWhile_not (!isPart ·) (behind n tail)
    have hpart : isPart part = true := by
      rw [kept] at hkept
      simpa [hkept] using hhead
    have hkeep : trimmed (part :: rest) = part :: trimmed rest :=
      Squeeze.rdropWhile_append_cons (by simp [hpart]) [] rest
    rw [hkept] at hslash
    rw [hkeep] at hslash ⊢
    rw [isAbsolute_intercalate (hslash part List.mem_cons_self)]
    refine decide_eq_false fun hnil => ?_
    rw [hnil.1] at hpart
    cases hpart

/-- A path below a directory is the names of the directory and what is left. -/
theorem names_remainder (h : base <+: components p) :
    names p = base.filter isPart ++ names (remainder p base.length) ∧
      isAbsolute (remainder p base.length) = (base = [] && isAbsolute p) := by
  cases base with
  | nil =>
    obtain ⟨hnames, habs⟩ := remainder_zero p
    exact ⟨by simp [hnames], by simp [habs]⟩
  | cons b base =>
    cases hparts : p.splitOn '/' with
    | nil => exact absurd hparts (List.splitOn_ne_nil _ _)
    | cons first tail =>
      have hp : p ≠ [] := by
        rintro rfl
        cases List.prefix_nil.mp h
      obtain ⟨hnames, habs⟩ := remainder_succ hparts base.length
      rw [components_cons hparts hp] at h
      obtain ⟨rfl, r, hr⟩ := List.cons_prefix_cons.mp h
      have hbase : base.filter isPart = base := List.filter_eq_self.mpr fun x hx =>
        (List.mem_filter.mp (hr ▸ List.mem_append_left r hx)).2
      refine ⟨?_, by simpa using habs⟩
      rw [List.length_cons, hnames, names, hparts, ← hr, List.drop_left, List.filter_cons,
        List.filter_cons, hbase, ← hr]
      split <;> rfl

/-! ### The length of what is left -/

/-- The characters of parts, with a separator behind each. -/
def weight (l : List Text) : ℕ := (l.map (·.length + 1)).sum

theorem weight_append (l m : List Text) : weight (l ++ m) = weight l + weight m := by
  simp [weight]

theorem length_intercalate (l : List Text) : (['/'].intercalate l).length = weight l - 1 := by
  induction l with
  | nil => rfl
  | cons part l ih =>
    cases l with
    | nil => simp [weight]
    | cons part' l =>
      rw [List.intercalate_cons_cons, List.length_append, List.length_append, ih]
      simp only [weight, List.map_cons, List.sum_cons, List.length_singleton]
      omega

theorem weight_of_isPart {l : List Text} {part : Text} (hmem : part ∈ l) (hpart : isPart part) :
    2 ≤ weight l := by
  obtain ⟨l, m, rfl⟩ := List.append_of_mem hmem
  have hlen : 0 < part.length := by
    refine List.length_pos_iff.mpr ?_
    rintro rfl
    cases hpart
  rw [weight_append]
  simp only [weight, List.map_cons, List.sum_cons]
  omega

theorem rdropWhile_append (l m : List Text) : trimmed (l ++ m) =
    if trimmed m = [] then trimmed l
    else l ++ trimmed m := by
  rw [trimmed, trimmed, trimmed, List.rdropWhile, List.reverse_append, List.dropWhile_append,
    List.rdropWhile, List.rdropWhile]
  simp only [List.isEmpty_iff, List.reverse_eq_nil_iff]
  split <;> simp

/-- A component in front of parts makes them longer. -/
theorem weight_rdropWhile_append {l : List Text} (h : ∃ part ∈ l, isPart part) (m : List Text) :
    weight (trimmed m) + 2 ≤ weight (trimmed (l ++ m)) := by
  obtain ⟨part, hmem, hpart⟩ := h
  rw [rdropWhile_append]
  split
  · next hnil =>
    have hkeep : part ∈ trimmed l := by
      have hfilter := List.mem_filter.mpr ⟨hmem, hpart⟩
      rw [← filter_rdropWhile] at hfilter
      exact List.mem_of_mem_filter hfilter
    rw [hnil]
    exact Nat.le_trans (by simp [weight]) (weight_of_isPart hkeep hpart)
  · rw [weight_append]
    have := weight_of_isPart hmem hpart
    omega

/-- Behind more components less is left. -/
theorem weight_kept_lt (tail : List Text) {m : ℕ} (hlt : n < m)
    (hm : m ≤ (tail.filter isPart).length) : weight (trimmed (kept tail m)) + 2 ≤
      weight (trimmed (kept tail n)) := by
  have hn := congrArg List.length (filter_kept tail n)
  have hm' := congrArg List.length (filter_kept tail m)
  rw [List.length_drop] at hn hm'
  have hlen : ∀ {l l' : List Text}, l <:+ l' → (l.filter isPart).length ≤ (l'.filter isPart).length :=
    fun h => (h.filter isPart).length_le
  rcases List.suffix_or_suffix_of_suffix (kept_suffix tail n) (kept_suffix tail m) with h | h
  · have := hlen h
    omega
  · obtain ⟨l, hl⟩ := h
    have hpart : ∃ part ∈ l, isPart part := by
      have hcount := congrArg (fun x => (x.filter isPart).length) hl
      simp only [List.filter_append, List.length_append] at hcount
      obtain ⟨part, hmem⟩ := List.exists_mem_of_length_pos (show 0 < (l.filter isPart).length by omega)
      exact ⟨part, List.mem_of_mem_filter hmem, (List.mem_filter.mp hmem).2⟩
    rw [← hl]
    exact weight_rdropWhile_append hpart _

theorem weight_rdropWhile_le {l m : List Text} (h : l <:+ m) :
    weight (trimmed l) ≤ weight (trimmed m) := by
  obtain ⟨a, rfl⟩ := h
  rw [rdropWhile_append]
  split
  · next hnil =>
    rw [hnil]
    exact Nat.zero_le _
  · rw [weight_append]
    omega

theorem length_remainder_zero_le (p : Text) : (remainder p 0).length ≤ p.length := by
  cases hparts : p.splitOn '/' with
  | nil => exact absurd hparts (List.splitOn_ne_nil _ _)
  | cons first tail =>
    have hp : p.length = weight (first :: tail) - 1 := by
      rw [← length_intercalate, ← hparts, List.intercalate_splitOn]
    simp only [remainder, hparts, List.tail_cons, List.headD_cons]
    split
    · next h =>
      have hne : p ≠ [] := by
        rintro rfl
        cases h.2
      exact List.length_pos_iff.mpr hne
    · have hle : weight (trimmed tail) ≤ weight tail := by
        obtain ⟨r, hr⟩ : trimmed tail <+: tail := List.rdropWhile_prefix _ _
        have := weight_append (trimmed tail) r
        rw [hr] at this
        omega
      rw [length_intercalate, hp]
      simp only [weight, List.map_cons, List.sum_cons] at hle ⊢
      omega

/-- Behind more components less is left. -/
theorem length_remainder_lt {m : ℕ} (hlt : n < m) (hm : m ≤ (components p).length) :
    (remainder p m).length < (remainder p n).length := by
  have hp : p ≠ [] := by
    rintro rfl
    exact absurd hm (Nat.not_le.mpr (Nat.zero_lt_of_lt hlt))
  cases hparts : p.splitOn '/' with
  | nil => exact absurd hparts (List.splitOn_ne_nil _ _)
  | cons first tail =>
    obtain ⟨m, rfl⟩ := Nat.exists_eq_add_of_lt (Nat.zero_lt_of_lt hlt)
    rw [components_cons hparts hp, List.length_cons] at hm
    rw [Nat.zero_add, remainder_eq hparts, length_intercalate]
    cases n with
    | succ n =>
      have := weight_kept_lt tail (show n < m by omega) (by omega)
      rw [remainder_eq hparts, length_intercalate]
      omega
    | zero =>
      have hle := weight_rdropWhile_le (kept_suffix tail m)
      simp only [remainder, hparts, List.tail_cons, List.headD_cons]
      split
      · next h =>
        rw [h.1] at hle
        rw [Nat.le_zero.mp hle]
        decide
      · next h =>
        have hpos : 0 < first.length + weight (trimmed tail) := by
          by_contra hzero
          have hfirst : first = [] := List.length_eq_zero_iff.mp (by omega)
          have htrim : trimmed tail = [] := by
            cases htail : trimmed tail with
            | nil => rfl
            | cons part l =>
              rw [htail] at hzero
              simp only [weight, List.map_cons, List.sum_cons] at hzero
              omega
          have hjoin : p = ['/'].intercalate (first :: tail) := by
            rw [← hparts, List.intercalate_splitOn]
          refine h ⟨htrim, ?_⟩
          rw [hjoin, isAbsolute_intercalate (by simp [hfirst])]
          refine decide_eq_true ⟨hfirst, ?_⟩
          rintro rfl
          exact hp (hjoin.trans (by rw [hfirst]; rfl))
        rw [length_intercalate]
        simp only [weight, List.map_cons, List.sum_cons] at hle hpos ⊢
        omega

/-! ### Destinations -/

theorem names_joinPath (hrel : isAbsolute rel = false) :
    names (normalizeArchivePath (joinPath dst rel)) =
      names (normalizeArchivePath dst) ++ names (normalizeArchivePath rel) := by
  have hmap : ∀ s t : Text, normalizePathSeparators (s ++ t) =
      normalizePathSeparators s ++ normalizePathSeparators t := fun s t => List.map_append
  have hslash : ∀ s : Text, normalizePathSeparators ('/' :: s) = '/' :: normalizePathSeparators s :=
    fun s => rfl
  simp only [joinPath, hrel, Bool.false_or, normalizeArchivePath]
  by_cases hdst : dst = []
  · rw [if_pos (by simpa using hdst), hdst]
    rfl
  rw [if_neg (by simpa using hdst)]
  split
  · next hlast =>
    obtain ⟨d, hd⟩ := List.getLast?_eq_some_iff.mp hlast
    have hempty : names (normalizePathSeparators d ++ ['/']) = names (normalizePathSeparators d) := by
      rw [names_append_slash]
      exact List.append_nil _
    rw [hd, hmap, hmap, hslash]
    rw [List.append_assoc, List.cons_append, names_append_slash]
    exact congrArg (· ++ _) hempty.symm
  · rw [hmap, hslash, names_append_slash]

theorem normalize_eq_self (h : ∀ l ∈ names p, '\\' ∉ l) : normalizeArchivePath p = p := by
  have hno : '\\' ∉ p := by
    intro hmem
    have hjoin : ['/'].intercalate (p.splitOn '/') = p := List.intercalate_splitOn '/'
    rw [← hjoin] at hmem
    rcases Lines.mem_intercalate hmem with hc | ⟨l, hl, hc⟩
    · exact absurd hc (by decide)
    · refine h l (List.mem_filter.mpr ⟨hl, ?_⟩) hc
      have hne : l ≠ [] := List.ne_nil_of_mem hc
      have hdot : l ≠ ['.'] := by
        rintro rfl
        exact absurd hc (by decide)
      simp [isPart, hne, hdot]
  refine (List.map_congr_left fun c hc => if_neg ?_).trans (List.map_id p)
  rintro rfl
  exact hno hc

/-- Names are kept when none of them holds a backslash. -/
theorem names_normalize_iff : names (normalizeArchivePath p) = names p ↔ ∀ l ∈ names p, '\\' ∉ l := by
  refine ⟨fun h l hl hmem => ?_, fun h => by rw [normalize_eq_self h]⟩
  rw [← h] at hl
  have hsub := Lines.mem_of_mem_splitOn (List.mem_of_mem_filter hl) hmem
  obtain ⟨c, -, hc⟩ := List.mem_map.mp hsub
  split at hc <;> simp_all

theorem isAbsolute_joinPath (hrel : isAbsolute rel = false) (h : ∀ l ∈ names rel, '\\' ∉ l) :
    isAbsolute (normalizeArchivePath (joinPath dst rel)) = isAbsolute (normalizeArchivePath dst) := by
  cases dst with
  | nil =>
    have hjoin : joinPath [] rel = rel := by simp [joinPath]
    rw [hjoin, normalize_eq_self h, hrel]
    rfl
  | cons c dst =>
    have hhead : ∃ r, joinPath (c :: dst) rel = c :: r := by
      simp only [joinPath, hrel, Bool.false_or]
      rw [if_neg (by simp)]
      split <;> exact ⟨_, rfl⟩
    obtain ⟨r, hr⟩ := hhead
    rw [hr]
    rfl

/-! ### The directory of all matches -/

/-- A text that a path begins with ends in a name of the directory that holds it. -/
theorem parent_prefix (h : t <+: p) : parent t <+: components p := by
  obtain ⟨r, rfl⟩ := h
  cases hlast : SplitOnce.last '/' t with
  | none =>
    have hslash := SplitOnce.last_eq_none.mp hlast
    by_cases ht : t = []
    · subst ht
      exact List.nil_prefix
    · rw [parent, components_cons (List.splitOn_eq_singleton hslash) ht]
      exact List.nil_prefix
  | some cut =>
    obtain ⟨i, l⟩ := cut
    obtain ⟨rfl, hl⟩ := SplitOnce.last_eq_some.mp hlast
    cases hi : i.splitOn '/' with
    | nil => exact absurd hi (List.splitOn_ne_nil _ _)
    | cons first tail =>
      have ht : (i ++ '/' :: l).splitOn '/' = first :: (tail ++ [l]) := by
        rw [List.splitOn_append_cons_self, hi, List.splitOn_eq_singleton hl, List.cons_append]
      have hp : (i ++ '/' :: l ++ r).splitOn '/' = first :: (tail ++ (l ++ r).splitOn '/') := by
        rw [List.append_assoc, List.cons_append, List.splitOn_append_cons_self, hi, List.cons_append]
      rw [parent, components_cons ht (by simp), components_cons hp (by simp), List.filter_append,
        List.filter_append]
      have hdir : first :: tail.filter isPart <+:
          first :: (tail.filter isPart ++ ((l ++ r).splitOn '/').filter isPart) :=
        ⟨_, List.cons_append⟩
      cases hpart : isPart l with
      | true =>
        have hone : [l].filter isPart = [l] := by simp [hpart]
        rw [hone, ← List.cons_append, List.dropLast_concat]
        exact hdir
      | false =>
        have hnone : [l].filter isPart = [] := by simp [hpart]
        rw [hnone, List.append_nil]
        exact (List.dropLast_prefix _).trans hdir

end Anodizer.FileSpecs
