import Anodizer.Template.StringLit

/-! # Build targets and their filters

A target triple maps to an operating system and an architecture. A filter keeps
some of the configured triples, and names the directory its worker writes.
-/

namespace Anodizer.Split

open Template (Text contains)

/-! ### Targets -/

def rustArchToGoarch (token : Text) (littleEndian : Bool) : Option Text :=
  match String.ofList token with
  | "x86_64" | "amd64" => some "amd64".toList
  | "aarch64" | "arm64" => some "arm64".toList
  | "x86" | "i686" | "i386" | "i586" => some "386".toList
  | "s390x" => some "s390x".toList
  | "riscv64" | "riscv64gc" => some "riscv64".toList
  | "loongarch64" | "loong64" => some "loong64".toList
  | "sparcv9" | "sparc64" => some "sparc64".toList
  | "powerpc" | "ppc" => some "ppc".toList
  | "powerpc64le" | "ppc64le" => some "ppc64le".toList
  | "powerpc64" | "ppc64" => some (if littleEndian then "ppc64le".toList else "ppc64".toList)
  | "wasm32" | "wasm" => some "wasm".toList
  | "mipsel" => some "mipsel".toList
  | "mips64el" => some "mips64el".toList
  | "mips" => some (if littleEndian then "mipsel".toList else "mips".toList)
  | "mips64" => some (if littleEndian then "mips64el".toList else "mips64".toList)
  | _ => none

/-- What a triple of each system holds. An Android triple holds `linux` too. -/
def osTable : List (Text × List Text) :=
  [("android".toList, ["android".toList]), ("ios".toList, ["ios".toList]),
    ("linux".toList, ["linux".toList]), ("darwin".toList, ["darwin".toList, "apple".toList]),
    ("windows".toList, ["windows".toList]), ("freebsd".toList, ["freebsd".toList]),
    ("netbsd".toList, ["netbsd".toList]), ("openbsd".toList, ["openbsd".toList]),
    ("aix".toList, ["aix".toList]), ("solaris".toList, ["solaris".toList]),
    ("illumos".toList, ["illumos".toList])]

/-- The first system of a table that a triple holds a word of. -/
def osIn (table : List (Text × List Text)) (triple : Text) : Text :=
  ((table.find? fun e => e.2.any (contains triple)).map (·.1)).getD "unknown".toList

def mapOs (triple : Text) : Text := osIn osTable triple

/-- The text before the first hyphen. -/
def firstComponent (triple : Text) : Text := triple.takeWhile (· ≠ '-')

def mapArch (triple : Text) : Text :=
  if triple = "darwin-universal".toList then "all".toList
  else if contains triple "x86_64".toList || contains triple "amd64".toList then "amd64".toList
  else if contains triple "aarch64".toList || contains triple "arm64".toList then "arm64".toList
  else
    let first := firstComponent triple
    if first = "armv7".toList || first = "armv7l".toList then "armv7".toList
    else if first = "armv6".toList || first = "armv6l".toList || first = "arm".toList then
      "armv6".toList
    else (rustArchToGoarch first false).getD first

def mapTarget (triple : Text) : Text × Text := (mapOs triple, mapArch triple)

/-! ### Filters -/

inductive PartialTarget
  | exact (triple : Text)
  | osArch (os : Text) (arch : Option Text)
  | targets (list : List Text)
  deriving DecidableEq, Repr

namespace PartialTarget

def keeps : PartialTarget → Text → Bool
  | exact t, triple => triple = t
  | osArch os arch, triple =>
    (mapTarget triple).1 = os && arch.all fun a => (mapTarget triple).2 = a
  | targets list, triple => triple ∈ list

def filterTargets (p : PartialTarget) (targets : List Text) : List Text := targets.filter p.keeps

def distSubdir : PartialTarget → Text
  | exact t => t
  | osArch os arch =>
    match arch with
    | some a => os ++ '_' :: a
    | none => os
  | targets list =>
    match list.head? with
    | some first => "targets-".toList ++ first
    | none => "targets-empty".toList

/-- The filter that a directory name was written for. -/
def fromDistSubdir (subdir : Text) : PartialTarget :=
  if "targets-".toList.isPrefixOf subdir then
    let rest := subdir.drop 8
    if rest = [] || rest = "empty".toList then targets [] else targets [rest]
  else if '-' ∈ subdir then exact subdir
  else if '_' ∈ subdir then
    osArch (subdir.takeWhile (· ≠ '_')) (some ((subdir.dropWhile (· ≠ '_')).drop 1))
  else osArch subdir none

end PartialTarget

def suggestRunner (os : Text) : Text :=
  if os = "linux".toList then "ubuntu-latest".toList
  else if os = "darwin".toList then "macos-latest".toList
  else if os = "windows".toList then "windows-latest".toList
  else "ubuntu-latest".toList

/-! ### Words -/

variable {triple s t n os arch : Text} {c : Char}

theorem contains_iff : contains s n = true ↔ n <:+: s := by
  simp only [contains, List.any_eq_true, List.mem_tails, List.isPrefixOf_iff_prefix]
  constructor
  · rintro ⟨x, hx, hn⟩
    exact hn.isInfix.trans hx.isInfix
  · intro h
    obtain ⟨x, hn, hx⟩ := List.infix_iff_prefix_suffix.mp h
    exact ⟨x, hx, hn⟩

theorem osIn_mem {table : List (Text × List Text)} :
    osIn table triple ∈ "unknown".toList :: table.map (·.1) := by
  unfold osIn
  cases h : table.find? fun e => e.2.any (contains triple) with
  | none => exact List.mem_cons_self
  | some e => exact List.mem_cons_of_mem _ (List.mem_map_of_mem (List.mem_of_find?_eq_some h))

theorem mapOs_plain (triple : Text) : '-' ∉ mapOs triple ∧ '_' ∉ mapOs triple := by
  have hall : ∀ os ∈ "unknown".toList :: osTable.map (·.1), '-' ∉ os ∧ '_' ∉ os := by decide
  exact hall _ osIn_mem

/-- A text that holds a system's name, and no other word than its triple does, maps to the
system. -/
theorem osIn_eq {table : List (Text × List Text)} (hown : ∀ e ∈ table, e.1 ∈ e.2)
    (hword : ∀ e ∈ table, ∀ n ∈ e.2, contains os n → e.1 = os)
    (hos : ∀ n, contains os n → contains s n)
    (hs : ∀ e ∈ table, ∀ n ∈ e.2, contains s n → contains os n ∨ contains triple n)
    (h : osIn table triple = os) : osIn table s = os := by
  induction table with
  | nil => exact h
  | cons e table ih =>
    obtain ⟨hown, hownt⟩ := List.forall_mem_cons.mp hown
    obtain ⟨hword, hwordt⟩ := List.forall_mem_cons.mp hword
    obtain ⟨hs, hst⟩ := List.forall_mem_cons.mp hs
    by_cases hp : e.2.any (contains triple) = true
    · obtain rfl : e.1 = os := by simpa [osIn, List.find?_cons, hp] using h
      have hself : e.2.any (contains s) = true :=
        List.any_eq_true.mpr ⟨e.1, hown, hos _ (contains_iff.mpr (List.infix_refl _))⟩
      simp [osIn, hself]
    · by_cases hr : e.2.any (contains s) = true
      · obtain ⟨n, hn, hsn⟩ := List.any_eq_true.mp hr
        rcases hs n hn hsn with ho | ht
        · simp [osIn, hr, hword n hn ho]
        · exact absurd (List.any_eq_true.mpr ⟨n, hn, ht⟩) hp
      · have hrest : osIn table triple = os := by simpa [osIn, List.find?_cons, hp] using h
        simpa [osIn, List.find?_cons, hr] using ih hownt hwordt hst hrest

theorem mapOs_eq (hos : ∀ n, contains (mapOs triple) n → contains s n)
    (hs : ∀ e ∈ osTable, ∀ n ∈ e.2, contains s n →
      contains (mapOs triple) n ∨ contains triple n) : mapOs s = mapOs triple := by
  have hwords : ∀ os ∈ "unknown".toList :: osTable.map (·.1), ∀ e ∈ osTable, ∀ n ∈ e.2,
      contains os n → e.1 = os := by decide
  exact osIn_eq (by decide) (hwords _ osIn_mem) hos hs rfl

theorem mapOs_mapOs (triple : Text) : mapOs (mapOs triple) = mapOs triple :=
  mapOs_eq (fun _ h => h) fun _ _ _ _ h => .inl h

/-- The words that `mapArch` and `rustArchToGoarch` write. -/
def archWords : List Text :=
  ["all", "amd64", "arm64", "armv7", "armv6", "386", "s390x", "riscv64", "loong64", "sparc64", "ppc",
    "ppc64le", "ppc64", "wasm", "mipsel", "mips64el", "mips", "mips64"].map String.toList

theorem rustArchToGoarch_mem {token : Text} {e : Bool} (h : rustArchToGoarch token e = some arch) :
    arch ∈ archWords := by
  unfold rustArchToGoarch at h
  split at h <;> cases h <;> cases e <;> decide

/-- The architecture is a word of its own or the first component of the triple. -/
theorem mapArch_mem (triple : Text) :
    mapArch triple ∈ archWords ∨ mapArch triple = firstComponent triple := by
  unfold mapArch
  split
  · exact .inl (by decide)
  split
  · exact .inl (by decide)
  split
  · exact .inl (by decide)
  dsimp only
  split
  · exact .inl (by decide)
  split
  · exact .inl (by decide)
  cases h : rustArchToGoarch (firstComponent triple) false with
  | none => exact .inr rfl
  | some arch => exact .inl (rustArchToGoarch_mem h)

theorem mapArch_no_hyphen (triple : Text) : '-' ∉ mapArch triple := by
  rcases mapArch_mem triple with h | h
  · have hall : ∀ a ∈ archWords, '-' ∉ a := by decide
    exact hall _ h
  · rw [h]
    intro hmem
    simpa using List.mem_takeWhile_imp hmem

/-- A system's word in the architecture of a triple is in the triple. -/
theorem contains_of_mapArch {e : Text × List Text} (he : e ∈ osTable) (hn : n ∈ e.2)
    (h : contains (mapArch triple) n) : contains triple n := by
  rcases mapArch_mem triple with hw | hw
  · have hall : ∀ a ∈ archWords, ∀ e ∈ osTable, ∀ n ∈ e.2, contains a n = false := by decide
    rw [hall _ hw e he n hn] at h
    cases h
  · rw [hw] at h
    exact contains_iff.mpr ((contains_iff.mp h).trans (List.takeWhile_prefix _).isInfix)

/-- A word without the separator lies on one side of it. -/
theorem infix_of_infix_append_cons (hc : c ∉ n) (h : n <:+: s ++ c :: t) :
    n <:+: s ∨ n <:+: t := by
  obtain ⟨x, y, heq⟩ := h
  rw [List.append_assoc] at heq
  rcases List.append_eq_append_iff.mp heq with ⟨a, rfl, ha⟩ | ⟨a, rfl, ha⟩
  · rcases List.append_eq_append_iff.mp ha with ⟨b, rfl, -⟩ | ⟨b, rfl, hb⟩
    · exact .inl ⟨x, b, by simp⟩
    · cases b with
      | nil => exact .inl ⟨x, [], by simp⟩
      | cons d b =>
        obtain ⟨rfl, -⟩ := List.cons.inj hb
        simp at hc
  · cases a with
    | nil =>
      cases n with
      | nil => exact .inl (List.nil_infix)
      | cons d n =>
        obtain ⟨rfl, -⟩ := List.cons.inj ha
        simp at hc
    | cons d a =>
      obtain ⟨-, rfl⟩ := List.cons.inj ha
      exact .inr ⟨a, y, by simp⟩

/-- The system of a directory name is the one its filter asks for. -/
theorem mapOs_joined (triple : Text) :
    mapOs (mapOs triple ++ '_' :: mapArch triple) = mapOs triple := by
  refine mapOs_eq (fun n h => ?_) fun e he n hn h => ?_
  · exact contains_iff.mpr ((contains_iff.mp h).trans (List.prefix_append _ _).isInfix)
  · have hplain : ∀ e ∈ osTable, ∀ n ∈ e.2, '_' ∉ n := by decide
    rcases infix_of_infix_append_cons (hplain e he n hn) (contains_iff.mp h) with ho | ha
    · exact .inl (contains_iff.mpr ho)
    · exact .inr (contains_of_mapArch he hn (contains_iff.mpr ha))

theorem distSubdir_no_hyphen {arch : Option Text} (hos : '-' ∉ os) (harch : ∀ a ∈ arch, '-' ∉ a) :
    '-' ∉ (PartialTarget.osArch os arch).distSubdir := by
  cases arch with
  | none => exact hos
  | some a =>
    rw [PartialTarget.distSubdir, List.mem_append, List.mem_cons, not_or, not_or]
    exact ⟨hos, by decide, harch a (Option.mem_some_self a)⟩

/-- A directory name of words without a separator is read back. -/
theorem fromDistSubdir_osArch {arch : Option Text} (hos : '-' ∉ os ∧ '_' ∉ os)
    (harch : ∀ a ∈ arch, '-' ∉ a) :
    PartialTarget.fromDistSubdir (PartialTarget.osArch os arch).distSubdir = .osArch os arch := by
  have hdash : '-' ∉ (PartialTarget.osArch os arch).distSubdir :=
    distSubdir_no_hyphen hos.1 harch
  have hpre : "targets-".toList.isPrefixOf (PartialTarget.osArch os arch).distSubdir = false := by
    rw [← Bool.not_eq_true, List.isPrefixOf_iff_prefix]
    intro h
    have hmem : '-' ∈ "targets-".toList := by decide
    exact hdash (h.subset hmem)
  rw [PartialTarget.fromDistSubdir, hpre, if_neg Bool.false_ne_true, if_neg hdash]
  cases arch with
  | none => exact if_neg hos.2
  | some a =>
    have hne : ∀ c ∈ os, decide (c ≠ '_') = true := fun c hc =>
      decide_eq_true fun h => hos.2 (h ▸ hc)
    rw [PartialTarget.distSubdir, if_pos (by simp), List.takeWhile_append_of_pos hne,
      List.dropWhile_append_of_pos hne]
    simp

end Anodizer.Split
