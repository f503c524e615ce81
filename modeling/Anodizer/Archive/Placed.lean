import Anodizer.Archive.CommonPrefix
import Anodizer.Archive.RelativePaths

/-! # Where matches are placed

A match is placed below the destination by what its path holds behind the directory of all matches.
The layout is kept when every match lies below that directory, or none does, and no name holds a
backslash.
-/

namespace Anodizer.FileSpecs

open PublishOnly (components isAbsolute joinPath normalizePathSeparators)
open Template (Text)

variable {p rel t : Text}

/-! ### The layout of the sources -/

section Layout

variable {ι : Type} {disk : Disk} {ps : List Text}

/-- What is left of a path below a directory. A path below no directory is itself, with or without
the separators at its end. -/
def IsRelative (dir : List Text) (p rel : Text) : Prop :=
  dir <+: components p ∧ (rel = remainder p dir.length ∨ dir = [] ∧ rel = p)

/-- One entry for each match in order, at the destination joined with its path relative to one
directory of all matches. The layout of the sources is kept, and no two files share a place. -/
structure Placed (ps : List Text) (dst : Text) (entries : List (ResolvedExtraFile ι)) : Prop where
  src : entries.map ResolvedExtraFile.src = ps
  layout : ∃ dir, ∀ e ∈ entries, ∃ rel, IsRelative dir e.src rel ∧ isAbsolute rel = false ∧
    e.dst = some (normalizeArchivePath (joinPath dst rel)) ∧
    e.dst.map names = some (names (normalizeArchivePath dst) ++ names rel)
  apart : ∀ e ∈ entries, ∀ e' ∈ entries, names e.src ≠ names e'.src →
    e.dst.map names ≠ e'.dst.map names

/-- What a path holds behind a directory, or the whole path when it does not lie below it. -/
def namesBehind (base : List Text) (p : Text) : List Text :=
  if base <+: components p then (names p).drop (base.filter isPart).length else names p

/-- The longest text that the matches share leads to a directory of all of them. -/
structure LeadsToDir (disk : Disk) (ps : List Text) (t : Text) : Prop where
  all_or_none : disk.isDir t →
    (∀ p ∈ ps, components t <+: components p) ∨ ∀ p ∈ ps, ¬ components t <+: components p
  absolute : ∀ p ∈ ps, isAbsolute p → prefixDir disk t ≠ [] ∧ prefixDir disk t <+: components p
  separators : ∀ p ∈ ps, ∀ name ∈ namesBehind (prefixDir disk t) p, '\\' ∉ name

/-- The path of a match below the destination. -/
def relative (base : List Text) (p : Text) : Text := (stripPrefix base p).getD p

theorem names_relative (base : List Text) (p : Text) :
    names (relative base p) = namesBehind base p := by
  rw [relative, stripPrefix, namesBehind]
  split
  · next h =>
    rw [(names_remainder h).1, List.drop_left]
    rfl
  · rfl

theorem isAbsolute_relative (base : List Text) (p : Text) : isAbsolute (relative base p) = true ↔
    isAbsolute p ∧ ¬ (base ≠ [] ∧ base <+: components p) := by
  rw [relative, stripPrefix]
  split
  · next h =>
    rw [Option.getD_some, (names_remainder h).2]
    simp [h, and_comm]
  · next h => simp [h]

theorem all_or_none_prefixDir (h : LeadsToDir disk ps t) (ht : ∀ p ∈ ps, t <+: p) :
    (∀ p ∈ ps, prefixDir disk t <+: components p) ∨
      ∀ p ∈ ps, ¬ prefixDir disk t <+: components p := by
  by_cases hdir : disk.isDir t
  · simpa only [prefixDir, if_pos hdir] using h.all_or_none hdir
  · left
    intro p hp
    rw [prefixDir, if_neg hdir]
    exact parent_prefix (ht p hp)

theorem IsRelative.names_eq {dir : List Text} (h : IsRelative dir p rel) :
    names p = dir.filter isPart ++ names rel := by
  obtain ⟨hdir, rfl | ⟨rfl, rfl⟩⟩ := h
  · exact (names_remainder hdir).1
  · rfl

/-- What the entries place a match at. -/
def placedAt (disk : Disk) (t : Text) (info : Option ι) (dst : Text) (p : Text) :
    ResolvedExtraFile ι :=
  ⟨p, some (destination dst (prefixDir disk t) p), info, false, false⟩

theorem destination_eq (dst : Text) (base : List Text) (p : Text) :
    destination dst base p = normalizeArchivePath (joinPath dst (relative base p)) := rfl

theorem placed_of_leadsToDir (h : LeadsToDir disk ps t) (ht : ∀ p ∈ ps, t <+: p) (info : Option ι)
    (dst : Text) : Placed ps dst (ps.map (placedAt disk t info dst)) := by
  have habs : ∀ p ∈ ps, isAbsolute (relative (prefixDir disk t) p) = false := by
    intro p hp
    rw [← Bool.not_eq_true, isAbsolute_relative]
    rintro ⟨habs, hnot⟩
    exact hnot (h.absolute p hp habs)
  have hnames : ∀ p ∈ ps, names (destination dst (prefixDir disk t) p) =
      names (normalizeArchivePath dst) ++ names (relative (prefixDir disk t) p) := by
    intro p hp
    have hkeep : names (normalizeArchivePath (relative (prefixDir disk t) p)) =
        names (relative (prefixDir disk t) p) :=
      names_normalize_iff.mpr (names_relative (prefixDir disk t) p ▸ h.separators p hp)
    rw [destination_eq, names_joinPath (habs p hp), hkeep]
  have hdir : ∃ dir, ∀ p ∈ ps, IsRelative dir p (relative (prefixDir disk t) p) := by
    rcases all_or_none_prefixDir h ht with hall | hnone
    · refine ⟨prefixDir disk t, fun p hp => ⟨hall p hp, .inl ?_⟩⟩
      rw [relative, stripPrefix, if_pos (hall p hp)]
      rfl
    · refine ⟨[], fun p hp => ⟨List.nil_prefix, .inr ⟨rfl, ?_⟩⟩⟩
      rw [relative, stripPrefix, if_neg (hnone p hp)]
      rfl
  obtain ⟨dir, hdir⟩ := hdir
  refine ⟨by simp [Function.comp_def, placedAt], ⟨dir, ?_⟩, ?_⟩
  · intro e he
    obtain ⟨p, hp, rfl⟩ := List.mem_map.mp he
    exact ⟨_, hdir p hp, habs p hp, rfl, congrArg some (hnames p hp)⟩
  · intro e he e' he' hne heq
    obtain ⟨p, hp, rfl⟩ := List.mem_map.mp he
    obtain ⟨q, hq, rfl⟩ := List.mem_map.mp he'
    have hsame := Option.some.inj heq
    rw [hnames p hp, hnames q hq] at hsame
    refine hne ?_
    rw [show (placedAt disk t info dst p).src = p from rfl,
      show (placedAt disk t info dst q).src = q from rfl, (hdir p hp).names_eq,
      (hdir q hq).names_eq, List.append_cancel_left hsame]

/-- Below one destination the relative path of a match shows. -/
theorem relative_of_placed {base : List Text} (hrel : isAbsolute rel = false)
    (hdst : destination "d".toList base p = normalizeArchivePath (joinPath "d".toList rel))
    (hnames : names (destination "d".toList base p) =
      names (normalizeArchivePath "d".toList) ++ names rel) :
    isAbsolute (relative base p) = false ∧ (relative base p).length = rel.length ∧
      ∀ name ∈ names rel, '\\' ∉ name := by
  have hjoin : ∀ r : Text, isAbsolute r = false → joinPath "d".toList r = 'd' :: '/' :: r := by
    intro r hr
    simp [joinPath, hr]
  rw [hdst, names_joinPath hrel] at hnames
  have hkeep := names_normalize_iff.mp (List.append_cancel_left hnames)
  rw [destination_eq, hjoin rel hrel] at hdst
  cases habs : isAbsolute (relative base p) with
  | true =>
    have hself : joinPath "d".toList (relative base p) = relative base p := by
      simp [joinPath, habs]
    rw [hself] at hdst
    cases hr : relative base p with
    | nil => rw [hr] at habs; cases habs
    | cons c r =>
      rw [hr] at hdst habs
      obtain rfl : c = '/' := by simpa [isAbsolute] using habs
      exact absurd (List.cons.inj hdst).1 (by decide)
  | false =>
    rw [hjoin _ habs] at hdst
    have hlen := congrArg List.length hdst
    simp only [normalizeArchivePath, normalizePathSeparators, List.length_map, List.length_cons] at hlen
    exact ⟨rfl, by omega, hkeep⟩

theorem leadsToDir_of_placed {info : Option ι}
    (h : Placed ps "d".toList (ps.map (placedAt disk t info "d".toList))) :
    LeadsToDir disk ps t := by
  obtain ⟨dir, hlayout⟩ := h.layout
  have hps : ∀ p ∈ ps, ∃ rel, IsRelative dir p rel ∧
      isAbsolute (relative (prefixDir disk t) p) = false ∧
      (relative (prefixDir disk t) p).length = rel.length ∧ ∀ name ∈ names rel, '\\' ∉ name := by
    intro p hp
    obtain ⟨rel, hrel, habs, hdst, hnames⟩ := hlayout _ (List.mem_map_of_mem hp)
    obtain ⟨hrelative, hlen, hkeep⟩ :=
      relative_of_placed habs (Option.some.inj hdst) (Option.some.inj hnames)
    exact ⟨rel, hrel, hrelative, hlen, hkeep⟩
  -- a match below the directory is left at most what its relative path is
  have hbelow : ∀ p ∈ ps, prefixDir disk t <+: components p → dir.length ≤ (prefixDir disk t).length := by
    intro p hp hbase
    obtain ⟨rel, ⟨hdir, hrel⟩, -, hlen, -⟩ := hps p hp
    by_contra hlt
    have hless := length_remainder_lt (Nat.lt_of_not_le hlt) hdir.length_le
    have hrest : relative (prefixDir disk t) p = remainder p (prefixDir disk t).length := by
      rw [relative, stripPrefix, if_pos hbase]
      rfl
    rcases hrel with rfl | ⟨rfl, -⟩
    · rw [hrest] at hlen
      omega
    · exact hlt (Nat.zero_le _)
  have hnone : ∀ p ∈ ps, ¬ prefixDir disk t <+: components p → dir = [] := by
    intro p hp hbase
    obtain ⟨rel, ⟨hdir, hrel⟩, -, hlen, -⟩ := hps p hp
    by_contra hne
    have hless := length_remainder_lt (List.length_pos_iff.mpr hne) hdir.length_le
    have hle := length_remainder_zero_le p
    have hself : relative (prefixDir disk t) p = p := by
      rw [relative, stripPrefix, if_neg hbase]
      rfl
    rcases hrel with rfl | ⟨hnil, -⟩
    · rw [hself] at hlen
      omega
    · exact hne hnil
  refine ⟨fun hdir => ?_, fun p hp habs => ?_, fun p hp name hname => ?_⟩
  · have hbase : prefixDir disk t = components t := if_pos hdir
    rw [← hbase]
    by_contra hmixed
    obtain ⟨hnot, hsome⟩ := not_or.mp hmixed
    push Not at hnot hsome
    obtain ⟨q, hq, hq'⟩ := hnot
    obtain ⟨p, hp, hp'⟩ := hsome
    obtain rfl := hnone q hq hq'
    obtain ⟨rel, ⟨-, hrel⟩, -, hlen, -⟩ := hps p hp
    have hpos : 0 < (prefixDir disk t).length := by
      refine List.length_pos_iff.mpr fun hnil => hq' ?_
      rw [hnil]
      exact List.nil_prefix
    have hless := length_remainder_lt hpos hp'.length_le
    have hle := length_remainder_zero_le p
    have hrest : relative (prefixDir disk t) p = remainder p (prefixDir disk t).length := by
      rw [relative, stripPrefix, if_pos hp']
      rfl
    rw [hrest] at hlen
    rcases hrel with rfl | ⟨-, rfl⟩
    · rw [List.length_nil] at hlen
      omega
    · omega
  · obtain ⟨rel, -, hrelative, -⟩ := hps p hp
    by_contra hnot
    rw [(isAbsolute_relative _ _).mpr ⟨habs, hnot⟩] at hrelative
    cases hrelative
  · obtain ⟨rel, hrel, -, -, hkeep⟩ := hps p hp
    have hnames := hrel.names_eq
    rw [namesBehind] at hname
    split at hname
    · next hbase =>
      have hdir := List.prefix_of_prefix_length_le hrel.1 hbase (hbelow p hp hbase)
      have hle := (hdir.filter isPart).length_le
      rw [hnames, List.drop_append, List.drop_eq_nil_of_le hle, List.nil_append] at hname
      exact hkeep name (List.mem_of_mem_drop hname)
    · next hbase =>
      obtain rfl := hnone p hp hbase
      exact hkeep name (by simpa [hnames] using hname)

/-! ### Resolving an entry -/

variable {src : Text} {strict : Bool}

theorem resolveFileSpecs_detailed (hmatch : resolveGlobPatterns disk src = .ok ps)
    (hguard : guardLiteralUnmatched src ps strict = .ok ()) {strip : Option Bool}
    (hstrip : strip ≠ some true) (info : Option ι) (dst : Text) :
    resolveFileSpecs disk strict [.detailed src (some dst) info strip] =
      (longestCommonPrefix ps).map fun t => ps.map (placedAt disk t info dst) := by
  have hoff : strip.getD false = false := by
    cases strip with
    | none => rfl
    | some b => cases b <;> simp_all
  have hspec : resolveSpec disk strict (.detailed src (some dst) info strip) =
      (longestCommonPrefix ps).map fun t => ps.map (placedAt disk t info dst) := by
    simp only [resolveSpec, hmatch, hguard, hoff, Bind.bind, Except.bind]
    cases longestCommonPrefix ps <;> rfl
  rw [resolveFileSpecs, List.mapM_cons, hspec]
  cases longestCommonPrefix ps with
  | error e => rfl
  | ok t => simp [Except.map, Bind.bind, Except.bind, Pure.pure, Except.pure]

/-- The prefix is the longest text that the matches share, and every entry with a destination places
them below it in the layout of the sources. -/
structure Resolves (disk : Disk) (strict : Bool) (src : Text) (ps : List Text) (ι : Type) : Prop where
  lcp : ∃ t, longestCommonPrefix ps = .ok t ∧ IsLongestCommon ps t
  placed : ∀ (strip : Option Bool) (info : Option ι) (dst : Text), strip ≠ some true →
    ∃ entries, resolveFileSpecs disk strict [.detailed src (some dst) info strip] = .ok entries ∧
      Placed ps dst entries

/-- Matches are placed as the sources are laid out exactly when they part between characters and
what they share leads to a directory of all of them. -/
theorem resolves_iff (hmatch : resolveGlobPatterns disk src = .ok ps)
    (hguard : guardLiteralUnmatched src ps strict = .ok ()) :
    Resolves disk strict src ps ι ↔
      PartAtCharacters ps ∧ ∀ t, IsLongestCommon ps t → LeadsToDir disk ps t := by
  obtain ⟨hok, hpanic⟩ := longestCommonPrefix_cases ps
  constructor
  · rintro ⟨⟨t, hlcp, ht⟩, hplaced⟩
    have hparts : PartAtCharacters ps := by
      by_contra hnot
      rw [hpanic hnot] at hlcp
      cases hlcp
    refine ⟨hparts, fun u hu => ?_⟩
    obtain rfl := ht.unique hu
    obtain ⟨entries, hentries, hlayout⟩ := hplaced none none "d".toList (by simp)
    rw [resolveFileSpecs_detailed hmatch hguard (by simp), hlcp] at hentries
    obtain rfl := Except.ok.inj hentries
    exact leadsToDir_of_placed hlayout
  · rintro ⟨hparts, hdir⟩
    obtain ⟨t, hlcp, ht⟩ := hok hparts
    refine ⟨⟨t, hlcp, ht⟩, fun strip info dst hstrip => ⟨_, ?_,
      placed_of_leadsToDir (hdir t ht) ht.common info dst⟩⟩
    rw [resolveFileSpecs_detailed hmatch hguard hstrip, hlcp]
    rfl

/-- A directory with two files whose names differ in an accented letter. -/
def accents : Disk where
  isDir _ := false
  pathExists _ := true
  glob _ := some [some "é".toList, some "è".toList]

theorem resolves_iff_accents :
    Resolves accents true "*".toList ["é".toList, "è".toList] Unit ↔
      PartAtCharacters ["é".toList, "è".toList] ∧
        ∀ t, IsLongestCommon ["é".toList, "è".toList] t →
          LeadsToDir accents ["é".toList, "è".toList] t :=
  resolves_iff (by rfl) (by rfl)

/-- The prefix of the two names is cut inside of the letter. -/
theorem not_resolves : ¬ ∀ (disk : Disk) (strict : Bool) (src : Text) (ps : List Text),
    resolveGlobPatterns disk src = .ok ps → guardLiteralUnmatched src ps strict = .ok () →
      Resolves disk strict src ps Unit := by
  intro h
  obtain ⟨t, hlcp, -⟩ := (h accents true "*".toList ["é".toList, "è".toList] (by rfl) (by rfl)).lcp
  have hpanic : longestCommonPrefix ["é".toList, "è".toList] = .error .panicked := by
    decide +kernel
  rw [hpanic] at hlcp
  cases hlcp

end Layout

end Anodizer.FileSpecs
