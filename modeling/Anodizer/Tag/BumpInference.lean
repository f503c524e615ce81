import Anodizer.Lib.Foremost
import Anodizer.Tag.PerCrateTags
import Anodizer.Tag.ReleaseMessages

/-! # The inferred bump

`bump` infers the level of the next release from the commits since the last tag. It finds that tag
in git's version order among the tags that are strict versions, and reads every message as a
whole. The tag command finds it in the order of the versions, leniently read and without nightly
tags, and reads subjects and bodies apart, at most 500 when there is no tag.
-/

namespace Anodizer.Tag

open Template (Text CharTables)
open Git
open Foremost

/-! ### Strict versions -/

def isIdentifierChar (c : Char) : Bool := c.isAlphanum || c == '-'

def leadingZero (t : Text) : Bool := t.head? = some '0' && 1 < t.length

def isNumericIdentifier (t : Text) : Bool :=
  t ≠ [] && t.all Char.isDigit && !leadingZero t && Nat.ofDigitChars 10 t 0 < 2 ^ 64

def isPreIdentifier (t : Text) : Bool :=
  t ≠ [] && t.all isIdentifierChar && !(t.all Char.isDigit && leadingZero t)

def isBuildIdentifier (t : Text) : Bool := t ≠ [] && t.all isIdentifierChar

/-- The version parser accepts the text. -/
def isStrictVersion (t : Text) : Bool :=
  let (t, build) := match splitOnce '+' t with
    | some (t, build) => (t, some build)
    | none => (t, none)
  let (numbers, pre) := match splitOnce '-' t with
    | some (numbers, pre) => (numbers, some pre)
    | none => (t, none)
  let numbers := numbers.splitOn '.'
  numbers.length = 3 && numbers.all isNumericIdentifier &&
    pre.all (fun pre => (pre.splitOn '.').all isPreIdentifier) &&
    build.all (fun build => (build.splitOn '.').all isBuildIdentifier)

example : isStrictVersion "1.0.0-rc.1+b.01".toList := by decide
example : ¬isStrictVersion "1.0.0-01".toList := by decide

/-! ### The repository -/

/-- A repository whose tags are all reachable from its head and known to the remote. -/
structure Repository where
  tags : List Text
  /-- Git lists tags by their names. -/
  byName : tags.Pairwise (· < ·)
  remote : Option (List Text)
  onRemote : ∀ names, remote = some names → tags ⊆ names
  /-- The order of `-v:refname`. -/
  refnameLe : Text → Text → Bool
  refnameLe_trans : ∀ a b c, refnameLe a b → refnameLe b c → refnameLe a c
  refnameLe_total : ∀ a b, refnameLe a b || refnameLe b a
  refnameLe_antisymm : ∀ a b, refnameLe a b → refnameLe b a → a = b
  /-- The commits that touch a path, since a tag or ever. -/
  commits : Option Text → Text → List LoggedCommit

namespace Repository

/-- What the tag command asks git for. -/
def view (u : CharTables) (r : Repository) : GitView where
  allTags := r.tags
  mergedTags := r.tags
  remoteTags := r.remote
  lastMessages expand count path := some (releaseMessages u
    (Template.trim (logApart ((r.commits none path).take count))) expand)
  messagesSince expand tag path := some (releaseMessages u
    (Template.trim (logApart (r.commits (some tag) path))) expand)

def listTagsWithPrefix (r : Repository) (pfx : Text) : List Text :=
  (r.tags.filter (pfx.isPrefixOf ·)).mergeSort r.refnameLe

end Repository

/-- The rest of the tag is a version, strictly read. -/
def isReleaseOf (pfx tag : Text) : Bool :=
  pfx.isPrefixOf tag && isStrictVersion (tag.drop pfx.length)

def findLastTagForPrefix (r : Repository) (pfx : Text) : Option Text :=
  (r.listTagsWithPrefix pfx).find? (isReleaseOf pfx)

/-! ### The inferred level -/

inductive BumpLevel
  | major
  | minor
  | patch
  | explicit
  | release
  | skip
  deriving DecidableEq, Repr

structure LevelCounts where
  major : ℕ
  minor : ℕ
  patch : ℕ
  other : ℕ
  deriving DecidableEq, Repr

def LevelCounts.count (counts : LevelCounts) (msg : Text) : LevelCounts :=
  match classifyCommit msg with
  | some .major => { counts with major := counts.major + 1 }
  | some .minor => { counts with minor := counts.minor + 1 }
  | some .patch => { counts with patch := counts.patch + 1 }
  | none => { counts with other := counts.other + 1 }

def classify (messages : List Text) : BumpLevel × LevelCounts :=
  let counts := messages.foldl LevelCounts.count ⟨0, 0, 0, 0⟩
  let level : BumpLevel :=
    if 0 < counts.major then .major
    else if 0 < counts.minor then .minor
    else if 0 < counts.patch then .patch
    else .skip
  (level, counts)

def countNoun (n : ℕ) (singular plural : Text) : Text :=
  Nat.toDigits 10 n ++ ' ' :: if n = 1 then singular else plural

def formatReason (level : BumpLevel) (c : LevelCounts) (lastTag : Option Text) : Text :=
  let total := c.major + c.minor + c.patch + c.other
  let scope := match lastTag with
    | some t => " since ".toList ++ t
    | none => []
  match level with
  | .major => countNoun c.major "breaking change".toList "breaking changes".toList ++ scope
  | .minor => countNoun c.minor "feat commit".toList "feat commits".toList ++ scope
  | .patch => countNoun c.patch "fix/perf/revert commit".toList "fix/perf/revert commits".toList ++
      scope
  | .skip =>
    if total = 0 then "no commits".toList ++ scope
    else countNoun total "non-bumping message".toList "non-bumping messages".toList ++ scope
  | _ => []

structure InferenceResult where
  level : BumpLevel
  reason : Text
  deriving DecidableEq, Repr

/-- The scope of a crate: its directory, or the whole tree for one at the root. -/
def crateScope (rel : Text) : Text := if rel = [] then ".".toList else rel

def inferForCrate (u : CharTables) (r : Repository) (rel tagPrefix : Text)
    (expandSquashMerges : Bool) : InferenceResult :=
  let lastTag := findLastTagForPrefix r tagPrefix
  let messages := logSubjects u (logWhole (r.commits lastTag (crateScope rel))) expandSquashMerges
  if messages = [] then
    { level := .skip
      reason := match lastTag with
        | some t => "no commits since ".toList ++ t
        | none => "no commits touching this crate".toList }
  else
    let (level, counts) := classify messages
    { level := level, reason := formatReason level counts lastTag }

def BumpKind.level : BumpKind → BumpLevel
  | .major => .major
  | .minor => .minor
  | .patch => .patch
  | .none => .skip

/-! ### The tag -/

section LastTag

variable {u : CharTables} {r : Repository} {p t : Text} {v : SemVer}

theorem isFirst_findLastTag (r : Repository) (p : Text) :
    IsFirst (isReleaseOf p · = true) (r.refnameLe · · = true) r.tags
      (findLastTagForPrefix r p) := by
  have hrefl : ∀ a, r.refnameLe a a := fun a => by simpa using r.refnameLe_total a a
  refine isFirst_find? hrefl (List.pairwise_mergeSort r.refnameLe_trans r.refnameLe_total _) ?_
  intro t ht
  have hpfx : p.isPrefixOf t := (Bool.and_eq_true_iff.mp ht).1
  rw [Repository.listTagsWithPrefix, List.mem_mergeSort, List.mem_filter]
  simp [hpfx]

/-- A tag of the prefix that the tag command takes into account. -/
def Kept (u : CharTables) (p t : Text) : Prop :=
  isNightlyTag t = false ∧ p <+: t ∧ (parseSemverTag u t).isSome

/-- The order in which the tag command lists the tags: by version, then by name. -/
def Precedes (u : CharTables) (s t : Text) : Prop :=
  ∀ v w, parseSemverTag u s = some v → parseSemverTag u t = some w →
    w.key < v.key ∨ w.key = v.key ∧ s ≤ t

def noIgnore : Ignore := ⟨[], []⟩

theorem mem_plannerMatching {tags : List Text} :
    (v, t) ∈ plannerMatching u tags p noIgnore ↔
      t ∈ tags ∧ isNightlyTag t = false ∧ p <+: t ∧ parseSemverTag u t = some v := by
  rw [plannerMatching, List.mem_filterMap]
  constructor
  · rintro ⟨s, hs, hv⟩
    obtain ⟨w, hw, heq⟩ := Option.map_eq_some_iff.mp hv
    obtain ⟨rfl, rfl⟩ := Prod.mk.inj heq
    obtain ⟨hmem, hkeep⟩ := List.mem_filter.mp hs
    simp only [noIgnore, Ignore.byGlob, Ignore.byPrefix, List.any_nil, Bool.not_false,
      Bool.and_true, Bool.and_eq_true, Bool.not_eq_true', List.isPrefixOf_iff_prefix] at hkeep
    exact ⟨hmem, hkeep.1, hkeep.2, hw⟩
  · rintro ⟨hmem, hn, hp, hv⟩
    refine ⟨t, List.mem_filter.mpr ⟨hmem, ?_⟩, by rw [hv]; rfl⟩
    simp [noIgnore, Ignore.byGlob, Ignore.byPrefix, hn, hp]

theorem isFirst_collectSemverTags {tags : List Text} (hnames : tags.Pairwise (· < ·)) :
    IsFirst (Kept u p) (Precedes u) tags (collectSemverTags u tags p noIgnore).head? := by
  have hle : ∀ a b : SemVer × Text, (b.1.compare a.1 != .gt) = true ↔ b.1.key ≤ a.1.key := by
    intro a b
    rw [bne_iff_ne, ne_eq, SemVer.compare_eq_gt, not_lt]
  have hbefore : (plannerMatching u tags p noIgnore).Pairwise fun a b => a.2 < b.2 := by
    rw [plannerMatching, List.pairwise_filterMap]
    refine (hnames.filter _).imp ?_
    intro s t hst a ha b hb
    obtain ⟨v, -, rfl⟩ := Option.map_eq_some_iff.mp ha
    obtain ⟨w, -, rfl⟩ := Option.map_eq_some_iff.mp hb
    exact hst
  have hfirst : IsFirst _ _ _ ((plannerMatching u tags p noIgnore).mergeSort fun a b =>
      b.1.compare a.1 != .gt).head? := isFirst_head?_mergeSort
    (fun a b c hab hbc => (hle a c).mpr (((hle b c).mp hbc).trans ((hle a b).mp hab)))
    (fun a b => by
      rw [Bool.or_eq_true, hle, hle]
      exact le_total _ _)
    (fun a => lt_irrefl a.2) hbefore
  rw [collectSemverTags, List.head?_map]
  cases hhead : ((plannerMatching u tags p noIgnore).mergeSort fun a b =>
      b.1.compare a.1 != .gt).head? with
  | none =>
    rw [hhead] at hfirst
    rintro t ht ⟨hn, hp, hsome⟩
    obtain ⟨v, hv⟩ := Option.isSome_iff_exists.mp hsome
    exact hfirst (v, t) (mem_plannerMatching.mpr ⟨ht, hn, hp, hv⟩) trivial
  | some vt =>
    obtain ⟨v, t⟩ := vt
    rw [hhead] at hfirst
    obtain ⟨hmem, -, hall⟩ := hfirst
    obtain ⟨ht, hn, hp, hv⟩ := mem_plannerMatching.mp hmem
    refine ⟨ht, ⟨hn, hp, by rw [hv]; rfl⟩, ?_⟩
    rintro s hs ⟨hsn, hsp, hsome⟩ v' w hv' hw
    obtain rfl := Option.some.inj (hv.symm.trans hv')
    obtain ⟨hkey, htie⟩ := hall (w, s) (mem_plannerMatching.mpr ⟨hs, hsn, hsp, hw⟩) trivial
    rcases ((hle (v, t) (w, s)).mp hkey).lt_or_eq with hlt | heq
    · exact .inl hlt
    · refine .inr ⟨heq, ?_⟩
      rcases htie ((hle (w, s) (v, t)).mpr heq.ge) with heq | hlt
      · exact (congrArg Prod.snd heq).le
      · exact le_of_lt hlt

/-- The configuration of a crate that sets nothing but its prefix and the squash merges. -/
def unitConfig (p : Text) (expandSquashMerges : Bool) : ResolvedConfig :=
  { ResolvedConfig.default with tagPrefix := p, expandSquashMerges := expandSquashMerges }

def gitDefaults : GitConfig where
  tagSort := none
  ignore := noIgnore

theorem findPreviousTag_eq (r : Repository) (p : Text) (expand : Bool) :
    findPreviousTag u (r.view u) gitDefaults (unitConfig p expand) =
      (collectSemverTags u r.tags p noIgnore).head? := by
  have hscoped : (r.view u).scopedTags (unitConfig p expand) = r.tags := by
    unfold GitView.scopedTags
    split <;> rfl
  have hmem : ∀ t ∈ collectSemverTags u r.tags p noIgnore, t ∈ r.tags := fun t ht =>
    (mem_collectSemverTags.mp ht).1
  unfold findPreviousTag
  rw [hscoped]
  cases hr : r.remote with
  | none =>
    simp only [Repository.view, hr]
    rfl
  | some names =>
    simp only [Repository.view, hr]
    refine congrArg List.head? (List.filter_eq_self.mpr fun t ht => ?_)
    simpa using r.onRemote names hr (hmem t ht)

theorem isFirst_findPreviousTag (r : Repository) (p : Text) (expand : Bool) :
    IsFirst (Kept u p) (Precedes u) r.tags
      (findPreviousTag u (r.view u) gitDefaults (unitConfig p expand)) := by
  rw [findPreviousTag_eq]
  exact isFirst_collectSemverTags r.byName

theorem precedes_antisymm {s t : Text} (hs : Kept u p s) (ht : Kept u p t)
    (hst : Precedes u s t) (hts : Precedes u t s) : s = t := by
  obtain ⟨v, hv⟩ := Option.isSome_iff_exists.mp hs.2.2
  obtain ⟨w, hw⟩ := Option.isSome_iff_exists.mp ht.2.2
  rcases hst v w hv hw with hlt | ⟨-, hle⟩
  · rcases hts w v hw hv with hgt | ⟨heq, -⟩
    · exact absurd hlt (lt_asymm hgt)
    · exact absurd heq hlt.ne'
  · rcases hts w v hw hv with hgt | ⟨-, hle'⟩
    · rcases hst v w hv hw with hlt | ⟨heq, -⟩
      · exact absurd hlt (lt_asymm hgt)
      · exact absurd heq hgt.ne'
    · exact le_antisymm hle hle'

theorem findLastTag_eq_iff {o : Option Text} : findLastTagForPrefix r p = o ↔
    IsFirst (isReleaseOf p · = true) (r.refnameLe · · = true) r.tags o := by
  constructor
  · rintro rfl
    exact isFirst_findLastTag r p
  · intro h
    exact (isFirst_findLastTag r p).unique
      (fun a _ b _ _ _ => r.refnameLe_antisymm a b) h

theorem findPreviousTag_eq_iff {o : Option Text} {expand : Bool} :
    findPreviousTag u (r.view u) gitDefaults (unitConfig p expand) = o ↔
      IsFirst (Kept u p) (Precedes u) r.tags o := by
  constructor
  · rintro rfl
    exact isFirst_findPreviousTag r p expand
  · intro h
    exact (isFirst_findPreviousTag r p expand).unique
      (fun a _ b _ ha hb => precedes_antisymm ha hb) h

end LastTag

/-! ### The level -/

section Level

variable {ms ms' : List Text} {k l : ConventionalLevel}

/-- Some message asks for at least the level. -/
def Asks (l : ConventionalLevel) (ms : List Text) : Prop :=
  ∃ m ∈ ms, ∃ k, classifyCommit m = some k ∧ l.rank ≤ k.rank

theorem rank_injective : Function.Injective ConventionalLevel.rank := by
  intro a b h
  cases a <;> cases b <;> first | rfl | cases h

theorem rank_max (a b : ConventionalLevel) : (max a b).rank = max a.rank b.rank := by
  cases a <;> cases b <;> rfl

theorem max_mem (a b : ConventionalLevel) : max a b = a ∨ max a b = b := by
  cases a <;> cases b <;> simp [max, ConventionalLevel.rank]

theorem foldl_max (a : ConventionalLevel) (ls : List ConventionalLevel) :
    ls.foldl max a ∈ a :: ls ∧ ∀ l ∈ a :: ls, l.rank ≤ (ls.foldl max a).rank := by
  induction ls generalizing a with
  | nil => simp
  | cons b ls ih =>
    obtain ⟨hmem, hle⟩ := ih (max a b)
    rw [List.foldl_cons]
    obtain ⟨hhead, htail⟩ := List.forall_mem_cons.mp hle
    rw [rank_max, max_le_iff] at hhead
    constructor
    · rcases List.mem_cons.mp hmem with heq | hmem
      · rw [heq]
        rcases max_mem a b with h | h <;> simp [h]
      · exact List.mem_cons_of_mem _ (List.mem_cons_of_mem _ hmem)
    · intro l hl
      rcases List.mem_cons.mp hl with rfl | hl
      · exact hhead.1
      · rcases List.mem_cons.mp hl with rfl | hl
        · exact hhead.2
        · exact htail l hl

/-- The strongest level of the messages. -/
def strongest (ms : List Text) : Option ConventionalLevel := (ms.filterMap classifyCommit).max?

theorem asks_iff : Asks l ms ↔ ∃ k, strongest ms = some k ∧ l.rank ≤ k.rank := by
  have hmem : Asks l ms ↔ ∃ k ∈ ms.filterMap classifyCommit, l.rank ≤ k.rank := by
    unfold Asks
    constructor
    · rintro ⟨m, hm, k, hk, hle⟩
      exact ⟨k, List.mem_filterMap.mpr ⟨m, hm, hk⟩, hle⟩
    · rintro ⟨k, hk, hle⟩
      obtain ⟨m, hm, hmk⟩ := List.mem_filterMap.mp hk
      exact ⟨m, hm, k, hmk, hle⟩
  rw [hmem, strongest]
  cases ms.filterMap classifyCommit with
  | nil => simp
  | cons a ls =>
    obtain ⟨hin, hle⟩ := foldl_max a ls
    rw [List.max?_cons']
    constructor
    · rintro ⟨k, hk, hlk⟩
      exact ⟨_, rfl, hlk.trans (hle k hk)⟩
    · rintro ⟨k, hk, hlk⟩
      obtain rfl := Option.some.inj hk
      exact ⟨_, hin, hlk⟩

theorem strongest_eq_iff : strongest ms = strongest ms' ↔ ∀ l, Asks l ms ↔ Asks l ms' := by
  constructor
  · intro h l
    rw [asks_iff, asks_iff, h]
  · intro h
    have hle : ∀ {ms ms'}, (∀ l, Asks l ms → Asks l ms') → ∀ k, strongest ms = some k →
        ∃ k', strongest ms' = some k' ∧ k.rank ≤ k'.rank := fun h k hk =>
      asks_iff.mp (h k (asks_iff.mpr ⟨k, hk, le_rfl⟩))
    cases hs : strongest ms with
    | none =>
      cases hs' : strongest ms' with
      | none => rfl
      | some k' =>
        obtain ⟨k, hk, -⟩ := hle (fun l => (h l).mpr) k' hs'
        simp [hs] at hk
    | some k =>
      obtain ⟨k', hk', hkk'⟩ := hle (fun l => (h l).mp) k hs
      obtain ⟨k'', hk'', hkk''⟩ := hle (fun l => (h l).mpr) k' hk'
      obtain rfl := Option.some.inj (hs.symm.trans hk'')
      rw [hk', rank_injective (le_antisymm hkk' hkk'')]

def levelOf : Option ConventionalLevel → BumpLevel
  | some .major => .major
  | some .minor => .minor
  | some .patch => .patch
  | none => .skip

theorem levelOf_injective : Function.Injective levelOf := by
  intro a b h
  rcases a with _ | (_ | _ | _) <;> rcases b with _ | (_ | _ | _) <;> first | rfl | cases h

theorem foldl_count (ms : List Text) (c : LevelCounts) :
    (ms.foldl LevelCounts.count c).major =
        c.major + ms.countP (classifyCommit · = some .major) ∧
      (ms.foldl LevelCounts.count c).minor =
        c.minor + ms.countP (classifyCommit · = some .minor) ∧
      (ms.foldl LevelCounts.count c).patch =
        c.patch + ms.countP (classifyCommit · = some .patch) := by
  induction ms generalizing c with
  | nil => simp
  | cons m ms ih =>
    obtain ⟨hmajor, hminor, hpatch⟩ := ih (c.count m)
    rw [List.foldl_cons, hmajor, hminor, hpatch, List.countP_cons, List.countP_cons,
      List.countP_cons]
    unfold LevelCounts.count
    rcases classifyCommit m with _ | (_ | _ | _) <;> simp <;> omega

/-- The counts give the strongest level. -/
theorem classify_level (ms : List Text) : (classify ms).1 = levelOf (strongest ms) := by
  obtain ⟨hmajor, hminor, hpatch⟩ := foldl_count ms ⟨0, 0, 0, 0⟩
  have hpos : ∀ k, 0 < ms.countP (classifyCommit · = some k) ↔ k ∈ ms.filterMap classifyCommit := by
    intro k
    rw [List.countP_pos_iff, List.mem_filterMap]
    simp
  simp only [classify, hmajor, hminor, hpatch, Nat.zero_add, hpos, strongest]
  cases ms.filterMap classifyCommit with
  | nil => simp [levelOf]
  | cons a ls =>
    obtain ⟨hin, hle⟩ := foldl_max a ls
    rw [List.max?_cons']
    generalize ls.foldl max a = k at hin hle
    have hno : ∀ l, k.rank < l.rank → l ∉ a :: ls := fun l hl hmem =>
      absurd (hle l hmem) (not_le.mpr hl)
    cases k with
    | major => simp only [if_pos hin, levelOf]
    | minor =>
      rw [if_neg (hno .major (by decide)), if_pos hin, levelOf]
    | patch =>
      rw [if_neg (hno .major (by decide)), if_neg (hno .minor (by decide)), if_pos hin, levelOf]

/-- Without tokens, and with the default settings, the bump is the strongest level. -/
theorem detectBumpDemoted_level {u : CharTables} {p : Text} {expand : Bool} {prev : Option Text}
    (htokens : ∀ m ∈ ms, ∀ token ∈ ["#major".toList, "#minor".toList, "#patch".toList,
      "#none".toList], messageHasToken m token = false) :
    (detectBumpDemoted u ms (unitConfig p expand) prev).level = levelOf (strongest ms) := by
  have hno : ∀ token ∈ ["#major".toList, "#minor".toList, "#patch".toList, "#none".toList],
      ms.any (messageHasToken · token) = false := by
    intro token htoken
    rw [List.any_eq_false]
    intro m hm
    simp [htokens m hm token htoken]
  have hmajor := hno "#major".toList (by simp)
  have hminor := hno "#minor".toList (by simp)
  have hpatch := hno "#patch".toList (by simp)
  have hnone := hno "#none".toList (by simp)
  have hexplicit : hasExplicitBumpToken ms (unitConfig p expand) = false := by
    simp only [hasExplicitBumpToken, unitConfig, ResolvedConfig.default, hmajor, hminor, hpatch,
      Bool.or_false]
  have hdetect : (detectBump ms (unitConfig p expand)).level = levelOf (strongest ms) := by
    simp only [detectBump, unitConfig, ResolvedConfig.default, hmajor, hminor, hpatch, hnone,
      Bool.false_eq_true, if_false, detectConventionalBump, strongest]
    rcases (ms.filterMap classifyCommit).max? with _ | (_ | _ | _) <;> rfl
  have hdemote : ∀ b n, demotePreMajor b n false false = b := by
    intro b n
    unfold demotePreMajor
    split
    · rfl
    · cases b <;> rfl
  rw [detectBumpDemoted, hexplicit, if_neg Bool.false_ne_true]
  exact (congrArg BumpKind.level (hdemote _ _)).trans hdetect

end Level

/-! ### Whether the two commands agree -/

section Agree

variable {u : CharTables} {r : Repository} {p rel : Text} {expand : Bool} {l : ConventionalLevel}
  {read older commits : List LoggedCommit}

def bumpTokens : List Text := ["#major".toList, "#minor".toList, "#patch".toList, "#none".toList]

/-- No bump token is a word of a message. -/
def NoBumpToken (r : Repository) (path : Text) : Prop :=
  ∀ since, ∀ c ∈ r.commits since path, ∀ token ∈ bumpTokens, ¬IsWordOf c.message token

def bumpBetween (u : CharTables) (r : Repository) (rel p : Text) (expand : Bool)
    (prevTag : Option Text) : Option BumpKind :=
  (getMessagesForBump (r.view u) (unitConfig p expand) prevTag (crateScope rel)).map fun messages =>
    detectBumpDemoted u messages (unitConfig p expand) prevTag

/-- `bump` finds the tag and infers the level of the tag command. -/
structure InfersTheCut (u : CharTables) (r : Repository) (rel p : Text) (expand : Bool) :
    Prop where
  sameTag : findLastTagForPrefix r p =
    findPreviousTag u (r.view u) gitDefaults (unitConfig p expand)
  sameLevel : (bumpBetween u r rel p expand
      (findPreviousTag u (r.view u) gitDefaults (unitConfig p expand))).map BumpKind.level =
    some (inferForCrate u r rel p expand).level

/-- The commits that the tag command reads, of all that touch the path. -/
def window (prevTag : Option Text) (commits : List LoggedCommit) : List LoggedCommit :=
  match prevTag with
  | some _ => commits
  | none => commits.take 500

def beyond (prevTag : Option Text) (commits : List LoggedCommit) : List LoggedCommit :=
  match prevTag with
  | some _ => []
  | none => commits.drop 500

theorem window_append_beyond (prevTag : Option Text) (commits : List LoggedCommit) :
    window prevTag commits ++ beyond prevTag commits = commits := by
  cases prevTag with
  | none => exact List.take_append_drop 500 commits
  | some t => exact List.append_nil commits

/-- A commit that only `bump` reads, and a commit whose first paragraph is not one line, ask for
no more than what the other command reads. -/
structure SignalsAgree (u : CharTables) (expand : Bool) (read older : List LoggedCommit) : Prop where
  beyond : ∀ c ∈ older, ∀ l, Asks l (wholeMessages u expand c.message) →
    ∃ d ∈ read, Asks l (apartMessages u expand d.message)
  whole : ∀ c ∈ read, ¬Plain c.message → ∀ l, Asks l (wholeMessages u expand c.message) →
    ∃ d ∈ read, Asks l (apartMessages u expand d.message)
  apart : ∀ c ∈ read, ¬Plain c.message → ∀ l, Asks l (apartMessages u expand c.message) →
    ∃ d ∈ read ++ older, Asks l (wholeMessages u expand d.message)

theorem asks_flatMap {f : LoggedCommit → List Text} :
    Asks l (commits.flatMap f) ↔ ∃ c ∈ commits, Asks l (f c) := by
  unfold Asks
  constructor
  · rintro ⟨m, hm, hk⟩
    obtain ⟨c, hc, hmc⟩ := List.mem_flatMap.mp hm
    exact ⟨c, hc, m, hmc, hk⟩
  · rintro ⟨c, hc, m, hmc, hk⟩
    exact ⟨m, List.mem_flatMap.mpr ⟨c, hc, hmc⟩, hk⟩

/-- The two readings of the history have the same strongest level exactly when the commits they
read differently leave it as it is. -/
theorem strongest_eq_iff_signalsAgree :
    strongest ((read ++ older).flatMap fun c => wholeMessages u expand c.message) =
        strongest (read.flatMap fun c => apartMessages u expand c.message) ↔
      SignalsAgree u expand read older := by
  rw [strongest_eq_iff]
  simp only [asks_flatMap]
  constructor
  · intro h
    refine ⟨?_, ?_, ?_⟩
    · intro c hc l hl
      exact (h l).mp ⟨c, List.mem_append_right _ hc, hl⟩
    · intro c hc _ l hl
      exact (h l).mp ⟨c, List.mem_append_left _ hc, hl⟩
    · intro c hc _ l hl
      exact (h l).mpr ⟨c, hc, hl⟩
  · intro h l
    constructor
    · rintro ⟨c, hc, hl⟩
      rcases List.mem_append.mp hc with hc | hc
      · by_cases hplain : Plain c.message
        · rw [hplain.wholeMessages_eq] at hl
          exact ⟨c, hc, hl⟩
        · exact h.whole c hc hplain l hl
      · exact h.beyond c hc l hl
    · rintro ⟨c, hc, hl⟩
      by_cases hplain : Plain c.message
      · rw [← hplain.wholeMessages_eq] at hl
        exact ⟨c, List.mem_append_left _ hc, hl⟩
      · exact h.apart c hc hplain l hl

/-- The messages that the tag command reads. -/
theorem getMessagesForBump_eq (prevTag : Option Text) (path : Text) :
    getMessagesForBump (r.view u) (unitConfig p expand) prevTag path =
      some ((window prevTag (r.commits prevTag path)).flatMap fun c =>
        apartMessages u expand c.message) := by
  have hlast : (unitConfig p expand).branchHistory ≠ "last".toList := by
    simp only [unitConfig, ResolvedConfig.default]
    decide
  have hcompare : (unitConfig p expand).branchHistory ∈ ["full".toList, "compare".toList] := by
    simp [unitConfig, ResolvedConfig.default]
  unfold getMessagesForBump
  rw [if_neg hlast, if_pos hcompare]
  cases prevTag with
  | none => exact congrArg some (releaseMessages_logApart _)
  | some t => exact congrArg some (releaseMessages_logApart _)

theorem inferForCrate_level : (inferForCrate u r rel p expand).level =
    levelOf (strongest ((r.commits (findLastTagForPrefix r p) (crateScope rel)).flatMap fun c =>
      wholeMessages u expand c.message)) := by
  simp only [inferForCrate, logSubjects_logWhole]
  split
  · next hnil =>
    rw [hnil]
    rfl
  · exact classify_level _

theorem window_subset (prevTag : Option Text) : window prevTag commits ⊆ commits := by
  cases prevTag with
  | none => exact (List.take_sublist _ _).subset
  | some t => exact List.Subset.refl _

theorem bumpBetween_level (htokens : NoBumpToken r (crateScope rel)) (prevTag : Option Text) :
    (bumpBetween u r rel p expand prevTag).map BumpKind.level =
      some (levelOf (strongest ((window prevTag (r.commits prevTag (crateScope rel))).flatMap
        fun c => apartMessages u expand c.message))) := by
  rw [bumpBetween, getMessagesForBump_eq, Option.map_some, Option.map_some, detectBumpDemoted_level]
  intro m hm token htoken
  rw [← Bool.not_eq_true]
  intro hhas
  obtain ⟨c, hc, hmc⟩ := List.mem_flatMap.mp hm
  have hne : ∀ token ∈ bumpTokens, token ≠ [] := by decide
  exact htokens prevTag c (window_subset prevTag hc) token htoken
    (isWordOf_apartMessages hmc (isWordOf_of_messageHasToken (hne token htoken) hhas))

/-- `bump` infers what the tag command cuts exactly when one tag is the last to both commands, or
there is none to either, and the commits they read differently do not change the level. -/
theorem infersTheCut_iff (htokens : NoBumpToken r (crateScope rel)) :
    InfersTheCut u r rel p expand ↔ ∃ prevTag,
      IsFirst (isReleaseOf p · = true) (r.refnameLe · · = true) r.tags prevTag ∧
      IsFirst (Kept u p) (Precedes u) r.tags prevTag ∧
      SignalsAgree u expand (window prevTag (r.commits prevTag (crateScope rel)))
        (beyond prevTag (r.commits prevTag (crateScope rel))) := by
  have hlevel : ∀ {prevTag}, findLastTagForPrefix r p = prevTag →
      ((bumpBetween u r rel p expand prevTag).map BumpKind.level =
          some (inferForCrate u r rel p expand).level ↔
        SignalsAgree u expand (window prevTag (r.commits prevTag (crateScope rel)))
          (beyond prevTag (r.commits prevTag (crateScope rel)))) := by
    intro prevTag hprev
    rw [bumpBetween_level htokens, inferForCrate_level, hprev, Option.some.injEq,
      levelOf_injective.eq_iff, ← strongest_eq_iff_signalsAgree, window_append_beyond]
    exact eq_comm
  constructor
  · rintro ⟨htag, hsame⟩
    refine ⟨findPreviousTag u (r.view u) gitDefaults (unitConfig p expand),
      findLastTag_eq_iff.mp htag, isFirst_findPreviousTag r p expand, ?_⟩
    exact (hlevel htag).mp hsame
  · rintro ⟨prevTag, hlast, hkept, hsignals⟩
    have hlast := findLastTag_eq_iff.mpr hlast
    have hprev : findPreviousTag u (r.view u) gitDefaults (unitConfig p expand) = prevTag :=
      findPreviousTag_eq_iff.mpr hkept
    refine ⟨hlast.trans hprev.symm, ?_⟩
    rw [hprev]
    exact (hlevel hlast).mpr hsignals

end Agree

/-- A repository without commits. Its tags are listed with the greater text first. -/
def tagsOnly (tags : List Text) (h : tags.Pairwise (· < ·)) : Repository where
  tags := tags
  byName := h
  remote := none
  onRemote := by simp
  refnameLe a b := b ≤ a
  refnameLe_trans a b c hab hbc := by
    simp only [decide_eq_true_eq] at hab hbc ⊢
    exact hbc.trans hab
  refnameLe_total a b := by
    simp only [Bool.or_eq_true, decide_eq_true_eq]
    exact le_total b a
  refnameLe_antisymm a b hab hba := by
    simp only [decide_eq_true_eq] at hab hba
    exact le_antisymm hba hab
  commits _ _ := []

def releasedTag : Text := "v1.0.0".toList

def nightlyTag : Text := "v1.1.0-nightly.1".toList

def releasedRepository : Repository := tagsOnly [releasedTag] (by decide)

def nightlyRepository : Repository := tagsOnly [releasedTag, nightlyTag] (by decide)

theorem kept_releasedTag : Kept .ascii ['v'] releasedTag :=
  ⟨by decide, by decide, by decide +kernel⟩

theorem infersTheCut_released :
    InfersTheCut .ascii releasedRepository "crates/core".toList ['v'] true := by
  refine (infersTheCut_iff fun since c hc => absurd hc (by simp [releasedRepository, tagsOnly])).mpr
    ⟨some releasedTag, ⟨List.mem_cons_self, by decide, ?_⟩,
      ⟨List.mem_cons_self, kept_releasedTag, ?_⟩, ⟨by nofun, by nofun, by nofun⟩⟩
  · intro b hb _
    obtain rfl := List.mem_singleton.mp hb
    decide
  · intro b hb _ v w hv hw
    obtain rfl := List.mem_singleton.mp hb
    obtain rfl := Option.some.inj (hv.symm.trans hw)
    exact .inr ⟨rfl, le_rfl⟩

/-- A nightly tag is the last one to `bump` only. -/
theorem not_infersTheCut : ¬∀ (u : CharTables) (r : Repository) (rel p : Text) (expand : Bool),
    NoBumpToken r (crateScope rel) → InfersTheCut u r rel p expand := by
  intro h
  have hsame := (h .ascii nightlyRepository "crates/core".toList ['v'] true
    fun since c hc => absurd hc (by simp [nightlyRepository, tagsOnly])).sameTag
  have hlast : findLastTagForPrefix nightlyRepository ['v'] = some nightlyTag := by
    refine findLastTag_eq_iff.mpr ⟨List.mem_cons_of_mem _ List.mem_cons_self, by decide, ?_⟩
    intro b hb _
    rcases List.mem_cons.mp hb with rfl | hb
    · decide
    · obtain rfl := List.mem_singleton.mp hb
      decide
  have hprev : findPreviousTag .ascii (nightlyRepository.view .ascii) gitDefaults
      (unitConfig ['v'] true) = some releasedTag := by
    refine findPreviousTag_eq_iff.mpr ⟨List.mem_cons_self, kept_releasedTag, ?_⟩
    intro b hb hkept v w hv hw
    rcases List.mem_cons.mp hb with rfl | hb
    · obtain rfl := Option.some.inj (hv.symm.trans hw)
      exact .inr ⟨rfl, le_rfl⟩
    · obtain rfl := List.mem_singleton.mp hb
      have hnightly : isNightlyTag nightlyTag = true := by decide
      exact absurd (hnightly.symm.trans hkept.1) (by simp)
  rw [hlast, hprev] at hsame
  revert hsame
  decide

end Anodizer.Tag
