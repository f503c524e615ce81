import Anodizer.Git.Spelling
import Anodizer.Lib.SplitOnce
import Mathlib.Data.List.Sort

/-! # The versions of a package

A registry lists one entry for each uploaded file. The files of a release spell its version
as their formats ask for, so a spelling is cut down to the release before the entries are
grouped. The groups are ranked, and those behind the newest ones are deleted.
-/

namespace Anodizer.Cloudsmith

open Git (SemVer parseSemver)
open Template (Text CharTables)

structure VersionEntry where
  slug : Text
  version : Text
  uploadedAt : Text
  deriving DecidableEq, Repr

/-! ### Spellings -/

def isRevision (tail : Text) : Bool :=
  let body := if tail.head? = some 'r' then tail.tail else tail
  body ≠ [] && body.all Char.isDigit

/-- A version without the epoch before its first colon. -/
def afterEpoch (version : Text) : Text :=
  match SplitOnce.first ':' version with
  | some (epoch, rest) => if epoch ≠ [] && epoch.all Char.isDigit then rest else version
  | none => version

section Rank

variable (u : CharTables)

/-- A version without a packaging revision, where what precedes it is a version. -/
def withoutRevision (version : Text) : Text :=
  match SplitOnce.last '-' version with
  | some (head, tail) => if isRevision tail && (parseSemver u head).isSome then head else version
  | none => version

def normalizeCloudsmithVersion (version : Text) : Text := withoutRevision u (afterEpoch version)

/-! ### Ranking -/

/-- The groups of the entries read so far, with the newest upload of each. -/
structure Ranking where
  order : List Text
  buckets : Text → Option (List VersionEntry)
  newestTs : Text → Text

def Ranking.add (r : Ranking) (e : VersionEntry) : Ranking :=
  let norm := normalizeCloudsmithVersion u e.version
  let ts := r.newestTs norm
  { order := if (r.buckets norm).isSome then r.order else r.order ++ [norm]
    buckets := Function.update r.buckets norm (some ((r.buckets norm).getD [] ++ [e]))
    newestTs := Function.update r.newestTs norm (if ts < e.uploadedAt then e.uploadedAt else ts) }

def collect (entries : List VersionEntry) : Ranking :=
  entries.foldl (Ranking.add u) ⟨[], fun _ => none, fun _ => []⟩

/-- Newer versions come first, what is no version comes last. -/
def compareRank (newestTs : Text → Text) (a b : Text) : Ordering :=
  match parseSemver u a, parseSemver u b with
  | some va, some vb => vb.compare va
  | some _, none => .lt
  | none, some _ => .gt
  | none, none => cmp (newestTs b) (newestTs a)

def rankDistinctVersionsDesc (entries : List VersionEntry) :
    List Text × (Text → Option (List VersionEntry)) :=
  let r := collect u entries
  (r.order.insertionSort fun a b => compareRank u r.newestTs a b ≠ .gt, r.buckets)

def selectVersionsToPrune (entries : List VersionEntry) (keep : ℕ) (currentVersion : Text) :
    List Text :=
  if keep = 0 || entries.isEmpty then []
  else
    let currentNorm := normalizeCloudsmithVersion u currentVersion
    let (order, buckets) := rankDistinctVersionsDesc u entries
    let kept := currentNorm :: order.take keep
    (order.filter (· ∉ kept)).flatMap fun v => ((buckets v).getD []).map (·.slug)

end Rank

variable {u : CharTables} {n s t head tail : Text}

/-! ### Cutting a spelling -/

def Digits (n : Text) : Prop := n ≠ [] ∧ ∀ c ∈ n, c.isDigit

theorem Digits.notMem {c : Char} (h : Digits n) (hc : c.isDigit = false) : c ∉ n := fun hmem =>
  absurd (h.2 c hmem) (by simp [hc])

theorem isRevision_iff : isRevision tail ↔ Digits tail ∨ ∃ n, Digits n ∧ tail = 'r' :: n := by
  simp only [isRevision, Bool.and_eq_true, decide_eq_true_eq, List.all_eq_true]
  cases tail with
  | nil => simp [Digits]
  | cons c tail =>
    by_cases hc : c = 'r'
    · subst hc
      simp [Digits]
    · simp [Digits, hc]

theorem hyphen_notMem (h : isRevision tail) : '-' ∉ tail := by
  rcases isRevision_iff.mp h with hn | ⟨n, hn, rfl⟩
  · exact hn.notMem rfl
  · simpa using hn.notMem (c := '-') rfl

theorem afterEpoch_epoch (hn : Digits n) (t : Text) : afterEpoch (n ++ ':' :: t) = t := by
  have hall : n.all Char.isDigit = true := List.all_eq_true.mpr hn.2
  rw [afterEpoch, SplitOnce.first_append (hn.notMem rfl)]
  simp [hn.1, hall]

theorem afterEpoch_cases (s : Text) :
    s = afterEpoch s ∨ ∃ n, Digits n ∧ s = n ++ ':' :: afterEpoch s := by
  unfold afterEpoch
  cases h : SplitOnce.first ':' s with
  | none => exact .inl rfl
  | some p =>
    obtain ⟨epoch, rest⟩ := p
    obtain ⟨rfl, -⟩ := SplitOnce.first_eq_some.mp h
    dsimp only
    split
    · next hd =>
      simp only [Bool.and_eq_true, decide_eq_true_eq, List.all_eq_true] at hd
      exact .inr ⟨epoch, hd, rfl⟩
    · exact .inl rfl

/-- A dot before the first colon is no part of an epoch. -/
theorem afterEpoch_of_dot {a b : Text} (ha : ':' ∉ a) :
    afterEpoch (a ++ '.' :: b) = a ++ '.' :: b := by
  rcases afterEpoch_cases (a ++ '.' :: b) with h | ⟨n, hn, h⟩
  · exact h.symm
  · exfalso
    have hdot : '.' ∉ n := hn.notMem rfl
    rcases List.append_eq_append_iff.mp h with ⟨x, rfl, hx⟩ | ⟨x, rfl, hx⟩
    · cases x with
      | nil => simp at hx
      | cons c x =>
        obtain ⟨rfl, -⟩ := List.cons.inj hx
        simp at hdot
    · cases x with
      | nil => simp at hx
      | cons c x =>
        obtain ⟨rfl, -⟩ := List.cons.inj hx
        simp at ha

theorem afterEpoch_of_parse {v : SemVer} (h : parseSemver u t = some v) (s : Text) :
    afterEpoch (t ++ s) = t ++ s := by
  obtain ⟨lead, w, hlead, hw, rfl, -⟩ := Git.parseSemver_eq_some.mp h
  have hmajor : ':' ∉ w.major := fun hc => by
    have hdigit := hw.major.2 _ hc
    rw [Git.CharTables.not_digit u (by decide) (by decide)] at hdigit
    cases hdigit
  have hcolon : ':' ∉ lead ++ w.major := by
    rcases hlead with rfl | rfl <;> simpa using hmajor
  have heq : lead ++ w.text ++ s = (lead ++ w.major) ++ '.' :: ((w.minor ++ '.' :: (w.patch ++
      (SemVer.suffix '-' w.prerelease ++ SemVer.suffix '+' w.build))) ++ s) := by
    simp [Git.Spelling.text]
  rw [heq]
  exact afterEpoch_of_dot hcolon

/-- A version that is read as another one with a packaging revision. -/
def EndsInRevision (u : CharTables) (t : Text) : Prop :=
  ∃ head tail, t = head ++ '-' :: tail ∧ isRevision tail ∧ (parseSemver u head).isSome

theorem withoutRevision_append (hr : isRevision tail) (hp : (parseSemver u head).isSome) :
    withoutRevision u (head ++ '-' :: tail) = head := by
  rw [withoutRevision, SplitOnce.last_append (hyphen_notMem hr)]
  exact if_pos (by rw [hr, hp]; rfl)

theorem withoutRevision_cases (u : CharTables) (t : Text) : withoutRevision u t = t ∨
    ∃ tail, isRevision tail ∧ t = withoutRevision u t ++ '-' :: tail ∧
      (parseSemver u (withoutRevision u t)).isSome := by
  unfold withoutRevision
  cases h : SplitOnce.last '-' t with
  | none => exact .inl rfl
  | some p =>
    obtain ⟨head, tail⟩ := p
    dsimp only
    split
    · next hd =>
      rw [Bool.and_eq_true] at hd
      exact .inr ⟨tail, hd.1, (SplitOnce.last_eq_some.mp h).1, hd.2⟩
    · exact .inl rfl

theorem withoutRevision_self (h : ¬ EndsInRevision u t) : withoutRevision u t = t := by
  rcases withoutRevision_cases u t with heq | ⟨tail, hr, ht, hp⟩
  · exact heq
  · exact absurd ⟨_, tail, ht, hr, hp⟩ h

/-! ### Collecting the entries -/

/-- The newest upload of some entries. -/
def newest (entries : List VersionEntry) : Text :=
  entries.foldl (fun ts e => if ts < e.uploadedAt then e.uploadedAt else ts) []

def bucket (u : CharTables) (entries : List VersionEntry) (norm : Text) : List VersionEntry :=
  entries.filter (normalizeCloudsmithVersion u ·.version = norm)

theorem bucket_concat (entries : List VersionEntry) (e : VersionEntry) (norm : Text) :
    bucket u (entries ++ [e]) norm = bucket u entries norm ++
      if normalizeCloudsmithVersion u e.version = norm then [e] else [] := by
  simp [bucket, List.filter_append, List.filter_cons]

/-- What is collected of some entries: their groups, in the order of the first entry of each. -/
structure Collected (u : CharTables) (entries : List VersionEntry) (r : Ranking) : Prop where
  nodup : r.order.Nodup
  mem_order : ∀ norm, norm ∈ r.order ↔ bucket u entries norm ≠ []
  bucket : ∀ norm, r.buckets norm =
    if bucket u entries norm = [] then none else some (bucket u entries norm)
  newest : ∀ norm, r.newestTs norm = newest (Cloudsmith.bucket u entries norm)

theorem Collected.isSome {entries : List VersionEntry} {r : Ranking} (h : Collected u entries r)
    (norm : Text) : (r.buckets norm).isSome ↔ norm ∈ r.order := by
  rw [h.bucket, h.mem_order]
  split
  · next hnil => simp [hnil]
  · next hne => simp [hne]

theorem Collected.getD {entries : List VersionEntry} {r : Ranking} (h : Collected u entries r)
    (norm : Text) : (r.buckets norm).getD [] = Cloudsmith.bucket u entries norm := by
  rw [h.bucket]
  split
  · next hnil => exact hnil.symm
  · rfl

theorem Collected.add {entries : List VersionEntry} {r : Ranking} (h : Collected u entries r)
    (e : VersionEntry) : Collected u (entries ++ [e]) (r.add u e) := by
  constructor
  · simp only [Ranking.add, h.isSome]
    split
    · exact h.nodup
    · next hnew => simpa using h.nodup.concat hnew
  · intro norm
    have hmem : norm ∈ (r.add u e).order ↔
        norm ∈ r.order ∨ norm = normalizeCloudsmithVersion u e.version := by
      simp only [Ranking.add, h.isSome]
      split
      · next hold => exact ⟨.inl, fun hor => hor.elim id fun heq => heq ▸ hold⟩
      · simp
    rw [hmem, h.mem_order, bucket_concat]
    by_cases heq : norm = normalizeCloudsmithVersion u e.version
    · simp [heq]
    · simp [heq, Ne.symm heq]
  · intro norm
    simp only [Ranking.add, Function.update_apply, bucket_concat]
    by_cases heq : norm = normalizeCloudsmithVersion u e.version
    · subst heq
      simp [h.getD]
    · simp [heq, Ne.symm heq, h.bucket]
  · intro norm
    simp only [Ranking.add, Function.update_apply, bucket_concat]
    by_cases heq : norm = normalizeCloudsmithVersion u e.version
    · subst heq
      simp [h.newest, Cloudsmith.newest]
    · simp [heq, Ne.symm heq, h.newest]

theorem collected (u : CharTables) (entries : List VersionEntry) :
    Collected u entries (collect u entries) := by
  induction entries using List.reverseRecOn with
  | nil => exact ⟨List.nodup_nil, by simp [collect, bucket], by simp [collect, bucket], fun _ => rfl⟩
  | append_singleton entries e ih =>
    rw [collect, List.foldl_concat]
    exact ih.add e

end Anodizer.Cloudsmith
