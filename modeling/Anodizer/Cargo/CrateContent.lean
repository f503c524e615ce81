import Anodizer.Cargo.PublishRun
import Anodizer.Lib.Json
import Mathlib.Data.Finset.Sort
import Mathlib.Data.Prod.Lex
import Mathlib.Data.List.Lex
import Mathlib.Order.Lex

/-! # The content of a published crate

A published version is skipped only when the local archive is the published one, up to the
files the release process itself writes. The files a rule consults must be equal for the
comparison to succeed at all, which makes sameness an equivalence.
-/

namespace Anodizer

namespace CrateContent

abbrev Bytes := List UInt8

/-- A file name as the archive spells it. -/
abbrev OsStr := List UInt8

def osStr (s : String) : OsStr := s.toUTF8.data.toList

/-- The name as text, when it is UTF-8. -/
def toStr (name : OsStr) : Option String := String.fromUTF8? ⟨name.toArray⟩

inductive Component
  | rootDir
  | curDir
  | parentDir
  | normal (name : OsStr)
  deriving DecidableEq, Repr

namespace Component

/-- The place of a component in the order of paths. -/
def key : Component → ℕ ×ₗ List ℕ
  | .rootDir => toLex (0, [])
  | .curDir => toLex (1, [])
  | .parentDir => toLex (2, [])
  | .normal name => toLex (3, name.map UInt8.toNat)

theorem key_injective : Function.Injective key := by
  have hbytes : Function.Injective (List.map UInt8.toNat) :=
    List.map_injective_iff.mpr fun _ _ => UInt8.toNat_inj.mp
  intro a b h
  cases a <;> cases b <;> simp only [key, EmbeddingLike.apply_eq_iff_eq, Prod.mk.injEq] at h
  all_goals first
    | rfl
    | (rw [hbytes h.2])
    | (exact absurd h.1 (by decide))

instance : LinearOrder Component := LinearOrder.lift' key key_injective

end Component

abbrev Path := List Component

/-- The entries of an archive by path, in the order of their paths. -/
structure Entries where
  entries : List (Path × Bytes)
  sorted : (entries.map Prod.fst).Pairwise (· < ·)

namespace Entries

def paths (a : Entries) : List Path := a.entries.map Prod.fst

def get (a : Entries) (path : Path) : Option Bytes := a.entries.lookup path

end Entries

/-- The name of the last component of a path. -/
def fileName (path : Path) : Option OsStr :=
  match path.getLast? with
  | some (.normal name) => some name
  | _ => none

def isNormal : Component → Bool
  | .normal _ => true
  | _ => false

/-- The named file directly under the root directory of the crate. -/
def isCrateRootEntry (path : Path) (file : String) : Bool :=
  (path.filter isNormal).length == 2 && fileName path == some (osStr file)

/-- What a key of a manifest holds, with the length of a list. -/
inductive ManifestItem
  | arrayOfTables (length : Nat)
  | array (length : Nat)
  | other
  deriving DecidableEq, Repr

/-- How archives, manifests and metadata are read, and how paths are shown. -/
structure Codec where
  unpack : Bytes → Except String Entries
  manifest : Bytes → Option (String → Option ManifestItem)
  json : Bytes → Option Json
  sha256 : Bytes → String
  display : Path → String

/-- An object without the commit stamp. -/
def withoutStamp : Json → Json
  | .obj fields => .obj (fields.filter fun f => f.1 ∉ ["sha1", "dirty"])
  | j => j

def vcsInfoModuloSha (codec : Codec) (bytes : Bytes) : Option Json :=
  (codec.json bytes).map fun j =>
    match j.value with
    | .obj fields => .obj (fields.map fun f => if f.1 = "git" then (f.1, withoutStamp f.2) else f)
    | v => v

/-- A key of another shape counts as targets. -/
def declaresTargets (doc : String → Option ManifestItem) : Bool :=
  ["bin", "example"].any fun key =>
    match doc key with
    | none => false
    | some (.arrayOfTables length) => length ≠ 0
    | some (.array length) => length ≠ 0
    | some .other => true

/-- A source that cargo installs by convention: `src/main.rs`, `src/bin`, `examples`. -/
def isInstallableSource (path : Path) : Bool :=
  let names := path.filterMap fun
    | .normal name => toStr name
    | _ => none
  -- The first directory is that of the crate.
  match names.drop 1 with
  | "src" :: "main.rs" :: _ => true
  | "src" :: "bin" :: _ => true
  | "examples" :: _ => true
  | _ => false

def packagedCrateHasBinTargets (codec : Codec) (a : Entries) : Option Bool := do
  let manifest ← a.entries.find? fun e => isCrateRootEntry e.1 "Cargo.toml"
  let doc ← codec.manifest manifest.2
  some (declaresTargets doc || a.paths.any isInstallableSource)

inductive RecutNormalization
  | vcsCommitStamp
  | changelogRegenerated
  | lockfileLibOnly
  deriving DecidableEq, Repr

inductive CrateContentMatch
  | equivalent (normalized : List RecutNormalization)
  | differs (paths : List String)
  deriving DecidableEq, Repr

section Messages

variable (path : String)

def changelogUnproven : String :=
  s!"{path} (not treated as a release-process artifact: the last commit touching this crate's " ++
    "CHANGELOG.md carries no `changelog regenerated for <crate>@<version>` provenance marker, so " ++
    "there is no proof anodizer regenerated this file and the drift is treated as real. If " ++
    "anodizer DID regenerate it, re-cut the version via `anodizer tag --changelog` so the bump " ++
    "commit records the marker; if the bump commit exists but is outside a shallow clone's " ++
    "history, use a full-depth checkout — actions/checkout `fetch-depth: 0`)"

def lockfileVisible : String :=
  s!"{path} (not treated as a release-process artifact: the crate has binary or example targets, " ++
    "so the packaged lockfile is consumer-visible via `cargo install --locked` (or `--example`) " ++
    "and stays byte-strict)"

def lockfileUndetermined : String :=
  s!"{path} (not treated as a release-process artifact: could not determine binary/example " ++
    "targets from the packaged Cargo.toml, so the lockfile stays byte-strict)"

end Messages

/-- What the comparison says of one path. -/
inductive Verdict
  | same
  | normalized (n : RecutNormalization)
  | differs (path : String)
  deriving DecidableEq, Repr

section Compare

variable (codec : Codec) (changelogRegenerated : Bool) (a b : Entries)

/-- The verdict on a path both archives hold with different bytes. -/
def forgive (path : Path) (localBytes publishedBytes : Bytes) : Verdict :=
  let shown := codec.display path
  if isCrateRootEntry path ".cargo_vcs_info.json" then
    match vcsInfoModuloSha codec localBytes, vcsInfoModuloSha codec publishedBytes with
    | some l, some p => if l = p then .normalized .vcsCommitStamp else .differs shown
    | _, _ => .differs shown
  else if isCrateRootEntry path "CHANGELOG.md" then
    if changelogRegenerated then .normalized .changelogRegenerated
    else .differs (changelogUnproven shown)
  else if isCrateRootEntry path "Cargo.lock" then
    match packagedCrateHasBinTargets codec a with
    | some false => .normalized .lockfileLibOnly
    | some true => .differs (lockfileVisible shown)
    | none => .differs (lockfileUndetermined shown)
  else .differs shown

def verdict (path : Path) : Verdict :=
  match a.get path, b.get path with
  | some localBytes, some publishedBytes =>
    if localBytes = publishedBytes then .same
    else forgive codec changelogRegenerated a path localBytes publishedBytes
  | _, _ => .differs (codec.display path)

/-- The paths of either archive, in order. -/
def allPaths : List Path := (a.paths.toFinset ∪ b.paths.toFinset).sort (· ≤ ·)

def compareEntries : CrateContentMatch :=
  let verdicts := (allPaths a b).map (verdict codec changelogRegenerated a b)
  let differs := verdicts.filterMap fun
    | .differs path => some path
    | _ => none
  let normalized := verdicts.filterMap fun
    | .normalized n => some n
    | _ => none
  if differs = [] then .equivalent normalized else .differs differs

def cratesEqualModuloVcs (localCrate publishedCrate : Bytes) : Except String CrateContentMatch := do
  let localEntries ← withContext "publish: unpack local .crate for content comparison"
    (codec.unpack localCrate)
  let publishedEntries ← withContext "publish: unpack published .crate for content comparison"
    (codec.unpack publishedCrate)
  .ok (compareEntries codec changelogRegenerated localEntries publishedEntries)

end Compare

/-- Why a published version is not skipped: its content differs, or is not verified. -/
inductive GuardError
  | contentDivergence (message : String)
  | unverified (message : String)
  deriving DecidableEq, Repr

def unverified {α : Type} : Except String α → Except GuardError α
  | .ok a => .ok a
  | .error e => .error (.unverified e)

def decideAlreadyPublished (codec : Codec) (name version indexCksum : String)
    (changelogRegenerated : Bool) (localCrateCheck : Except String (Option LocalCrate))
    (fetchPublished : Except String Bytes) : Except GuardError CargoSkipDecision :=
  if indexCksum = "" then .error (.unverified (cksumMissing name version))
  else do
    let localCrate ← unverified (withContext (localUncomputable name version) localCrateCheck)
    match localCrate with
    | none => .error (.unverified (localMissing name version))
    | some localCrate =>
      if eqIgnoreAsciiCase localCrate.cksum indexCksum then .ok .skip
      else do
        let published ← unverified
          (withContext (unfetchable name version indexCksum localCrate.cksum) fetchPublished)
        if eqIgnoreAsciiCase (codec.sha256 published) indexCksum then do
          match ← unverified
            (cratesEqualModuloVcs codec changelogRegenerated localCrate.bytes published) with
          | .equivalent _ => .ok .skip
          | .differs paths =>
            .error (.contentDivergence
              (contentDiffers name version indexCksum localCrate.cksum paths))
        else .error (.unverified (cdnMismatch name version indexCksum (codec.sha256 published)))

/-! ### Archives as maps -/

section Maps

variable {a b : Entries} {path : Path} {bytes : Bytes}

theorem osStr_injective : Function.Injective osStr := fun _ _ h =>
  String.toByteArray_inj.mp (ByteArray.ext (Array.toList_inj.mp h))

theorem Entries.paths_nodup (a : Entries) : a.paths.Nodup := a.sorted.imp ne_of_lt

theorem Entries.get_eq_some_iff : a.get path = some bytes ↔ (path, bytes) ∈ a.entries := by
  constructor
  · intro h
    obtain ⟨before, after, heq, -⟩ := List.lookup_eq_some_iff.mp h
    rw [heq]
    simp
  · intro h
    have hsome : (a.get path).isSome := by
      rw [Entries.get, List.lookup_isSome_iff]
      exact ⟨(path, bytes), h, by simp⟩
    obtain ⟨found, hfound⟩ := Option.isSome_iff_exists.mp hsome
    obtain ⟨before, after, heq, -⟩ := List.lookup_eq_some_iff.mp hfound
    have hmem : (path, found) ∈ a.entries := by
      rw [heq]
      simp
    obtain ⟨-, rfl⟩ := Prod.ext_iff.mp (List.inj_on_of_nodup_map a.paths_nodup h hmem rfl)
    exact hfound

theorem Entries.get_isSome_iff : (a.get path).isSome ↔ path ∈ a.paths := by
  simp only [Option.isSome_iff_exists, Entries.get_eq_some_iff, Entries.paths, List.mem_map]
  constructor
  · rintro ⟨bytes, h⟩
    exact ⟨_, h, rfl⟩
  · rintro ⟨e, h, rfl⟩
    exact ⟨e.2, h⟩

theorem mem_allPaths : path ∈ allPaths a b ↔ path ∈ a.paths ∨ path ∈ b.paths := by
  simp [allPaths]

/-- Two archives with the same paths list them in the same order. -/
theorem paths_eq (h : ∀ path, path ∈ a.paths ↔ path ∈ b.paths) : a.paths = b.paths := by
  have hperm : a.paths.Perm b.paths :=
    (List.perm_ext_iff_of_nodup a.paths_nodup b.paths_nodup).mpr h
  exact hperm.eq_of_pairwise (fun _ _ _ _ hab hba => absurd (lt_trans hab hba) (lt_irrefl _))
    a.sorted b.sorted

/-- A path is the crate-root entry of one name only. -/
theorem root_unique {file file' : String} (h : isCrateRootEntry path file)
    (h' : isCrateRootEntry path file') : file = file' := by
  simp only [isCrateRootEntry, Bool.and_eq_true, beq_iff_eq] at h h'
  rw [h.2, Option.some.injEq] at h'
  exact osStr_injective h'.2

theorem root_false {file : String} (file' : String) (h : isCrateRootEntry path file)
    (hne : file ≠ file') : isCrateRootEntry path file' = false := by
  rw [← Bool.not_eq_true]
  exact fun h' => hne (root_unique h h')

end Maps

/-! ### Sameness -/

section Same

variable (codec : Codec) (changelogRegenerated : Bool)

/-- The bytes of one path are the same, or differ only in what the release process writes. -/
def SameBytes (a : Entries) (path : Path) (x y : Bytes) : Prop :=
  x = y ∨
    (isCrateRootEntry path ".cargo_vcs_info.json" ∧
      ∃ v, vcsInfoModuloSha codec x = some v ∧ vcsInfoModuloSha codec y = some v) ∨
    (isCrateRootEntry path "CHANGELOG.md" ∧ changelogRegenerated) ∨
    (isCrateRootEntry path "Cargo.lock" ∧ packagedCrateHasBinTargets codec a = some false)

/-- The archives have the same paths, with the same bytes up to the release process. -/
def SameContent (a b : Entries) : Prop :=
  (∀ path, path ∈ a.paths ↔ path ∈ b.paths) ∧
    ∀ path x y, a.get path = some x → b.get path = some y →
      SameBytes codec changelogRegenerated a path x y

variable {codec changelogRegenerated} {a b c : Entries}

/-- The release process explains two different bytes exactly when they count as the same. -/
theorem forgive_differs_iff {path : Path} {x y : Bytes} (hne : x ≠ y) :
    (∃ shown, forgive codec changelogRegenerated a path x y = .differs shown) ↔
      ¬SameBytes codec changelogRegenerated a path x y := by
  by_cases hv : isCrateRootEntry path ".cargo_vcs_info.json"
  · have hc := root_false "CHANGELOG.md" hv (by decide)
    have hl := root_false "Cargo.lock" hv (by decide)
    simp only [forgive, SameBytes, hv, hc, hl, hne, if_true]
    cases vcsInfoModuloSha codec x with
    | none => simp
    | some l =>
      cases vcsInfoModuloSha codec y with
      | none => simp
      | some p =>
        by_cases hlp : l = p
        · simp [hlp]
        · simp [hlp, Ne.symm hlp]
  · by_cases hc : isCrateRootEntry path "CHANGELOG.md"
    · have hl := root_false "Cargo.lock" hc (by decide)
      cases changelogRegenerated <;> simp [forgive, SameBytes, hv, hc, hl, hne]
    · by_cases hl : isCrateRootEntry path "Cargo.lock"
      · simp only [forgive, SameBytes, hv, hc, hl, hne, if_true]
        cases packagedCrateHasBinTargets codec a with
        | none => simp
        | some targets => cases targets <;> simp
      · simp [forgive, SameBytes, hv, hc, hl, hne]

theorem verdict_differs_iff {path : Path} :
    (∃ shown, verdict codec changelogRegenerated a b path = .differs shown) ↔
      ¬((path ∈ a.paths ∧ path ∈ b.paths) ∧ ∀ x y, a.get path = some x → b.get path = some y →
        SameBytes codec changelogRegenerated a path x y) := by
  simp only [← Entries.get_isSome_iff]
  unfold verdict
  cases a.get path with
  | none => simp
  | some x =>
    cases b.get path with
    | none => simp
    | some y =>
      by_cases hxy : x = y
      · simp [hxy, SameBytes]
      · simpa [hxy] using forgive_differs_iff hxy

/-- The comparison succeeds exactly on archives of the same content. -/
theorem compareEntries_iff : (∃ normalized,
    compareEntries codec changelogRegenerated a b = .equivalent normalized) ↔
      SameContent codec changelogRegenerated a b := by
  have hdiffers : (∃ normalized,
      compareEntries codec changelogRegenerated a b = .equivalent normalized) ↔
        ∀ path ∈ allPaths a b, ¬∃ shown,
          verdict codec changelogRegenerated a b path = .differs shown := by
    unfold compareEntries
    dsimp only
    split
    · next hnil =>
      simp only [CrateContentMatch.equivalent.injEq, exists_eq', true_iff]
      rintro path hpath ⟨shown, h⟩
      rw [List.filterMap_eq_nil_iff] at hnil
      have := hnil _ (List.mem_map_of_mem hpath)
      simp [h] at this
    · next hne =>
      simp only [reduceCtorEq, exists_false, false_iff]
      intro h
      apply hne
      rw [List.filterMap_eq_nil_iff]
      intro v hv
      obtain ⟨path, hpath, rfl⟩ := List.mem_map.mp hv
      have := h path hpath
      cases hverdict : verdict codec changelogRegenerated a b path with
      | differs shown => exact absurd ⟨shown, hverdict⟩ this
      | _ => rfl
  rw [hdiffers]
  constructor
  · intro h
    have hpath : ∀ path, path ∈ a.paths ∨ path ∈ b.paths → _ := fun path hin =>
      not_not.mp (verdict_differs_iff.not.mp (h path (mem_allPaths.mpr hin)))
    constructor
    · intro path
      exact ⟨fun hin => (hpath path (.inl hin)).1.2, fun hin => (hpath path (.inr hin)).1.1⟩
    · intro path x y hx hy
      have hin : path ∈ a.paths := Entries.get_isSome_iff.mp (by simp [hx])
      exact (hpath path (.inl hin)).2 x y hx hy
  · rintro ⟨hpaths, hbytes⟩ path hin
    rw [verdict_differs_iff, not_not]
    have ha : path ∈ a.paths := by
      rcases mem_allPaths.mp hin with h | h
      · exact h
      · exact (hpaths path).mpr h
    exact ⟨⟨ha, (hpaths path).mp ha⟩, hbytes path⟩

/-! ### The answers of the guard -/

/-- The packaged manifest and the paths decide the targets, and both are the same in archives of
the same content. -/
theorem SameContent.hasBinTargets (h : SameContent codec changelogRegenerated a b) :
    packagedCrateHasBinTargets codec a = packagedCrateHasBinTargets codec b := by
  have hpaths := paths_eq h.1
  have hfst : ∀ e : Entries, (e.entries.find? fun f => isCrateRootEntry f.1 "Cargo.toml").map
      Prod.fst = e.paths.find? fun p => isCrateRootEntry p "Cargo.toml" := by
    intro e
    rw [Entries.paths, List.find?_map]
    rfl
  have hmanifest : (a.entries.find? fun f => isCrateRootEntry f.1 "Cargo.toml") =
      b.entries.find? fun f => isCrateRootEntry f.1 "Cargo.toml" := by
    have hsame := (hfst a).trans (hpaths ▸ (hfst b).symm)
    cases ha : a.entries.find? fun f => isCrateRootEntry f.1 "Cargo.toml" with
    | none =>
      rw [ha, Option.map_none, eq_comm, Option.map_eq_none_iff] at hsame
      exact hsame.symm
    | some e =>
      rw [ha, Option.map_some, eq_comm, Option.map_eq_some_iff] at hsame
      obtain ⟨e', hb, hpath⟩ := hsame
      have hroot : isCrateRootEntry e.1 "Cargo.toml" := by simpa using List.find?_some ha
      have hx := Entries.get_eq_some_iff.mpr (List.mem_of_find?_eq_some ha)
      have hy := Entries.get_eq_some_iff.mpr (List.mem_of_find?_eq_some hb)
      rw [hpath] at hy
      have hbytes := h.2 e.1 e.2 e'.2 hx hy
      rw [SameBytes, root_false ".cargo_vcs_info.json" hroot (by decide),
        root_false "CHANGELOG.md" hroot (by decide),
        root_false "Cargo.lock" hroot (by decide)] at hbytes
      have hsnd : e.2 = e'.2 := by simpa using hbytes
      rw [hb, Prod.ext hpath.symm hsnd]
  rw [packagedCrateHasBinTargets, packagedCrateHasBinTargets, hmanifest, hpaths]

theorem SameContent.refl (a : Entries) : SameContent codec changelogRegenerated a a := by
  refine ⟨fun _ => .rfl, ?_⟩
  intro path x y hx hy
  rw [hx, Option.some.injEq] at hy
  exact .inl hy

theorem SameContent.symm (h : SameContent codec changelogRegenerated a b) :
    SameContent codec changelogRegenerated b a := by
  refine ⟨fun path => (h.1 path).symm, ?_⟩
  intro path y x hy hx
  have hbytes := h.2 path x y hx hy
  rw [SameBytes, h.hasBinTargets] at hbytes
  rcases hbytes with heq | ⟨hv, v, hvx, hvy⟩ | hrest
  · exact .inl heq.symm
  · exact .inr (.inl ⟨hv, v, hvy, hvx⟩)
  · exact .inr (.inr hrest)

theorem SameContent.trans (hab : SameContent codec changelogRegenerated a b)
    (hbc : SameContent codec changelogRegenerated b c) :
    SameContent codec changelogRegenerated a c := by
  refine ⟨fun path => (hab.1 path).trans (hbc.1 path), ?_⟩
  intro path x z hx hz
  have hin : path ∈ b.paths := (hbc.1 path).mpr (Entries.get_isSome_iff.mp (by simp [hz]))
  obtain ⟨y, hy⟩ := Option.isSome_iff_exists.mp (Entries.get_isSome_iff.mpr hin)
  have hxy := hab.2 path x y hx hy
  have hyz := hbc.2 path y z hy hz
  rw [SameBytes, ← hab.hasBinTargets] at hyz
  rcases hxy with rfl | ⟨hv, v, hvx, hvy⟩ | hrest
  · exact hyz
  · rcases hyz with rfl | ⟨-, w, hwy, hwz⟩ | hrest | hrest
    · exact .inr (.inl ⟨hv, v, hvx, hvy⟩)
    · rw [hvy, Option.some.injEq] at hwy
      exact .inr (.inl ⟨hv, v, hvx, hwy ▸ hwz⟩)
    · exact .inr (.inr (.inl hrest))
    · exact .inr (.inr (.inr hrest))
  · exact .inr (.inr hrest)

end Same

section Guard

variable (codec : Codec) (indexCksum : String) (changelogRegenerated : Bool)

/-- The fetched archive is the one the index records, and both archives unpack. -/
def Compared (localCrate : LocalCrate) (fetchPublished : Except String Bytes)
    (a b : Entries) : Prop :=
  ∃ published, fetchPublished = .ok published ∧
    eqIgnoreAsciiCase (codec.sha256 published) indexCksum ∧
    codec.unpack localCrate.bytes = .ok a ∧ codec.unpack published = .ok b

variable {codec indexCksum changelogRegenerated} {name version : String}
  {localCrate : LocalCrate} {fetchPublished : Except String Bytes}

/-- Without an index checksum or a local archive nothing is verified. -/
theorem decide_unverified {localCrateCheck : Except String (Option LocalCrate)}
    (h : indexCksum = "" ∨ ∀ localCrate, localCrateCheck ≠ .ok (some localCrate)) :
    ∃ message, decideAlreadyPublished codec name version indexCksum changelogRegenerated
      localCrateCheck fetchPublished = .error (.unverified message) := by
  by_cases hc : indexCksum = ""
  · simp [decideAlreadyPublished, hc]
  · have hnone := h.resolve_left hc
    match localCrateCheck with
    | .error e => simp [decideAlreadyPublished, hc, withContext, unverified, bind, Except.bind]
    | .ok none => simp [decideAlreadyPublished, hc, withContext, unverified, bind, Except.bind]
    | .ok (some localCrate) => exact absurd rfl (hnone localCrate)

/-- An archive with the recorded checksum is skipped at once. -/
theorem decide_fast (hc : indexCksum ≠ "")
    (hfast : eqIgnoreAsciiCase localCrate.cksum indexCksum) :
    decideAlreadyPublished codec name version indexCksum changelogRegenerated
      (.ok (some localCrate)) fetchPublished = .ok .skip := by
  simp [decideAlreadyPublished, hc, hfast, withContext, unverified, bind, Except.bind]

/-- The guard past its two first checks: a comparison of the archives decides. -/
theorem decide_compared (hc : indexCksum ≠ "")
    (hslow : eqIgnoreAsciiCase localCrate.cksum indexCksum = false) {a b : Entries}
    (h : Compared codec indexCksum localCrate fetchPublished a b) :
    decideAlreadyPublished codec name version indexCksum changelogRegenerated
      (.ok (some localCrate)) fetchPublished =
        match compareEntries codec changelogRegenerated a b with
        | .equivalent _ => .ok .skip
        | .differs paths => .error (.contentDivergence
            (contentDiffers name version indexCksum localCrate.cksum paths)) := by
  obtain ⟨published, rfl, hsha, ha, hb⟩ := h
  simp [decideAlreadyPublished, hc, hslow, hsha, cratesEqualModuloVcs, ha, hb, withContext,
    unverified, bind, Except.bind]

/-- Without a comparison the guard fails as unverified. -/
theorem decide_uncompared (name version : String) (changelogRegenerated : Bool)
    (hc : indexCksum ≠ "")
    (hslow : eqIgnoreAsciiCase localCrate.cksum indexCksum = false)
    (h : ∀ a b, ¬Compared codec indexCksum localCrate fetchPublished a b) :
    ∃ message, decideAlreadyPublished codec name version indexCksum changelogRegenerated
      (.ok (some localCrate)) fetchPublished = .error (.unverified message) := by
  cases fetchPublished with
  | error e =>
    simp [decideAlreadyPublished, hc, hslow, withContext, unverified, bind, Except.bind]
  | ok published =>
    by_cases hsha : eqIgnoreAsciiCase (codec.sha256 published) indexCksum
    · cases ha : codec.unpack localCrate.bytes with
      | error e =>
        simp [decideAlreadyPublished, hc, hslow, hsha, cratesEqualModuloVcs, ha, withContext,
          unverified, bind, Except.bind]
      | ok a =>
        cases hb : codec.unpack published with
        | error e =>
          simp [decideAlreadyPublished, hc, hslow, hsha, cratesEqualModuloVcs, ha, hb,
            withContext, unverified, bind, Except.bind]
        | ok b => exact absurd ⟨published, rfl, hsha, ha, hb⟩ (h a b)
    · simp [decideAlreadyPublished, hc, hslow, hsha, withContext, unverified, bind, Except.bind]

theorem decide_skip_iff (hc : indexCksum ≠ "")
    (hslow : eqIgnoreAsciiCase localCrate.cksum indexCksum = false) :
    decideAlreadyPublished codec name version indexCksum changelogRegenerated
      (.ok (some localCrate)) fetchPublished = .ok .skip ↔
        ∃ a b, Compared codec indexCksum localCrate fetchPublished a b ∧
          SameContent codec changelogRegenerated a b := by
  constructor
  · intro h
    by_contra hnone
    push Not at hnone
    by_cases hcompared : ∃ a b, Compared codec indexCksum localCrate fetchPublished a b
    · obtain ⟨a, b, hab⟩ := hcompared
      rw [decide_compared hc hslow hab] at h
      have hdiffers := hnone a b hab
      rw [← compareEntries_iff] at hdiffers
      cases hm : compareEntries codec changelogRegenerated a b with
      | equivalent normalized => exact hdiffers ⟨normalized, hm⟩
      | differs paths => simp [hm] at h
    · push Not at hcompared
      obtain ⟨message, he⟩ := decide_uncompared name version changelogRegenerated hc hslow hcompared
      rw [he] at h
      cases h
  · rintro ⟨a, b, hab, hsame⟩
    obtain ⟨normalized, hm⟩ := compareEntries_iff.mpr hsame
    rw [decide_compared hc hslow hab, hm]

theorem decide_divergence_iff (hc : indexCksum ≠ "")
    (hslow : eqIgnoreAsciiCase localCrate.cksum indexCksum = false) :
    (∃ message, decideAlreadyPublished codec name version indexCksum changelogRegenerated
      (.ok (some localCrate)) fetchPublished = .error (.contentDivergence message)) ↔
        ∃ a b, Compared codec indexCksum localCrate fetchPublished a b ∧
          ¬SameContent codec changelogRegenerated a b := by
  constructor
  · rintro ⟨message, h⟩
    by_cases hcompared : ∃ a b, Compared codec indexCksum localCrate fetchPublished a b
    · obtain ⟨a, b, hab⟩ := hcompared
      refine ⟨a, b, hab, ?_⟩
      intro hsame
      obtain ⟨normalized, hm⟩ := compareEntries_iff.mpr hsame
      rw [decide_compared hc hslow hab, hm] at h
      cases h
    · push Not at hcompared
      obtain ⟨message', he⟩ := decide_uncompared name version changelogRegenerated hc hslow hcompared
      rw [he] at h
      cases h
  · rintro ⟨a, b, hab, hdiffers⟩
    rw [decide_compared hc hslow hab]
    rw [← compareEntries_iff] at hdiffers
    cases hm : compareEntries codec changelogRegenerated a b with
    | equivalent normalized => exact absurd ⟨normalized, hm⟩ hdiffers
    | differs paths => exact ⟨_, rfl⟩

/-- The first two checks of the guard, and what is left to compare. -/
theorem guard_cases (indexCksum : String) (localCrateCheck : Except String (Option LocalCrate)) :
    (indexCksum = "" ∨ ∀ localCrate, localCrateCheck ≠ .ok (some localCrate)) ∨
      indexCksum ≠ "" ∧ ∃ localCrate, localCrateCheck = .ok (some localCrate) := by
  by_cases hc : indexCksum = ""
  · exact .inl (.inl hc)
  · by_cases h : ∃ localCrate, localCrateCheck = .ok (some localCrate)
    · exact .inr ⟨hc, h⟩
    · push Not at h
      exact .inl (.inr h)

theorem decide_ne_publish {localCrateCheck : Except String (Option LocalCrate)} :
    decideAlreadyPublished codec name version indexCksum changelogRegenerated localCrateCheck
      fetchPublished ≠ .ok .publish := by
  rcases guard_cases indexCksum localCrateCheck with h | ⟨hc, localCrate, rfl⟩
  · obtain ⟨message, he⟩ := decide_unverified h
    rw [he]
    simp
  · cases hslow : eqIgnoreAsciiCase localCrate.cksum indexCksum with
    | true => simp [decide_fast hc hslow]
    | false =>
      by_cases hcompared : ∃ a b, Compared codec indexCksum localCrate fetchPublished a b
      · obtain ⟨a, b, hab⟩ := hcompared
        rw [decide_compared hc hslow hab]
        split <;> simp
      · push Not at hcompared
        obtain ⟨message, he⟩ :=
          decide_uncompared name version changelogRegenerated hc hslow hcompared
        simp [he]

theorem same_equivalence : Equivalence fun a b =>
    ∃ normalized, compareEntries codec changelogRegenerated a b = .equivalent normalized := by
  simp only [compareEntries_iff]
  exact ⟨SameContent.refl, SameContent.symm, SameContent.trans⟩

end Guard

/-- A published version is skipped exactly when its content is the local one; the guard reports
a divergence exactly when a verified archive differs, and every other answer is an error.
Sameness of content is an equivalence. -/
theorem skip_iff_same_content (codec : Codec) (name version indexCksum : String)
    (changelogRegenerated : Bool) (localCrateCheck : Except String (Option LocalCrate))
    (fetchPublished : Except String Bytes) :
    (decideAlreadyPublished codec name version indexCksum changelogRegenerated localCrateCheck
        fetchPublished = .ok .skip ↔
      indexCksum ≠ "" ∧ ∃ localCrate, localCrateCheck = .ok (some localCrate) ∧
        (eqIgnoreAsciiCase localCrate.cksum indexCksum ∨
          ∃ a b, Compared codec indexCksum localCrate fetchPublished a b ∧
            SameContent codec changelogRegenerated a b)) ∧
      ((∃ message, decideAlreadyPublished codec name version indexCksum changelogRegenerated
          localCrateCheck fetchPublished = .error (.contentDivergence message)) ↔
        indexCksum ≠ "" ∧ ∃ localCrate, localCrateCheck = .ok (some localCrate) ∧
          ¬eqIgnoreAsciiCase localCrate.cksum indexCksum ∧
            ∃ a b, Compared codec indexCksum localCrate fetchPublished a b ∧
              ¬SameContent codec changelogRegenerated a b) ∧
      decideAlreadyPublished codec name version indexCksum changelogRegenerated localCrateCheck
        fetchPublished ≠ .ok .publish ∧
      Equivalence fun a b =>
        ∃ normalized, compareEntries codec changelogRegenerated a b = .equivalent normalized := by
  refine ⟨?_, ?_, decide_ne_publish, same_equivalence⟩
  · rcases guard_cases indexCksum localCrateCheck with h | ⟨hc, localCrate, rfl⟩
    · obtain ⟨message, he⟩ := decide_unverified h
      rw [he]
      simp only [reduceCtorEq, false_iff]
      rintro ⟨hc, localCrate, hlocal, -⟩
      exact h.elim hc fun hnone => hnone localCrate hlocal
    · cases hslow : eqIgnoreAsciiCase localCrate.cksum indexCksum with
      | true => simp [decide_fast hc hslow, hc, hslow]
      | false => simp [decide_skip_iff hc hslow, hc, hslow]
  · rcases guard_cases indexCksum localCrateCheck with h | ⟨hc, localCrate, rfl⟩
    · obtain ⟨message, he⟩ := decide_unverified h
      rw [he]
      simp only [Except.error.injEq, reduceCtorEq, exists_false, false_iff]
      rintro ⟨hc, localCrate, hlocal, -⟩
      exact h.elim hc fun hnone => hnone localCrate hlocal
    · cases hslow : eqIgnoreAsciiCase localCrate.cksum indexCksum with
      | true => simp [decide_fast hc hslow, hc, hslow]
      | false => simp [decide_divergence_iff hc hslow, hc, hslow]

/-! ### The guard in the publish loop -/

def GuardError.message : GuardError → String
  | .contentDivergence message => message
  | .unverified message => message

def CrateContentMatch.outcome : CrateContentMatch → Anodizer.CrateContentMatch
  | .equivalent _ => .equivalent
  | .differs paths => .differs paths

/-- A publish run that compares archives as above asks this guard. -/
theorem decideAlreadyPublished_eq {codec : Codec} {env : CargoEnv}
    (hsha : env.sha256 = codec.sha256)
    (hequal : env.cratesEqualModuloVcs = fun localCrate published changelogRegenerated =>
      (cratesEqualModuloVcs codec changelogRegenerated localCrate published).map
        CrateContentMatch.outcome)
    (name version indexCksum : String) (changelogRegenerated : Bool) :
    Anodizer.decideAlreadyPublished env name version indexCksum changelogRegenerated =
      (decideAlreadyPublished codec name version indexCksum changelogRegenerated
        (env.localCksumCheck name) (env.fetchPublished name version)).mapError
          GuardError.message := by
  unfold Anodizer.decideAlreadyPublished decideAlreadyPublished
  rw [hsha, hequal]
  by_cases hc : indexCksum = ""
  · simp [hc, Except.mapError, GuardError.message]
  simp only [hc, if_false]
  rcases env.localCksumCheck name with _ | _ | localCrate
  · rfl
  · rfl
  by_cases hfast : eqIgnoreAsciiCase localCrate.cksum indexCksum
  · simp [withContext, unverified, bind, Except.bind, hfast, Except.mapError]
  cases env.fetchPublished name version with
  | error e =>
    simp [withContext, unverified, bind, Except.bind, hfast, Except.mapError, GuardError.message]
  | ok published =>
    by_cases hindex : eqIgnoreAsciiCase (codec.sha256 published) indexCksum
    · cases hm : cratesEqualModuloVcs codec changelogRegenerated localCrate.bytes published with
      | error e => simp [withContext, unverified, bind, Except.bind, hfast, hindex, hm,
          Except.mapError, Except.map, GuardError.message]
      | ok m => cases m <;> simp [withContext, unverified, bind, Except.bind, hfast, hindex, hm,
          Except.mapError, Except.map, CrateContentMatch.outcome, GuardError.message]
    · simp [withContext, unverified, bind, Except.bind, hfast, hindex, Except.mapError,
        GuardError.message]

end CrateContent

end Anodizer
