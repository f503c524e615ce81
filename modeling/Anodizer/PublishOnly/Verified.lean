import Anodizer.Lib.Traverse
import Anodizer.PublishOnly.Preserved

/-! # What a publish-only run ships

A run that starts its pipeline has verified the files that the harness
recorded. It ships verified bytes exactly when the files of its registry are
among these.
-/

namespace Anodizer.PublishOnly

open Template (Text)
open Split (ordered mem_ordered)
open Traverse (bind_eq_ok map_eq_of_mapM)

variable {input : Input} {registry : List Artifact} {files : Files} {a : Artifact} {p : Text}
  {contexts contexts' : List (Text × PreservedDistContext)} {preserved : PreservedDistContext}

/-! ### Accepted computations -/

theorem forM_eq_ok {α : Type} {f : α → Except Reject Unit} {l : List α} :
    l.forM f = .ok () ↔ ∀ x ∈ l, f x = .ok () := by
  induction l with
  | nil => simp [List.forM_nil, pure, Except.pure]
  | cons x l ih =>
    change (f x >>= fun _ => l.forM f) = .ok () ↔ _
    rw [bind_eq_ok, List.forall_mem_cons, ← ih]
    constructor
    · rintro ⟨_, hx, hl⟩
      exact ⟨hx, hl⟩
    · exact fun h => ⟨(), h⟩

/-! ### Context manifests -/

/-- The manifests that record a value record the same one. -/
def Agree (field : PreservedDistContext → Text)
    (contexts : List (Text × PreservedDistContext)) : Prop :=
  ∀ c ∈ contexts, ∀ c' ∈ contexts, field c.2 ≠ [] → field c'.2 ≠ [] → field c.2 = field c'.2

theorem firstRecorded_spec (values : List Text) :
    firstRecorded values ≠ [] ∧ firstRecorded values ∈ values ∨
      firstRecorded values = [] ∧ ∀ v ∈ values, v = [] := by
  rw [firstRecorded]
  cases h : values.find? (· ≠ []) with
  | none => exact .inr ⟨rfl, by simpa using h⟩
  | some v => exact .inl ⟨by simpa using List.find?_some h, List.mem_of_find?_eq_some h⟩

theorem firstMismatch_eq_none (field : PreservedDistContext → Text) :
    firstMismatch field (firstRecorded (contexts.map (field ·.2))) contexts = none ↔
      Agree field contexts := by
  rw [firstMismatch, Option.map_eq_none_iff, List.find?_eq_none]
  simp only [Bool.and_eq_true, decide_eq_true_eq, not_and, not_not]
  rcases firstRecorded_spec (contexts.map (field ·.2)) with ⟨hne, hmem⟩ | ⟨-, hall⟩
  · obtain ⟨c₀, hc₀, heq⟩ := List.mem_map.mp hmem
    rw [← heq] at hne ⊢
    constructor
    · intro h c hc c' hc' hne hne'
      rw [h c hc hne, h c' hc' hne']
    · exact fun h c hc hne' => h c hc c₀ hc₀ hne' hne
  · have hnil : ∀ c ∈ contexts, field c.2 = [] := fun c hc => hall _ (List.mem_map_of_mem hc)
    constructor
    · exact fun _ c hc _ _ hne => absurd (hnil c hc) hne
    · exact fun _ c hc hne => absurd (hnil c hc) hne

theorem mergePreservedContexts_eq_ok :
    mergePreservedContexts contexts = .ok preserved ↔
      (∃ c ∈ contexts, c.2.commit ≠ []) ∧ Agree (·.commit) contexts ∧ Agree (·.version) contexts ∧
      preserved =
        { artifacts := contexts.flatMap (·.2.artifacts)
          targets := ordered (contexts.flatMap (·.2.targets))
          version := firstRecorded (contexts.map (·.2.version))
          commit := firstRecorded (contexts.map (·.2.commit)) } := by
  have hcommit : (∃ c ∈ contexts, c.2.commit ≠ []) ↔
      firstRecorded (contexts.map (·.2.commit)) ≠ [] := by
    rcases firstRecorded_spec (contexts.map (·.2.commit)) with ⟨hne, hmem⟩ | ⟨heq, hall⟩
    · obtain ⟨c, hc, heq⟩ := List.mem_map.mp hmem
      exact ⟨fun _ => hne, fun _ => ⟨c, hc, heq ▸ hne⟩⟩
    · refine ⟨?_, fun hne => absurd heq hne⟩
      rintro ⟨c, hc, hne⟩
      exact absurd (hall _ (List.mem_map_of_mem hc)) hne
  rw [hcommit, ← firstMismatch_eq_none (·.commit), ← firstMismatch_eq_none (·.version),
    mergePreservedContexts]
  dsimp only
  split
  · next h => simp [h]
  · next h =>
    simp only [h, ne_eq, not_false_eq_true, true_and]
    split
    · next heq => simp [heq]
    · next heq =>
      simp only [heq, true_and]
      split
      · next heq => simp [heq]
      · next heq => simp [heq, eq_comm]

/-! ### Verified files -/

/-- A recorded file has one of the hashes recorded for it. -/
def Verified (input : Input) (artifacts : List PreservedArtifact) (path : Text) : Prop :=
  ∃ bytes, input.files (input.locate (joinPath input.dist path)) = some bytes ∧
    ∃ r ∈ artifacts, r.path = path ∧ normalizeHash r.sha256 = input.actualHash bytes

theorem verifyPath_eq_ok {artifacts : List PreservedArtifact} :
    input.verifyPath artifacts p = .ok () ↔ Verified input artifacts p := by
  have hrecorded : ∀ h, h ∈ Input.recorded artifacts p ↔
      ∃ r ∈ artifacts, r.path = p ∧ normalizeHash r.sha256 = h := by
    intro h
    simp [Input.recorded, and_assoc]
  rw [Input.verifyPath, Verified]
  cases hfile : input.files (input.locate (joinPath input.dist p)) with
  | none => simp
  | some bytes =>
    simp only [Option.some.injEq, exists_eq_left', ← hrecorded]
    split
    · next h => simp [h]
    · next h => simp [h]

theorem hashVerifyPreservedDist_eq_ok :
    input.hashVerifyPreservedDist preserved = .ok () ↔
      ∀ r ∈ preserved.artifacts, isEphemeralSignaturePath r.path = false →
        Verified input preserved.artifacts r.path := by
  rw [Input.hashVerifyPreservedDist, forM_eq_ok]
  simp only [mem_ordered, verifyPath_eq_ok, List.mem_filter, List.mem_map,
    Bool.not_eq_true']
  constructor
  · exact fun h r hr hpath => h _ ⟨⟨r, hr, rfl⟩, hpath⟩
  · rintro h _ ⟨⟨r, hr, rfl⟩, hpath⟩
    exact h r hr hpath

/-- When merging and hash verification accept the contexts. -/
theorem verifiedContext_isOk :
    (∃ preserved, input.verifiedContext contexts = .ok preserved) ↔
      (∃ c ∈ contexts, c.2.commit ≠ []) ∧ Agree (·.commit) contexts ∧ Agree (·.version) contexts ∧
      ∀ r ∈ contexts.flatMap (·.2.artifacts), isEphemeralSignaturePath r.path = false →
        Verified input (contexts.flatMap (·.2.artifacts)) r.path := by
  simp only [Input.verifiedContext, bind_eq_ok, mergePreservedContexts_eq_ok]
  constructor
  · rintro ⟨preserved, merged, ⟨hcommit, hagree, hversion, rfl⟩, _, hverify, -⟩
    exact ⟨hcommit, hagree, hversion, hashVerifyPreservedDist_eq_ok.mp hverify⟩
  · rintro ⟨hcommit, hagree, hversion, hverify⟩
    exact ⟨_, _, ⟨hcommit, hagree, hversion, rfl⟩, (), hashVerifyPreservedDist_eq_ok.mpr hverify,
      rfl⟩

/-- The order of the contexts does not decide whether they are accepted. -/
theorem verifiedContext_perm (h : contexts.Perm contexts') :
    (∃ preserved, input.verifiedContext contexts = .ok preserved) ↔
      ∃ preserved, input.verifiedContext contexts' = .ok preserved := by
  have hmem : ∀ r, r ∈ contexts.flatMap (·.2.artifacts) ↔ r ∈ contexts'.flatMap (·.2.artifacts) :=
    fun r => (h.flatMap_right _).mem_iff
  simp only [verifiedContext_isOk, Verified, Agree, h.mem_iff, hmem]

/-! ### Discovery -/

/-- The same manifests, listed in another order. A name is listed once. -/
def Relisted {α : Type} (listing listing' : Listing α) : Prop :=
  listing.Perm listing' ∧ (listing.map (·.1)).Nodup

theorem discover_relisted {α : Type} {listing listing' : Listing α}
    (h : Relisted listing listing') : discover listing = discover listing' := by
  have htrans : ∀ a b c : Text × Option α, decide (a.1 ≤ b.1) = true →
      decide (b.1 ≤ c.1) = true → decide (a.1 ≤ c.1) = true := by
    intro a b c hab hbc
    rw [decide_eq_true_eq] at *
    exact le_trans hab hbc
  have htotal : ∀ a b : Text × Option α, (decide (a.1 ≤ b.1) || decide (b.1 ≤ a.1)) = true := by
    intro a b
    simpa using le_total a.1 b.1
  have hsort : (listing.mergeSort fun a b => a.1 ≤ b.1) =
      listing'.mergeSort fun a b => a.1 ≤ b.1 := by
    have hperm := ((List.mergeSort_perm listing fun a b => decide (a.1 ≤ b.1)).trans h.1).trans
      (List.mergeSort_perm listing' fun a b => decide (a.1 ≤ b.1)).symm
    refine List.Perm.eq_of_pairwise (fun a b ha hb hab hba => ?_)
      (List.pairwise_mergeSort htrans htotal listing)
      (List.pairwise_mergeSort htrans htotal listing') hperm
    rw [List.mem_mergeSort] at ha hb
    have hname : a.1 = b.1 := le_antisymm (of_decide_eq_true hab) (of_decide_eq_true hba)
    exact List.inj_on_of_nodup_map h.2 ha (h.1.mem_iff.mpr hb) hname
  rw [discover, discover, hsort]

theorem collides_relisted {α : Type} {base : Text} {listing listing' : Listing α}
    (h : Relisted listing listing') :
    checkNoUnsuffixedSuffixedCollision base listing =
      checkNoUnsuffixedSuffixedCollision base listing' := by
  have hmem : ∀ name, name ∈ listing.map (·.1) ↔ name ∈ listing'.map (·.1) :=
    fun name => (h.1.map _).mem_iff
  have hcollides : collides base (listing.map (·.1)) = collides base (listing'.map (·.1)) := by
    rw [Bool.eq_iff_iff]
    simp only [collides, Bool.and_eq_true, decide_eq_true_eq, List.any_eq_true, hmem]
  rw [checkNoUnsuffixedSuffixedCollision, hcollides, checkNoUnsuffixedSuffixedCollision]

/-! ### The run -/

/-- The registry and the files of a run after the signatures are gone. -/
def stripped (input : Input) (manifests : List (Text × List Artifact)) : List Artifact × Files :=
  input.stripEphemeralSignatures (input.rehydrate manifests)

/-- What a run that starts its pipeline has checked. -/
structure Started (input : Input) (cs : List (Text × PreservedDistContext))
    (ms : List (Text × List Artifact)) : Prop where
  separate : checkNoUnsuffixedSuffixedCollision "context".toList input.contexts = .ok () ∧
    checkNoUnsuffixedSuffixedCollision "artifacts".toList input.manifests = .ok ()
  contexts : discoverPreservedContexts input.contexts = .ok cs
  verified : ∃ preserved, input.verifiedContext cs = .ok preserved ∧
    input.checkCommit preserved = .ok ()
  manifests : discover input.manifests = .ok ms
  distinct : duplicatePaths (input.rehydrate ms) = []
  present : ∀ a ∈ (stripped input ms).1, Input.unchecked a = false →
    ((stripped input ms).2 (input.placeOf (stripped input ms).2 a.path)).isSome

theorem detectMissingFiles_eq_ok : input.detectMissingFiles files registry = .ok () ↔
    ∀ a ∈ registry, Input.unchecked a = false → (files (input.placeOf files a.path)).isSome := by
  have hnil : ((registry.filter fun a =>
      !Input.unchecked a && (files (input.placeOf files a.path)).isNone).map (·.path)) = [] ↔
      ∀ a ∈ registry, Input.unchecked a = false → (files (input.placeOf files a.path)).isSome := by
    rw [List.map_eq_nil_iff, List.filter_eq_nil_iff]
    refine forall₂_congr fun a _ => ?_
    cases Input.unchecked a <;> simp [Option.isSome_iff_ne_none]
  rw [← hnil]
  unfold Input.detectMissingFiles
  dsimp only
  split
  · next h => simp [h]
  · next h => simp [h]

theorem run_eq_ok : input.runOneCrateDist = .ok (registry, files) ↔
    ∃ cs ms, Started input cs ms ∧ registry = (stripped input ms).1 ∧
      files = input.writeMetadataJson (stripped input ms).2 := by
  simp only [Input.runOneCrateDist, bind_eq_ok]
  constructor
  · rintro ⟨_, hcontext, _, hartifacts, cs, hcs, preserved, hverified, _, hcommit, ms, hms, h⟩
    split at h
    · cases h
    next hdistinct =>
    obtain ⟨_, hmissing, h⟩ := bind_eq_ok.mp h
    obtain ⟨hregistry, hfiles⟩ := Prod.ext_iff.mp (Except.ok.inj h)
    exact ⟨cs, ms, ⟨⟨hcontext, hartifacts⟩, hcs, ⟨preserved, hverified, hcommit⟩, hms,
      not_not.mp hdistinct, detectMissingFiles_eq_ok.mp hmissing⟩, hregistry.symm, hfiles.symm⟩
  · rintro ⟨cs, ms, h, rfl, rfl⟩
    obtain ⟨preserved, hverified, hcommit⟩ := h.verified
    refine ⟨(), h.separate.1, (), h.separate.2, cs, h.contexts, preserved, hverified, (), hcommit,
      ms, h.manifests, ?_⟩
    rw [if_neg (not_not.mpr h.distinct)]
    exact bind_eq_ok.mpr ⟨(), detectMissingFiles_eq_ok.mpr h.present, rfl⟩

/-- What a discovered manifest records is recorded by some manifest of the listing. -/
theorem mem_discover {α : Type} {listing : Listing α} {found : List (Text × α)}
    (h : discover listing = .ok found) {name : Text} {x : α} :
    (name, x) ∈ found ↔ (name, some x) ∈ listing := by
  have hperm : found.map (fun e => (e.1, some e.2)) =
      listing.mergeSort fun a b => decide (a.1 ≤ b.1) := by
    refine map_eq_of_mapM ?_ h
    rintro ⟨n, _ | y⟩ c hc
    · cases hc
    · cases hc
      rfl
  rw [← (List.mergeSort_perm listing fun a b => decide (a.1 ≤ b.1)).mem_iff, ← hperm, List.mem_map]
  constructor
  · exact fun hmem => ⟨(name, x), hmem, rfl⟩
  · rintro ⟨e, he, heq⟩
    obtain ⟨rfl, hx⟩ := Prod.mk.inj heq
    obtain rfl := Option.some.inj hx
    exact he

/-! ### Verified bytes -/

/-- Not a file of the dist: no claim is made about its bytes. -/
def Exempt (a : Artifact) : Prop := Input.unchecked a = true ∨ a.kind.isImageReference = true

/-- Some context manifest records the file at the place. -/
def RecordedAt (input : Input) (place : List Text) (r : PreservedArtifact) : Prop :=
  (∃ name c, (name, some c) ∈ input.contexts ∧ r ∈ c.artifacts) ∧
    input.locate (joinPath input.dist r.path) = place

/-- The bytes at the place are those of the record. -/
def HashesTo (input : Input) (files : Files) (place : List Text) (r : PreservedArtifact) : Prop :=
  ∃ bytes, files place = some bytes ∧ normalizeHash r.sha256 = input.actualHash bytes

/-- A run ships verified bytes only, and its manifests may be found in any order. -/
structure ShipsVerified (input : Input) : Prop where
  verified : ∀ registry files, input.runOneCrateDist = .ok (registry, files) →
    ∀ a ∈ registry, ¬Exempt a → ∃ r, RecordedAt input (input.placeOf files a.path) r ∧
      HashesTo input files (input.placeOf files a.path) r
  unsigned : ∀ registry files, input.runOneCrateDist = .ok (registry, files) →
    ∀ a ∈ registry, a.kind.isSignature = false
  distinct : ∀ registry files, input.runOneCrateDist = .ok (registry, files) →
    registry.Pairwise fun a b => ¬samePath a.path b.path
  relisted : ∀ contexts manifests, Relisted input.contexts contexts →
    Relisted input.manifests manifests →
      { input with contexts, manifests }.runOneCrateDist = input.runOneCrateDist
  order : ∀ cs cs', cs.Perm cs' → ((∃ p, input.verifiedContext cs = .ok p) ↔
    ∃ p, input.verifiedContext cs' = .ok p)

/-- The run writes its own metadata over the place. -/
def Rewritten (input : Input) (place : List Text) : Prop :=
  place = input.metadataPlace ∧ input.dryRun = false

/-- A context manifest records every file that the manifests of a started run leave in the
registry. Where the verification skips its name, or the run rewrites it, its bytes are the
recorded ones by themselves. -/
def AllRecorded (input : Input) : Prop :=
  ∀ cs ms, Started input cs ms →
    let files := input.writeMetadataJson (stripped input ms).2
    ∀ a ∈ (stripped input ms).1, ¬Exempt a → ∃ r,
      RecordedAt input (input.placeOf files a.path) r ∧
        (isEphemeralSignaturePath r.path = true ∨ Rewritten input (input.placeOf files a.path) →
          HashesTo input files (input.placeOf files a.path) r)

variable {cs : List (Text × PreservedDistContext)} {ms : List (Text × List Artifact)}
  {r : PreservedArtifact} {place : List Text}

/-- The records of the found contexts are those of the listing. -/
theorem Started.mem_records (h : Started input cs ms) : r ∈ cs.flatMap (·.2.artifacts) ↔
    ∃ name c, (name, some c) ∈ input.contexts ∧ r ∈ c.artifacts := by
  obtain ⟨found, hfound, hne⟩ := bind_eq_ok.mp h.contexts
  split at hne
  · cases hne
  obtain rfl := Except.ok.inj hne
  rw [List.mem_flatMap]
  constructor
  · rintro ⟨c, hc, hr⟩
    exact ⟨c.1, c.2, (mem_discover hfound).mp hc, hr⟩
  · rintro ⟨name, c, hc, hr⟩
    exact ⟨(name, c), (mem_discover hfound).mpr hc, hr⟩

/-- What the pipeline finds at a place that is not rewritten is what was there. -/
theorem files_of_not_rewritten (hplace : ¬Rewritten input place) {bytes : Bytes}
    (h : input.writeMetadataJson (stripped input ms).2 place = some bytes) :
    input.files place = some bytes := by
  rw [Input.writeMetadataJson] at h
  split at h
  · next hwritten => exact absurd hwritten hplace
  · simp only [stripped, Input.stripEphemeralSignatures] at h
    split at h
    · cases h
    · exact h

/-- Every checked artifact of a started run is a file. -/
theorem Started.exists_file (h : Started input cs ms) (ha : a ∈ (stripped input ms).1)
    (hchecked : Input.unchecked a = false) :
    ∃ bytes, input.writeMetadataJson (stripped input ms).2
      (input.placeOf (input.writeMetadataJson (stripped input ms).2) a.path) = some bytes := by
  have hpresent := h.present a ha hchecked
  have hmono : ∀ place, ((stripped input ms).2 place).isSome →
      (input.writeMetadataJson (stripped input ms).2 place).isSome := by
    intro place hsome
    rw [Input.writeMetadataJson]
    split
    · rfl
    · exact hsome
  rw [← Option.isSome_iff_exists]
  generalize (stripped input ms).2 = files at hpresent hmono
  rw [Input.placeOf] at hpresent ⊢
  by_cases habs : isAbsolute a.path = true
  · simp only [habs, Bool.true_or, if_true] at hpresent ⊢
    exact hmono _ hpresent
  · simp only [habs, Bool.false_or] at hpresent ⊢
    by_cases hwritten : (input.writeMetadataJson files (input.locate a.path)).isSome = true
    · rw [if_pos hwritten]
      exact hwritten
    · rw [if_neg hwritten]
      have hfile : ¬(files (input.locate a.path)).isSome = true := fun hs => hwritten (hmono _ hs)
      rw [if_neg hfile] at hpresent
      exact hmono _ hpresent

/-- A run ships verified bytes only exactly when all that it ships is recorded. -/
theorem shipsVerified_iff (input : Input) : ShipsVerified input ↔ AllRecorded input := by
  constructor
  · intro h cs ms hstarted files a ha hexempt
    obtain ⟨r, hrecorded, hhash⟩ :=
      h.verified _ _ (run_eq_ok.mpr ⟨cs, ms, hstarted, rfl, rfl⟩) a ha hexempt
    exact ⟨r, hrecorded, fun _ => hhash⟩
  · intro h
    refine ⟨?_, ?_, ?_, ?_, fun cs cs' hperm => verifiedContext_perm hperm⟩
    · intro registry files hrun a ha hexempt
      obtain ⟨cs, ms, hstarted, rfl, rfl⟩ := run_eq_ok.mp hrun
      obtain ⟨r, hrecorded, hhash⟩ := h cs ms hstarted a ha hexempt
      by_cases hskipped : isEphemeralSignaturePath r.path = true ∨
          Rewritten input (input.placeOf (input.writeMetadataJson (stripped input ms).2) a.path)
      · exact ⟨r, hrecorded, hhash hskipped⟩
      · obtain ⟨hname, hplace⟩ := not_or.mp hskipped
        have hchecked : Input.unchecked a = false := by
          rw [← Bool.not_eq_true]
          exact fun hu => hexempt (.inl hu)
        obtain ⟨bytes, hbytes⟩ := hstarted.exists_file ha hchecked
        obtain ⟨preserved, hverified, -⟩ := hstarted.verified
        obtain ⟨-, -, -, hall⟩ := verifiedContext_isOk.mp ⟨preserved, hverified⟩
        obtain ⟨bytes', hbytes', r', hr', hpath, hhash⟩ :=
          hall r (hstarted.mem_records.mpr hrecorded.1)
            (by simpa using hname)
        rw [hrecorded.2, files_of_not_rewritten hplace hbytes] at hbytes'
        obtain rfl := Option.some.inj hbytes'
        exact ⟨r', ⟨hstarted.mem_records.mp hr', by rw [hpath, hrecorded.2]⟩, bytes, hbytes, hhash⟩
    · intro registry files hrun a ha
      obtain ⟨cs, ms, -, rfl, -⟩ := run_eq_ok.mp hrun
      rw [← Bool.not_eq_true]
      intro hsig
      obtain ⟨hmem, hkept⟩ := List.mem_filter.mp ha
      have hstale : (((input.rehydrate ms).filter (·.kind.isSignature)).map (·.path)).any
          (samePath · a.path) = true := by
        rw [List.any_eq_true]
        exact ⟨a.path, List.mem_map_of_mem (List.mem_filter.mpr ⟨hmem, hsig⟩), by simp [samePath]⟩
      rw [hstale] at hkept
      cases hkept
    · intro registry files hrun
      obtain ⟨cs, ms, hstarted, rfl, -⟩ := run_eq_ok.mp hrun
      exact (duplicatePaths_eq_nil.mp hstarted.distinct).filter _
    · intro contexts manifests hcontexts hmanifests
      have hcontexts' : discoverPreservedContexts contexts =
          discoverPreservedContexts input.contexts := by
        rw [discoverPreservedContexts, discoverPreservedContexts, discover_relisted hcontexts]
      simp only [Input.runOneCrateDist]
      rw [← collides_relisted hcontexts, ← collides_relisted hmanifests, hcontexts',
        ← discover_relisted hmanifests]
      rfl

/-! ### A public key that is shipped unverified -/

def keyFile : Artifact := ⟨.uploadableFile, "dist/key.asc".toList, none, [], none⟩

def keyContext : PreservedDistContext where
  artifacts := [⟨"key.asc".toList,
    "ca978112ca1bbdcafac231b39a23dc4da786eff8147c4e72b9807785afee48bb".toList⟩]
  targets := []
  version := "1.0.0".toList
  commit := "abc".toList

/-- The recorded hash is that of the text `a`, and the file is empty. -/
def keyInput : Input where
  cwd := "/repo".toList
  dist := "dist".toList
  contexts := [("context.json".toList, some keyContext)]
  manifests := [("artifacts.json".toList, some [keyFile])]
  files place := if place = ["repo".toList, "dist".toList, "key.asc".toList] then some [] else none
  sha256 _ := "e3b0c44298fc1c149afbf4c8996fb92427ae41e4649b934ca495991b7852b855".toList
  fullCommit := some "abc".toList
  dryRun := false
  metadataJson := []

theorem keyInput_started : Started keyInput
    [("context.json".toList, keyContext)]
    [("artifacts.json".toList, [keyFile])] where
  separate := ⟨by decide, by decide⟩
  contexts := by
    simp only [discoverPreservedContexts, discover, keyInput, List.mergeSort_singleton]
    rfl
  verified := by
    refine ⟨keyContext, bind_eq_ok.mpr ⟨keyContext, mergePreservedContexts_eq_ok.mpr
      ⟨⟨_, List.mem_singleton_self _, by decide⟩, ?_, ?_, by simp [keyContext, ordered,
        firstRecorded]⟩, bind_eq_ok.mpr ⟨(), hashVerifyPreservedDist_eq_ok.mpr ?_, rfl⟩⟩, by decide⟩
    · intro c hc c' hc' _ _
      rw [List.mem_singleton.mp hc, List.mem_singleton.mp hc']
    · intro c hc c' hc' _ _
      rw [List.mem_singleton.mp hc, List.mem_singleton.mp hc']
    · intro r hr hname
      rw [List.mem_singleton.mp hr] at hname
      exact absurd hname (by decide)
  manifests := by
    simp only [discover, keyInput, List.mergeSort_singleton]
    rfl
  distinct := by decide
  present := by decide

/-- A file with the name of a signature is shipped, whatever is recorded for it. -/
theorem not_shipsVerified : ¬ShipsVerified keyInput := by
  intro h
  have hrun := run_eq_ok.mpr ⟨_, _, keyInput_started, rfl, rfl⟩
  have hfile : ¬Exempt keyFile := by
    rintro (hunchecked | himage)
    · exact absurd hunchecked (by decide)
    · exact absurd himage (by decide)
  have hmem : keyFile ∈ (stripped keyInput [("artifacts.json".toList, [keyFile])]).1 := by decide
  obtain ⟨r, ⟨⟨name, c, hc, hr⟩, -⟩, bytes, -, hhash⟩ :=
    h.verified _ _ hrun keyFile hmem hfile
  obtain ⟨-, hc⟩ := Prod.mk.inj (List.mem_singleton.mp hc)
  obtain rfl := Option.some.inj hc
  obtain rfl := List.mem_singleton.mp hr
  have hrecorded : "ca978112ca1bbdcafac231b39a23dc4da786eff8147c4e72b9807785afee48bb".toList = _ :=
    String.toList_ofList
  have hempty : "e3b0c44298fc1c149afbf4c8996fb92427ae41e4649b934ca495991b7852b855".toList = _ :=
    String.toList_ofList
  have hdiffer : normalizeHash "ca978112ca1bbdcafac231b39a23dc4da786eff8147c4e72b9807785afee48bb".toList ≠
      keyInput.actualHash [] := by
    simp only [Input.actualHash, keyInput, hrecorded, hempty]
    decide
  exact hdiffer hhash

end Anodizer.PublishOnly
