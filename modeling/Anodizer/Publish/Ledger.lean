import Anodizer.Publish.Dispatch
import Mathlib.Data.Finset.Card

/-! # The ledger fast path

A row of a prior summary vouches for a publisher when every digest it recorded is the
current one. It covers the current run only when it recorded as many names as there are
now; what was added since is not compared.
-/

namespace Anodizer

section Digests

variable {m : List (String × String)} {n : String}

theorem lookup_cons_ite (k d : String) :
    ((k, d) :: m).lookup n = if n = k then some d else m.lookup n := by
  by_cases h : n = k
  · simp [h]
  · rw [List.lookup_cons, beq_eq_false_iff_ne.mpr h, if_neg h]

theorem lookup_mem {d : String} (h : m.lookup n = some d) : (n, d) ∈ m := by
  induction m with
  | nil => cases h
  | cons e m ih =>
    obtain ⟨k, d'⟩ := e
    rw [lookup_cons_ite] at h
    split at h
    · next hk =>
      cases h
      rw [hk]
      exact List.mem_cons_self
    · exact List.mem_cons_of_mem _ (ih h)

theorem lookup_of_mem_names (h : n ∈ m.map Prod.fst) : ∃ d, m.lookup n = some d := by
  induction m with
  | nil => simp at h
  | cons e m ih =>
    obtain ⟨k, d⟩ := e
    rw [lookup_cons_ite]
    split
    · exact ⟨d, rfl⟩
    · next hk =>
      rw [List.map_cons, List.mem_cons] at h
      exact ih (h.resolve_left hk)

theorem lookup_insertDigest (name digest : String) :
    (insertDigest name digest m).lookup n = if n = name then some digest else m.lookup n := by
  induction m with
  | nil => rw [insertDigest, lookup_cons_ite]
  | cons e m ih =>
    obtain ⟨k, d⟩ := e
    unfold insertDigest
    split
    · rw [lookup_cons_ite]
    · split
      · next hk =>
        rw [lookup_cons_ite, lookup_cons_ite, hk]
        by_cases h : n = k <;> simp [h]
      · next hk =>
        rw [lookup_cons_ite, lookup_cons_ite, ih]
        by_cases h : n = k
        · simp [h, Ne.symm hk]
        · simp [h]

/-- One artifact of the run, folded into the digests. -/
def addDigest (digests : List (String × String)) (a : Artifact) : List (String × String) :=
  match a.checksum with
  | some d => insertDigest a.name d digests
  | none => digests

theorem lookup_addDigest (a : Artifact) : (addDigest m a).lookup n =
    if n = a.name ∧ a.checksum.isSome then a.checksum else m.lookup n := by
  unfold addDigest
  cases h : a.checksum with
  | none => simp
  | some d => simp [lookup_insertDigest]

theorem snapshot_eq {ω : Type} (ctx : Context ω) :
    snapshotArtifactDigests ctx = ctx.artifacts.foldl addDigest [] := rfl

/-- A digest of the snapshot is that of an artifact. -/
theorem exists_artifact {artifacts : List Artifact} {d : String}
    (h : (artifacts.foldl addDigest []).lookup n = some d) :
    ∃ a ∈ artifacts, a.name = n ∧ a.checksum = some d := by
  induction artifacts using List.reverseRecOn with
  | nil => cases h
  | append_singleton artifacts a ih =>
    rw [List.foldl_append, List.foldl_cons, List.foldl_nil, lookup_addDigest] at h
    split at h
    · next ha => exact ⟨a, by simp, ha.1.symm, h⟩
    · obtain ⟨b, hb, hname, hsum⟩ := ih h
      exact ⟨b, List.mem_append_left _ hb, hname, hsum⟩

/-- Every hashed artifact has its name in the snapshot. -/
theorem lookup_isSome {artifacts : List Artifact} {a : Artifact} (ha : a ∈ artifacts)
    (hsum : a.checksum.isSome) : ((artifacts.foldl addDigest []).lookup a.name).isSome := by
  induction artifacts using List.reverseRecOn with
  | nil => simp at ha
  | append_singleton artifacts b ih =>
    rw [List.foldl_append, List.foldl_cons, List.foldl_nil, lookup_addDigest]
    split
    · next hb => exact hb.2
    · next hb =>
      rcases List.mem_append.mp ha with ha | ha
      · exact ih ha
      · rw [List.mem_singleton.mp ha] at hsum hb
        exact absurd ⟨rfl, hsum⟩ hb

end Digests

/-! ### What a row vouches for -/

/-- Artifacts of one name carry one content hash. -/
def OneDigestEach (artifacts : List Artifact) : Prop :=
  ∀ a ∈ artifacts, ∀ b ∈ artifacts, a.name = b.name → a.checksum.isSome → b.checksum.isSome →
    a.checksum = b.checksum

/-- The names of the artifacts that carry a content hash. -/
def hashedNames (artifacts : List Artifact) : Finset String :=
  ((artifacts.filter (·.checksum.isSome)).map (·.name)).toFinset

/-- The names a row recorded. -/
def recordedNames (digests : List (String × String)) : Finset String :=
  (digests.map Prod.fst).toFinset

/-- The record holds every hashed artifact of the run, and each of its digests is current. -/
def Covers (digests : List (String × String)) (artifacts : List Artifact) : Prop :=
  (∀ a ∈ artifacts, ∀ d, a.checksum = some d → digests.lookup a.name = some d) ∧
    ∀ e ∈ digests, ∃ a ∈ artifacts, a.name = e.1 ∧ a.checksum = some e.2

/-- Every recorded digest is the one the snapshot of the artifacts holds. -/
def Agrees (digests : List (String × String)) (artifacts : List Artifact) : Prop :=
  ∀ e ∈ digests, (artifacts.foldl addDigest []).lookup e.1 = some e.2

section Names

variable {digests : List (String × String)} {artifacts : List Artifact}

theorem mem_hashedNames {n : String} :
    n ∈ hashedNames artifacts ↔ ∃ a ∈ artifacts, a.name = n ∧ a.checksum.isSome := by
  simp only [hashedNames, List.mem_toFinset, List.mem_map, List.mem_filter]
  constructor
  · rintro ⟨a, ⟨ha, hsum⟩, rfl⟩
    exact ⟨a, ha, rfl, hsum⟩
  · rintro ⟨a, ha, rfl, hsum⟩
    exact ⟨a, ⟨ha, hsum⟩, rfl⟩

theorem Agrees.names_subset (h : Agrees digests artifacts) :
    recordedNames digests ⊆ hashedNames artifacts := by
  intro n hn
  simp only [recordedNames, List.mem_toFinset, List.mem_map] at hn
  obtain ⟨e, he, rfl⟩ := hn
  obtain ⟨a, ha, hname, hsum⟩ := exists_artifact (h e he)
  exact mem_hashedNames.mpr ⟨a, ha, hname, by simp [hsum]⟩

theorem Covers.oneDigestEach (h : Covers digests artifacts) : OneDigestEach artifacts := by
  intro a ha b hb hname hsa hsb
  obtain ⟨d, hd⟩ := Option.isSome_iff_exists.mp hsa
  obtain ⟨d', hd'⟩ := Option.isSome_iff_exists.mp hsb
  rw [hd, hd', ← h.1 a ha d hd, hname, h.1 b hb d' hd']

/-- A record that agrees with the run covers it exactly when names and digests of the run are
one to one and it recorded as many names. -/
theorem Agrees.covers_iff (h : Agrees digests artifacts) : Covers digests artifacts ↔
    OneDigestEach artifacts ∧ (recordedNames digests).card = (hashedNames artifacts).card := by
  constructor
  · intro hcovers
    refine ⟨hcovers.oneDigestEach, ?_⟩
    apply congrArg Finset.card
    apply h.names_subset.antisymm
    intro n hn
    obtain ⟨a, ha, rfl, hsum⟩ := mem_hashedNames.mp hn
    obtain ⟨d, hd⟩ := Option.isSome_iff_exists.mp hsum
    have hin := lookup_mem (hcovers.1 a ha d hd)
    exact List.mem_toFinset.mpr (List.mem_map_of_mem (f := Prod.fst) hin)
  · rintro ⟨hone, hcard⟩
    have hnames := Finset.eq_of_subset_of_card_le h.names_subset hcard.ge
    constructor
    · intro a ha d hd
      have hn : a.name ∈ recordedNames digests := by
        rw [hnames]
        exact mem_hashedNames.mpr ⟨a, ha, rfl, by simp [hd]⟩
      obtain ⟨d', hd'⟩ := lookup_of_mem_names (List.mem_toFinset.mp hn)
      obtain ⟨b, hb, hbname, hbsum⟩ := exists_artifact (h _ (lookup_mem hd'))
      have heq := hone a ha b hb hbname.symm (by simp [hd]) (by simp [hbsum])
      rw [hd', ← hbsum, ← heq, hd]
    · exact fun e he => exists_artifact (h e he)

theorem Covers.agrees (h : Covers digests artifacts) : Agrees digests artifacts := by
  have hone := h.oneDigestEach
  intro e he
  obtain ⟨a, ha, hname, hsum⟩ := h.2 e he
  obtain ⟨d, hd⟩ := Option.isSome_iff_exists.mp (lookup_isSome ha (by simp [hsum]))
  obtain ⟨b, hb, hbname, hbsum⟩ := exists_artifact hd
  have heq := hone a ha b hb hbname.symm (by simp [hsum]) (by simp [hbsum])
  rw [hsum, hbsum, Option.some.injEq] at heq
  rw [← hname, hd, heq]

end Names

/-! ### The fast path -/

section FastPath

variable {ω : Type}

/-- The digests of a published, not withdrawn row of the publisher under the current tag. -/
def Recorded (env : Env ω) (ctx : Context ω) (publisher : String)
    (digests : List (String × String)) : Prop :=
  ∃ summary ∈ env.runSummaries ctx, summary.tag = ctx.tag.getD "" ∧
    withdrawnBeside summary.rollback publisher = false ∧
    ∃ result ∈ summary.results, result.name = publisher ∧
      (result.status = "succeeded" ∨ result.status.startsWith "pending-") ∧
      ∃ evidence, result.evidence = some evidence ∧ evidence.artifactDigests = digests

/-- The row records something, and every digest it recorded is current. -/
def Vouches (env : Env ω) (ctx : Context ω) (publisher : String)
    (digests : List (String × String)) : Prop :=
  Recorded env ctx publisher digests ∧ digests ≠ [] ∧ Agrees digests ctx.artifacts

variable {env : Env ω} {ctx : Context ω} {publisher : String}

theorem provesComplete_iff {result : SummaryResult} :
    result.provesComplete publisher (snapshotArtifactDigests ctx) ↔
      result.name = publisher ∧
        (result.status = "succeeded" ∨ result.status.startsWith "pending-") ∧
        ∃ evidence, result.evidence = some evidence ∧ evidence.artifactDigests ≠ [] ∧
          Agrees evidence.artifactDigests ctx.artifacts := by
  unfold SummaryResult.provesComplete
  cases result.evidence with
  | none => simp
  | some evidence => simp [Agrees, snapshot_eq, and_assoc]

/-- The fast path answers exactly when some row vouches. -/
theorem ledgerFastPath_iff :
    (∃ note, ledgerFastPath env ctx publisher (snapshotArtifactDigests ctx) =
      some (.complete note)) ↔ ∃ digests, Vouches env ctx publisher digests := by
  constructor
  · rintro ⟨note, h⟩
    obtain ⟨summary, hsummary, h⟩ := List.exists_of_findSome?_eq_some h
    split at h
    · cases h
    · next htag =>
      split at h
      · cases h
      · next hwithdrawn =>
        obtain ⟨result, hresult, -⟩ := Option.map_eq_some_iff.mp h
        have hproves : result.provesComplete publisher (snapshotArtifactDigests ctx) := by
          simpa using List.find?_some hresult
        obtain ⟨hname, hstatus, evidence, he, hne, hagrees⟩ := provesComplete_iff.mp hproves
        refine ⟨_, ⟨summary, hsummary, by simpa using htag, by simpa using hwithdrawn, result,
          List.mem_of_find?_eq_some hresult, hname, hstatus, evidence, he, rfl⟩, hne, hagrees⟩
  · rintro ⟨_, ⟨summary, hsummary, htag, hwithdrawn, result, hresult, hname, hstatus, evidence, he,
      rfl⟩, hne, hagrees⟩
    have hproves : result.provesComplete publisher (snapshotArtifactDigests ctx) :=
      provesComplete_iff.mpr ⟨hname, hstatus, evidence, he, hne, hagrees⟩
    have hsome : (ledgerFastPath env ctx publisher (snapshotArtifactDigests ctx)).isSome := by
      unfold ledgerFastPath
      rw [List.findSome?_isSome_iff]
      refine ⟨summary, hsummary, ?_⟩
      simpa [htag, hwithdrawn] using ⟨result, hresult, hproves⟩
    obtain ⟨state, hstate⟩ := Option.isSome_iff_exists.mp hsome
    obtain ⟨_, -, h⟩ := List.exists_of_findSome?_eq_some hstate
    split at h
    · cases h
    · split at h
      · cases h
      · obtain ⟨result', -, rfl⟩ := Option.map_eq_some_iff.mp h
        exact ⟨_, hstate⟩

/-- When the fast path answers, some row recorded the whole current run. -/
def LedgerSound (env : Env ω) (ctx : Context ω) (publisher : String) : Prop :=
  (∃ note, ledgerFastPath env ctx publisher (snapshotArtifactDigests ctx) =
    some (.complete note)) →
    ∃ digests, Recorded env ctx publisher digests ∧ Covers digests ctx.artifacts

/-- The fast path is sound exactly when no row vouches, or artifacts of one name carry one hash
and some row that vouches recorded as many names as the run has. -/
theorem ledgerSound_iff (env : Env ω) (ctx : Context ω) (publisher : String) :
    LedgerSound env ctx publisher ↔
      (∀ digests, ¬Vouches env ctx publisher digests) ∨
        OneDigestEach ctx.artifacts ∧ ∃ digests, Vouches env ctx publisher digests ∧
          (recordedNames digests).card = (hashedNames ctx.artifacts).card := by
  rw [LedgerSound, ledgerFastPath_iff]
  constructor
  · intro h
    rw [or_iff_not_imp_left]
    intro hsome
    obtain ⟨digests, hvouches⟩ := not_forall_not.mp hsome
    obtain ⟨record, hrecorded, hcovers⟩ := h ⟨digests, hvouches⟩
    have hne : record ≠ [] := by
      rintro rfl
      obtain ⟨e, he⟩ := List.exists_mem_of_ne_nil _ hvouches.2.1
      obtain ⟨a, ha, -, hsum⟩ := exists_artifact (hvouches.2.2 e he)
      cases hcovers.1 a ha _ hsum
    have hagrees := hcovers.agrees
    exact ⟨hcovers.oneDigestEach, record, ⟨hrecorded, hne, hagrees⟩,
      (hagrees.covers_iff.mp hcovers).2⟩
  · rintro (hnone | ⟨hone, digests, hvouches, hcard⟩)
    · rintro ⟨digests, hvouches⟩
      exact absurd hvouches (hnone digests)
    · rintro -
      exact ⟨digests, hvouches.1, hvouches.2.2.covers_iff.mpr ⟨hone, hcard⟩⟩

end FastPath

/-! ### An artifact added since -/

/-- The ledger holds one row of the blob publisher for `v1.0.0` with one digest. -/
def blobLedger : Env Unit where
  options := {}
  verifyGate := none
  persistSummarySnapshot _ _ := ()
  runSummaries _ :=
    [{ path := "dist/run-v1.0.0/summary.json"
       tag := "v1.0.0"
       rollback := none
       results := [{
         name := "blob"
         status := "succeeded"
         evidence := some { PublishEvidence.new "blob" with
           artifactDigests := [("app-linux.tar.gz", "sha256:aa")] } }] }]

/-- The re-run built the recorded archive again and one more. -/
def grownRun : Context Unit where
  world := ()
  tag := some "v1.0.0"
  artifacts := [⟨"app-linux.tar.gz", some "sha256:aa"⟩, ⟨"app-macos.tar.gz", some "sha256:bb"⟩]

theorem not_ledgerSound : ¬∀ (env : Env Unit) (ctx : Context Unit) (publisher : String),
    LedgerSound env ctx publisher := by
  intro h
  obtain ⟨digests, ⟨summary, hsummary, -, -, result, hresult, -, -, evidence, he, rfl⟩,
    hcovers⟩ := h blobLedger grownRun "blob" ⟨_, rfl⟩
  rw [List.mem_singleton.mp hsummary] at hresult
  rw [List.mem_singleton.mp hresult] at he
  cases he
  have hmacos := hcovers.1 ⟨"app-macos.tar.gz", some "sha256:bb"⟩ (by decide) "sha256:bb" rfl
  exact absurd hmacos (by decide)

end Anodizer
