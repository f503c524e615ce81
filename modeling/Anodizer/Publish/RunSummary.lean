import Anodizer.Lib.Reader
import Anodizer.Publish.Report

/-! # The run summary on disk

The readers of the ledger drop the one field older documents may carry and read the value of
a document; the writer that must preserve a summary reads the document as it is written. The
two agree on the documents without that field that repeat nothing.
-/

namespace Anodizer

structure RetryScopeStat where
  scope : String
  retries : Nat
  backoffSecs : Number
  deriving DecidableEq, Repr

structure VerifyReleaseRecord where
  passed : Bool
  issueCount : Nat
  issues : List String
  deriving DecidableEq, Repr

structure RunSummaryResult where
  name : String
  group : PublisherGroup
  required : Bool
  status : String
  evidence : Option PublishEvidence
  entrySkips : List String
  deriving DecidableEq, Repr

structure DeterminismAllowlistEntry where
  artifact : String
  reason : String
  deriving DecidableEq, Repr

structure DeterminismAllowlist where
  compileTime : List DeterminismAllowlistEntry := []
  runtime : List DeterminismAllowlistEntry := []
  deriving DecidableEq, Repr

structure RunSummary where
  schemaVersion : Nat
  anodizerVersion : String
  tag : String
  submitterGated : Bool
  announceGated : Bool
  publishersSucceeded : Nat
  publishersFailed : Nat
  irreversiblyPublished : Bool
  verifyRelease : Option VerifyReleaseRecord
  retryBackoffSecs : Number
  retryByScope : List RetryScopeStat
  results : List RunSummaryResult
  determinismAllowlist : DeterminismAllowlist
  deriving DecidableEq, Repr

/-! ### Reading a summary -/

section Read

open Reader Members

-- The typed payload as an untagged enum reads it from a value.
variable (untaggedExtra : Json → Option PublishEvidenceExtra)

def publisherGroup : Reader PublisherGroup :=
  variant fun name =>
    if name = "Assets" then some .assets
    else if name = "Manager" then some .manager
    else if name = "Submitter" then some .submitter
    else none

/-- An absent payload and an empty object both read as the empty one. -/
def deserializeExtraCompat : Reader PublishEvidenceExtra :=
  ofValue fun j =>
    if j = .null ∨ j = .obj [] then some .empty else untaggedExtra j

def publishEvidence : Reader PublishEvidence :=
  struct <| PublishEvidence.mk
    <$> required "schema_version" (uint 32)
    <*> required "publisher" str
    <*> optional "primary_ref" str
    <*> required "artifact_paths" str.list
    <*> withDefault "artifact_digests" str.map []
    <*> optional "nondeterministic" str
    <*> withDefault "extra" (deserializeExtraCompat untaggedExtra) .empty

def retryScopeStat : Reader RetryScopeStat :=
  struct <| RetryScopeStat.mk
    <$> required "scope" str
    <*> required "retries" (uint 32)
    <*> required "backoff_secs" number

def verifyReleaseRecord : Reader VerifyReleaseRecord :=
  struct <| VerifyReleaseRecord.mk
    <$> required "passed" bool
    <*> required "issue_count" (uint 32)
    <*> withDefault "issues" str.list []

def runSummaryResult : Reader RunSummaryResult :=
  struct <| RunSummaryResult.mk
    <$> required "name" str
    <*> required "group" publisherGroup
    <*> required "required" bool
    <*> required "status" str
    <*> optional "evidence" (publishEvidence untaggedExtra)
    <*> withDefault "entry_skips" str.list []

def determinismAllowlistEntry : Reader DeterminismAllowlistEntry :=
  struct <| DeterminismAllowlistEntry.mk
    <$> required "artifact" str
    <*> required "reason" str

def determinismAllowlist : Reader DeterminismAllowlist :=
  struct <| DeterminismAllowlist.mk
    <$> withDefault "compile_time" determinismAllowlistEntry.list []
    <*> withDefault "runtime" determinismAllowlistEntry.list []

def runSummaryMembers : Members RunSummary :=
  RunSummary.mk
    <$> required "schema_version" (uint 32)
    -- Summaries before schema 3 spell the field `anodize_version`.
    <*> field ["anodizer_version", "anodize_version"] str none none
    <*> required "tag" str
    <*> required "submitter_gated" bool
    <*> required "announce_gated" bool
    <*> withDefault "publishers_succeeded" (uint 32) 0
    <*> withDefault "publishers_failed" (uint 32) 0
    <*> withDefault "irreversibly_published" bool false
    <*> withDefault "verify_release" verifyReleaseRecord.option none
    <*> withDefault "retry_backoff_secs" number (.float "0.0")
    <*> withDefault "retry_by_scope" retryScopeStat.list []
    <*> required "results" (runSummaryResult untaggedExtra).list
    <*> required "determinism_allowlist" determinismAllowlist

def runSummary : Reader RunSummary := struct (runSummaryMembers untaggedExtra)

end Read

/-- The field schema 2 dropped, which schema 1 documents carry. -/
def removedField : String := "failure_policy"

/-- A value without the removed field. -/
def withoutRemoved : Json → Json
  | .obj fields => .obj (fields.filter (·.1 ≠ removedField))
  | j => j

def carriesRemoved : Json → Bool
  | .obj fields => removedField ∈ Json.keys fields
  | _ => false

/-- What writing a summary meets outside the process: how texts are read and printed, and
whether the directory and the file can be written. -/
structure SummaryIo where
  parse : String → Option Json
  untaggedExtra : Json → Option PublishEvidenceExtra
  createParent : Except String Unit
  render : RunSummary → Except String String
  atomicWrite : Except String Unit

/-- The strict reading of the preserving writer: the document as it is written. -/
def SummaryIo.fromStr (io : SummaryIo) (text : String) : Option RunSummary :=
  (io.parse text).bind (runSummary io.untaggedExtra).decode

/-- The reading of the ledger: the value of the document, without the removed field. -/
def parseRunSummaryLenient (io : SummaryIo) (text : String) : Option RunSummary :=
  (io.parse text).bind fun j =>
    (runSummary io.untaggedExtra).decode (withoutRemoved j.value)

/-- What is returned and what the file then holds. A summary without results leaves one
that has some; a write that fails leaves the file. -/
def writeSummaryJson (io : SummaryIo) (summary : RunSummary) (file : Option String) :
    Except String Bool × Option String :=
  let preserved := summary.results.isEmpty &&
    match file.bind io.fromStr with
    | some prior => !prior.results.isEmpty
    | none => false
  if preserved then (.ok false, file)
  else
    match io.createParent with
    | .error e => (.error e, file)
    | .ok () =>
      match io.render summary with
      | .error e => (.error e, file)
      | .ok text =>
        match io.atomicWrite with
        | .error e => (.error e, file)
        | .ok () => (.ok true, some text)

/-! ### The two readings -/

section Readings

variable {untaggedExtra : Json → Option PublishEvidenceExtra} {j : Json} {summary : RunSummary}

theorem runSummaryMembers_names : (runSummaryMembers untaggedExtra).names =
    ["schema_version", "anodizer_version", "anodize_version", "tag", "submitter_gated",
      "announce_gated", "publishers_succeeded", "publishers_failed", "irreversibly_published",
      "verify_release", "retry_backoff_secs", "retry_by_scope", "results",
      "determinism_allowlist"] := rfl

theorem removedField_unknown : removedField ∉ (runSummaryMembers untaggedExtra).names := by
  rw [runSummaryMembers_names]
  decide

theorem withoutRemoved_of_not (h : carriesRemoved j = false) : withoutRemoved j.value = j.value := by
  cases j with
  | obj fields =>
    simp only [carriesRemoved, decide_eq_false_iff_not] at h
    rw [Json.value_obj, withoutRemoved]
    congr 1
    rw [List.filter_eq_self]
    intro f hf
    have hkey : f.1 ∈ Json.keys fields :=
      Json.mem_keys_valueFields.mp (List.mem_map_of_mem hf)
    simp only [decide_eq_true_eq]
    intro heq
    exact h (heq ▸ hkey)
  | _ => simp [withoutRemoved, Json.value]

/-- The strict reading takes what the ledger takes of the documents that carry no removed
field and repeat nothing. -/
theorem decode_iff_lenient : (runSummary untaggedExtra).decode j = some summary ↔
    carriesRemoved j = false ∧ (runSummary untaggedExtra).plain j ∧
      (runSummary untaggedExtra).decode (withoutRemoved j.value) = some summary := by
  constructor
  · intro h
    have hnot : carriesRemoved j = false := by
      cases j with
      | obj fields =>
        simp only [carriesRemoved, decide_eq_false_iff_not]
        intro hin
        exact removedField_unknown (Reader.names_of_struct h _ hin)
      | _ => rfl
    rw [withoutRemoved_of_not hnot]
    exact ⟨hnot, (runSummary untaggedExtra).decode_iff.mp h⟩
  · rintro ⟨hnot, hplain, h⟩
    rw [withoutRemoved_of_not hnot] at h
    exact (runSummary untaggedExtra).decode_iff.mpr ⟨hplain, h⟩

end Readings

section Write

variable {io : SummaryIo} {summary : RunSummary} {file : Option String}

/-- A write that goes on past the guard never answers that it preserved the file. -/
theorem writeSummaryJson_preserves_iff (hempty : summary.results = []) :
    writeSummaryJson io summary file = (.ok false, file) ↔
      ∃ prior, file.bind io.fromStr = some prior ∧ prior.results ≠ [] := by
  have hpast : (match io.createParent with
      | .error e => (.error e, file)
      | .ok () =>
        match io.render summary with
        | .error e => (.error e, file)
        | .ok text =>
          match io.atomicWrite with
          | .error e => (.error e, file)
          | .ok () => (.ok true, some text)) ≠ ((.ok false, file) : Except String Bool × _) := by
    split
    · simp
    · split
      · simp
      · split <;> simp
  simp only [writeSummaryJson, hempty, List.isEmpty_nil, Bool.true_and]
  cases file.bind io.fromStr with
  | none => simpa using hpast
  | some prior =>
    by_cases hprior : prior.results = []
    · simpa [hprior] using hpast
    · simp [hprior]

/-- What the ledger reads of a text, with something in it. -/
def LedgerHolds (io : SummaryIo) (text : String) : Prop :=
  ∃ prior, parseRunSummaryLenient io text = some prior ∧ prior.results ≠ []

/-- An empty summary preserves a file the ledger reads results from exactly when the document
carries no removed field and repeats no name. -/
theorem empty_summary_preserves_iff (io : SummaryIo) (summary : RunSummary) (text : String)
    (hempty : summary.results = []) (hheld : LedgerHolds io text) :
    writeSummaryJson io summary (some text) = (.ok false, some text) ↔
      ∃ j, io.parse text = some j ∧ carriesRemoved j = false ∧
        (runSummary io.untaggedExtra).plain j := by
  obtain ⟨prior, hlenient, hresults⟩ := hheld
  obtain ⟨j, hparse, hprior⟩ := Option.bind_eq_some_iff.mp hlenient
  have hstrict : io.fromStr text = (runSummary io.untaggedExtra).decode j := by
    rw [SummaryIo.fromStr, hparse, Option.bind_some]
  rw [writeSummaryJson_preserves_iff hempty, Option.bind_some, hstrict]
  constructor
  · rintro ⟨_, hread, -⟩
    obtain ⟨hnot, hplain, -⟩ := decode_iff_lenient.mp hread
    exact ⟨j, hparse, hnot, hplain⟩
  · rintro ⟨j', hj', hnot, hplain⟩
    rw [hparse] at hj'
    cases hj'
    exact ⟨prior, decode_iff_lenient.mpr ⟨hnot, hplain, hprior⟩, hresults⟩

end Write

/-! ### Two documents -/

/-- A summary of one published crate, with the members before `results` given. -/
def cargoSummary (leading : Json.Fields) : Json :=
  .obj (leading ++
    [("tag", .str "v0.21.0"), ("submitter_gated", .bool false), ("announce_gated", .bool false),
      ("results", .arr [.obj
        [("name", .str "cargo"), ("group", .str "Submitter"), ("required", .bool true),
          ("status", .str "succeeded"), ("evidence", .null)]]),
      ("determinism_allowlist", .obj [])])

def emptySummary : RunSummary where
  schemaVersion := 3
  anodizerVersion := "0.28.0"
  tag := "v0.21.0"
  submitterGated := false
  announceGated := false
  publishersSucceeded := 0
  publishersFailed := 0
  irreversiblyPublished := false
  verifyRelease := none
  retryBackoffSecs := .float "0.0"
  retryByScope := []
  results := []
  determinismAllowlist := {}

/-- Every text reads as one document; directory and file can be written. -/
def ioOf (j : Json) : SummaryIo where
  parse _ := some j
  untaggedExtra _ := none
  createParent := .ok ()
  render _ := .ok "{}"
  atomicWrite := .ok ()

theorem empty_summary_preserves_v2 :
    writeSummaryJson
        (ioOf (cargoSummary [("schema_version", .num (.posInt 2)),
          ("anodize_version", .str "0.21.0")])) emptySummary (some "schema 2") =
      (.ok false, some "schema 2") :=
  (empty_summary_preserves_iff _ emptySummary "schema 2" rfl
    ⟨_, rfl, by simp⟩).mpr ⟨_, rfl, by decide, by decide⟩

/-- A schema 1 document is read by the ledger and overwritten by an empty summary. -/
theorem not_empty_summary_preserves : ¬∀ (io : SummaryIo) (summary : RunSummary) (text : String),
    summary.results = [] → LedgerHolds io text →
      writeSummaryJson io summary (some text) = (.ok false, some text) := by
  intro h
  have hread := h (ioOf (cargoSummary [("schema_version", .num (.posInt 1)),
    ("anodize_version", .str "0.21.0"), ("failure_policy", .obj [("action", .str "held")])]))
    emptySummary "schema 1" rfl ⟨_, rfl, by simp⟩
  exact absurd hread (by decide)

end Anodizer
