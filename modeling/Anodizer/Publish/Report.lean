import Anodizer.Publish.Evidence

/-! # The publish report

One row per publisher with its terminal outcome, the one-way-door predicate over
the rows, and the exit gate that turns a required failure into a non-zero exit.
-/

namespace Anodizer

/-- Dispatch classification: assets are reversible, the other two groups are one-way doors. -/
inductive PublisherGroup | assets | manager | submitter
  deriving DecidableEq, Repr

/-- Why a publisher did not execute. -/
inductive SkipReason
  | submitterGated | notConfigured | snapshot | dryRun | nightly | notApplicable
  | alreadyPublished | deselected | verifyGateBlocked | configSkipped | entriesSkipped
  deriving DecidableEq, Repr

/-- Terminal state of a publisher. -/
inductive PublisherOutcome
  | succeeded
  | skipped (reason : SkipReason)
  | failed (msg : String)
  | rolledBack
  | rollbackFailed (msg : String)
  | rollbackSkippedNoScope
  | pendingModeration
  | pendingValidation
  | publishedNoRollback
  deriving DecidableEq, Repr

namespace PublisherOutcome

/-- The failure class that fails the release when the publisher is required. -/
def isRequiredReleaseFailure : PublisherOutcome → Bool
  | .failed _ | .rollbackFailed _ => true
  | .succeeded | .skipped _ | .rolledBack | .rollbackSkippedNoScope | .pendingModeration
  | .pendingValidation | .publishedNoRollback => false

/-- The publish itself failed. -/
def isFailed : PublisherOutcome → Bool
  | .failed _ => true
  | _ => false

theorem isRequiredReleaseFailure_of_isFailed {o : PublisherOutcome} (h : o.isFailed) :
    o.isRequiredReleaseFailure := by
  cases o <;> first | rfl | simp [isFailed] at h

@[simp] theorem isFailed_skipped (r : SkipReason) : (skipped r).isFailed = false := rfl

@[simp] theorem isFailed_failed (msg : String) : (failed msg).isFailed = true := rfl

end PublisherOutcome

structure PublisherResult where
  name : String
  group : PublisherGroup
  required : Bool
  outcome : PublisherOutcome
  evidence : Option PublishEvidence
  entrySkips : List String := []
  deriving DecidableEq, Repr

namespace PublisherResult

/-- The row is a required publisher whose publish failed: the one-way doors close behind it. -/
def closesGate (r : PublisherResult) : Bool :=
  r.required && r.outcome.isFailed

/-- The row alone keeps the exit gate from passing. -/
def stopsExit (r : PublisherResult) : Bool :=
  r.required && (r.outcome.isRequiredReleaseFailure ||
    decide (r.outcome = .skipped .verifyGateBlocked))

theorem stopsExit_of_closesGate {r : PublisherResult} (h : r.closesGate) : r.stopsExit := by
  simp only [closesGate, Bool.and_eq_true] at h
  simp [stopsExit, h.1, PublisherOutcome.isRequiredReleaseFailure_of_isFailed h.2]

end PublisherResult

/-- The report of a release. `carriedForward` holds rows of earlier runs whose work is live. -/
structure PublishReport where
  results : List PublisherResult := []
  submitterGated : Bool := false
  announceGated : Bool := false
  verifyGateBlocked : Bool := false
  verifyGateEvaluated : Bool := false
  carriedForward : List PublisherResult := []
  deriving DecidableEq, Repr

namespace PublishReport

def requiredFailureNames (report : PublishReport) : List String :=
  (report.results.filter fun r => r.required && r.outcome.isRequiredReleaseFailure).map (·.name)

def requiredGateBlockedNames (report : PublishReport) : List String :=
  (report.results.filter fun r =>
    r.required && decide (r.outcome = .skipped .verifyGateBlocked)).map (·.name)

def anyFailed (report : PublishReport) (group : PublisherGroup) (requiredOnly : Bool) : Bool :=
  report.results.any fun r =>
    decide (r.group = group) && (!requiredOnly || r.required) && r.outcome.isFailed

/-- The one-way-door predicate every gate site consults. -/
def submitterGateClosed (report : PublishReport) : Bool :=
  report.anyFailed .assets true || report.anyFailed .manager true ||
    report.anyFailed .submitter true

end PublishReport

def countNoun (n : Nat) (singular plural : String) : String :=
  toString n ++ " " ++ if n = 1 then singular else plural

/-- The command-line options the publish path reads; no stage changes them. -/
structure ContextOptions where
  skipStages : List String := []
  publisherAllowlist : List String := []
  simulateFailurePublishers : List String := []
  dryRun : Bool := false
  snapshot : Bool := false
  nightly : Bool := false
  failFast : Bool := false
  gateSubmitter : Option Bool := none
  deriving DecidableEq, Repr

/-- The exit gate: an error when a required publisher failed or was blocked. -/
def gateRequiredFailures (options : ContextOptions) (publishReport : Option PublishReport)
    (ranContext : String) : Except String Unit :=
  if options.snapshot || options.dryRun then .ok ()
  else match publishReport with
    | none => .ok ()
    | some report =>
      let failed := report.requiredFailureNames
      if !failed.isEmpty then
        .error (countNoun failed.length "required publisher" "required publishers" ++
          " failed: " ++ ", ".intercalate failed ++ ". " ++ ranContext ++
          " Inspect dist/run-<id>/report.json for details; re-run the same release command " ++
          "to converge, or `anodizer tag rollback` to withdraw the release deliberately.")
      else
        let blocked := report.requiredGateBlockedNames
        if !blocked.isEmpty then
          .error (countNoun blocked.length "required publisher was" "required publishers were" ++
            " blocked by the pre-submitter verify-release gate and never attempted to publish: " ++
            ", ".intercalate blocked ++ ". " ++ ranContext ++
            " The post-publish content check did not clear before these one-way-door " ++
            "publishers could run; inspect the verify-release stage log and re-run once the " ++
            "underlying issue is fixed.")
        else .ok ()

namespace PublishReport

variable {report : PublishReport}

/-- The gate is closed exactly when some row, of whatever group, closes it. -/
theorem submitterGateClosed_iff :
    report.submitterGateClosed ↔ ∃ r ∈ report.results, r.closesGate := by
  simp only [submitterGateClosed, anyFailed, PublisherResult.closesGate, Bool.or_eq_true,
    List.any_eq_true, Bool.and_eq_true, decide_eq_true_eq, Bool.not_true, Bool.false_eq_true,
    false_or]
  constructor
  · rintro ((⟨r, hr, ⟨_, hq⟩, hf⟩ | ⟨r, hr, ⟨_, hq⟩, hf⟩) | ⟨r, hr, ⟨_, hq⟩, hf⟩) <;>
      exact ⟨r, hr, hq, hf⟩
  · rintro ⟨r, hr, hq, hf⟩
    cases hg : r.group with
    | assets => exact .inl (.inl ⟨r, hr, ⟨hg, hq⟩, hf⟩)
    | manager => exact .inl (.inr ⟨r, hr, ⟨hg, hq⟩, hf⟩)
    | submitter => exact .inr ⟨r, hr, ⟨hg, hq⟩, hf⟩

theorem submitterGateClosed_eq_false_iff :
    report.submitterGateClosed = false ↔ ∀ r ∈ report.results, r.closesGate = false := by
  rw [← Bool.not_eq_true, submitterGateClosed_iff]
  simp only [not_exists, not_and, Bool.not_eq_true]

/-- In a real run the exit gate passes exactly when no row stops it. -/
theorem gateRequiredFailures_eq_ok_iff {options : ContextOptions} {ranContext : String}
    (hs : options.snapshot = false) (hd : options.dryRun = false) :
    gateRequiredFailures options (some report) ranContext = .ok () ↔
      ∀ r ∈ report.results, r.stopsExit = false := by
  have hsplit : (∀ r ∈ report.results, r.stopsExit = false) ↔
      report.requiredFailureNames.isEmpty ∧ report.requiredGateBlockedNames.isEmpty := by
    simp only [requiredFailureNames, requiredGateBlockedNames, PublisherResult.stopsExit,
      List.isEmpty_map, List.isEmpty_iff, List.filter_eq_nil_iff, Bool.not_eq_true,
      ← forall₂_and]
    refine forall₂_congr fun r _ => ?_
    rw [Bool.and_or_distrib_left, Bool.or_eq_false_iff]
  rw [hsplit]
  simp only [gateRequiredFailures, hs, hd, Bool.or_self, Bool.false_eq_true, if_false,
    Bool.not_eq_true']
  by_cases hf : report.requiredFailureNames.isEmpty
  · by_cases hb : report.requiredGateBlockedNames.isEmpty <;> simp [hf, hb]
  · simp [hf]

end PublishReport

end Anodizer
