import Anodizer.Lib.Loop
import Anodizer.Lib.OneWayDoor
import Anodizer.Publish.Report
import Mathlib.Data.List.Forall2

/-! # Publisher dispatch

The dispatch loop over the registered publishers. Publishers, the verify-release
gate and the disk are arbitrary functions of the context; the loop also keeps the
list of the calls it made, each with the report rows present at that moment.
-/

namespace Anodizer

open Loop

/-- What is known upstream about a publisher's version before it runs. -/
inductive ReconcileState
  | absent
  | complete (note : String)
  | diverged (detail : String)
  | unknown (reason : String)
  deriving DecidableEq, Repr

structure Artifact where
  name : String
  checksum : Option String
  deriving DecidableEq, Repr

/-- An intentional skip a stage or a publisher recorded. -/
structure SkipEvent where
  stage : String
  reason : String
  deriving DecidableEq, Repr

/-- The mutable state of a release; `world` is everything the dispatch itself never reads. -/
structure Context (ω : Type) where
  world : ω
  tag : Option String := none
  artifacts : List Artifact := []
  skipMemento : List SkipEvent := []
  pendingOutcome : Option PublisherOutcome := none
  pendingEvidence : Option PublishEvidence := none
  publishReport : Option PublishReport := none

/-- A registered publisher. `run` and `reconcile` may change the context in any way. -/
structure Publisher (ω : Type) where
  name : String
  group : PublisherGroup
  required : Bool
  skipsOnNightly : Bool
  configFullyInactive : Context ω → Bool
  reconcile : Context ω → Except String ReconcileState × Context ω
  run : Context ω → Except String PublishEvidence × Context ω

/-- One row of a run summary read back from disk. -/
structure SummaryResult where
  name : String
  status : String
  evidence : Option PublishEvidence
  deriving DecidableEq, Repr

/-- A `summary.json` that parsed, with the `rollback.json` found beside it. -/
structure RunSummaryFile where
  path : String
  tag : String
  results : List SummaryResult
  rollback : Option PublishReport
  deriving DecidableEq, Repr

/-- What surrounds the dispatch: the options, the installed verify gate and the disk. -/
structure Env (ω : Type) where
  options : ContextOptions
  verifyGate : Option (Context ω → Except String Bool × Context ω)
  runSummaries : Context ω → List RunSummaryFile
  persistSummarySnapshot : Context ω → PublishReport → ω

structure DispatchOptions where
  failFast : Bool := false
  gateSubmitter : Bool := true
  persistSnapshots : Bool := false
  deriving DecidableEq, Repr

namespace ContextOptions

def shouldSkip (options : ContextOptions) (name : String) : Bool :=
  options.skipStages.any (· == name)

def publisherDeselected (options : ContextOptions) (name : String) : Bool :=
  options.shouldSkip name ||
    (!options.publisherAllowlist.isEmpty && !options.publisherAllowlist.any (· == name))

end ContextOptions

/-- The publisher vocabulary; a stage with one of these names is its own publisher. -/
def publisherTokens : List String :=
  ["cargo", "dockerhub", "artifactory", "uploads", "cloudsmith", "github-release", "homebrew",
   "scoop", "nix", "mcp", "aur", "krew", "schemastore", "npm", "gemfury", "pypi",
   "homebrew-core", "chocolatey", "winget", "upstream-aur", "blob", "snapcraft-publish",
   "docker", "docker-sign", "announce"]

def skipLabelBelongsTo (stage publisher : String) : Bool :=
  stage == publisher ||
    (stage.startsWith (publisher ++ "-") && !publisherTokens.contains stage)

def entrySkipReasons {ω : Type} (ctx : Context ω) (publisher : String) : List String :=
  (ctx.skipMemento.filter fun e => skipLabelBelongsTo e.stage publisher).map (·.reason)

/-- Insertion into the ordered digest map: a later digest of a name replaces the earlier one. -/
def insertDigest (name digest : String) : List (String × String) → List (String × String)
  | [] => [(name, digest)]
  | (n, d) :: rest =>
    if name < n then (name, digest) :: (n, d) :: rest
    else if name = n then (name, digest) :: rest
    else (n, d) :: insertDigest name digest rest

/-- The content hash of every artifact that has one, by artifact name. -/
def snapshotArtifactDigests {ω : Type} (ctx : Context ω) : List (String × String) :=
  ctx.artifacts.foldl (fun digests a =>
    match a.checksum with
    | some d => insertDigest a.name d digests
    | none => digests) []

/-- Whether the rollback record beside a summary withdraws the publisher. -/
def withdrawnBeside (rollback : Option PublishReport) (publisher : String) : Bool :=
  match rollback with
  | none => false
  | some report =>
    (report.results ++ report.carriedForward).any fun r =>
      r.name == publisher &&
        match r.outcome with
        | .rolledBack | .rollbackFailed _ | .rollbackSkippedNoScope => true
        | _ => false

/-- Whether a summary row proves the publisher complete for the current digests. -/
def SummaryResult.provesComplete (result : SummaryResult) (publisher : String)
    (current : List (String × String)) : Bool :=
  result.name == publisher &&
    (result.status == "succeeded" || result.status.startsWith "pending-") &&
    match result.evidence with
    | none => false
    | some evidence => !evidence.artifactDigests.isEmpty &&
        evidence.artifactDigests.all fun (name, digest) => current.lookup name == some digest

/-- The reconcile answer a prior summary of the same tag gives without a network probe. -/
def ledgerFastPath {ω : Type} (env : Env ω) (ctx : Context ω) (publisher : String)
    (current : List (String × String)) : Option ReconcileState :=
  (env.runSummaries ctx).findSome? fun summary =>
    if summary.tag != ctx.tag.getD "" then none
    else if withdrawnBeside summary.rollback publisher then none
    else (summary.results.find? (·.provesComplete publisher current)).map fun result =>
      .complete ("ledger: " ++ summary.path ++ " (" ++ result.status ++ ")")

def groupDispatchOrder : List PublisherGroup := [.assets, .manager, .submitter]

/-- The publisher a call was made on. -/
structure Door where
  name : String
  group : PublisherGroup
  deriving DecidableEq, Repr

/-- A `reconcile`, a `run` or a gate call, with the rows the report then held. -/
abbrev Invocation := OneWayDoor.Call Door PublisherResult

/-- What a report goes through: the context, the report and the calls made so far. -/
structure Dispatching (ω : Type) where
  ctx : Context ω
  report : PublishReport
  calls : List Invocation := []

variable {ω : Type}

/-- An `Err` blocks like an `Ok(false)`. -/
def gatePassed {ε : Type} : Except ε Bool → Bool
  | .ok b => b
  | .error _ => false

/-- Run the pre-submitter gate once per report and keep its answer on the report. -/
def ensureVerifyGateEvaluated (env : Env ω) (s : Dispatching ω) : Dispatching ω :=
  if s.report.verifyGateEvaluated then s
  else
    let report := { s.report with verifyGateEvaluated := true }
    match env.verifyGate with
    | none => { s with report }
    | some gate =>
      let (answer, ctx) := gate s.ctx
      { ctx
        report := if gatePassed answer then report else { report with verifyGateBlocked := true }
        calls := s.calls ++ [.check (gatePassed answer)] }

/-- The best-effort summary write after each row. -/
def persistSnapshot (env : Env ω) (opts : DispatchOptions) (s : Dispatching ω) : Dispatching ω :=
  if opts.persistSnapshots then
    { s with ctx := { s.ctx with world := env.persistSummarySnapshot s.ctx s.report } }
  else s

namespace Publisher

variable (p : Publisher ω)

/-- The publisher's row with an outcome and nothing recorded. -/
def row (outcome : PublisherOutcome) : PublisherResult where
  name := p.name
  group := p.group
  required := p.required
  outcome := outcome
  evidence := none
  entrySkips := []

def door : Door := ⟨p.name, p.group⟩

/-- The one-way-door gate covers the manager and the submitter group. -/
def oneWayDoor : Bool :=
  match p.group with
  | .manager | .submitter => true
  | .assets => false

def simulated (env : Env ω) : Bool :=
  env.options.simulateFailurePublishers.any (· == p.name)

/-- The skips decided without a probe, in the order the loop asks for them. -/
def staticSkip (env : Env ω) (ctx : Context ω) : Option SkipReason :=
  if env.options.publisherDeselected p.name then some .deselected
  else if p.configFullyInactive ctx then some .configSkipped
  else if env.options.nightly && p.skipsOnNightly then some .nightly
  else none

/-- The reconcile consult: the ledger first, then the publisher's own probe. -/
def consult (env : Env ω) (s : Dispatching ω) : Except String ReconcileState × Dispatching ω :=
  if p.simulated env || env.options.dryRun then (.ok .absent, s)
  else match ledgerFastPath env s.ctx p.name (snapshotArtifactDigests s.ctx) with
    | some state => (.ok state, s)
    | none =>
      let (state, ctx) := p.reconcile s.ctx
      (state, { s with ctx, calls := s.calls ++ [.probe p.door s.report.results] })

/-- Invoke `run` and turn what it returned and recorded into an outcome. -/
def attempt (env : Env ω) (s : Dispatching ω) :
    PublisherOutcome × Option PublishEvidence × Dispatching ω :=
  if p.simulated env then (.failed ("simulated failure: " ++ p.name), none, s)
  else
    let calls := s.calls ++ [.run p.door s.report.results]
    match p.run { s.ctx with pendingOutcome := none, pendingEvidence := none } with
    | (.ok evidence, ctx) =>
      let outcome := ctx.pendingOutcome.getD .succeeded
      let ctx := { ctx with pendingOutcome := none, pendingEvidence := none }
      let evidence := { evidence with artifactDigests := snapshotArtifactDigests ctx }
      (outcome, some evidence, { s with ctx, calls })
    | (.error msg, ctx) =>
      let evidence := ctx.pendingEvidence
      (.failed msg, evidence, { s with ctx := { ctx with pendingEvidence := none }, calls })

end Publisher

namespace Dispatching

/-- Append a row and write the snapshot. -/
def push (s : Dispatching ω) (env : Env ω) (opts : DispatchOptions) (row : PublisherResult) :
    Dispatching ω :=
  persistSnapshot env opts
    { s with report := { s.report with results := s.report.results ++ [row] } }

end Dispatching

/-- The verify gate in front of a submitter that survived every skip. -/
def evaluateVerifyGate (env : Env ω) (opts : DispatchOptions) (p : Publisher ω)
    (s : Dispatching ω) : Dispatching ω :=
  if p.group = .submitter ∧ opts.gateSubmitter then
    persistSnapshot env opts (ensureVerifyGateEvaluated env s)
  else s

namespace Publisher

variable (p : Publisher ω)

/-- From the verify gate on: the block, or the row `run` earns. -/
def publish (env : Env ω) (opts : DispatchOptions) (s : Dispatching ω) :
    PublisherResult × Dispatching ω :=
  let s := evaluateVerifyGate env opts p s
  if p.group = .submitter ∧ s.report.verifyGateBlocked then
    (p.row (.skipped .verifyGateBlocked), s)
  else
    let (outcome, evidence, s) := p.attempt env s
    ({ p.row outcome with evidence := evidence, entrySkips := entrySkipReasons s.ctx p.name }, s)

/-- The row of a publisher the one-way-door gate let through. -/
def settle (env : Env ω) (opts : DispatchOptions) (s : Dispatching ω) :
    PublisherResult × Dispatching ω :=
  match p.staticSkip env s.ctx with
  | some reason => (p.row (.skipped reason), s)
  | none =>
    match p.consult env s with
    | (.ok (.complete _), s) => (p.row (.skipped .alreadyPublished), s)
    | (.ok (.diverged detail), s) =>
      (p.row (.failed ("this version is already published upstream with DIFFERENT " ++
        "content — bump the version and re-release. " ++ detail)), s)
    | (.ok .absent, s) | (.ok (.unknown _), s) | (.error _, s) => p.publish env opts s

/-- The publisher is skipped behind an earlier required failure. -/
def gated (opts : DispatchOptions) (report : PublishReport) : Bool :=
  p.oneWayDoor && opts.gateSubmitter && report.submitterGateClosed

end Publisher

/-- One pass of the dispatch loop. -/
def dispatchOne (env : Env ω) (opts : DispatchOptions) (p : Publisher ω) (s : Dispatching ω) :
    Flow (Dispatching ω) (Dispatching ω) :=
  if p.gated opts s.report then
    .next (persistSnapshot env opts { s with report := { s.report with
      results := s.report.results ++ [p.row (.skipped .submitterGated)]
      submitterGated := true } })
  else
    let (row, s) := p.settle env opts s
    let s := s.push env opts row
    if row.outcome.isFailed && opts.failFast then .stop s else .next s

/-- The loop's first state: the report an earlier stage left is taken out of the context. -/
def seeded (ctx : Context ω) (calls : List Invocation) : Dispatching ω where
  ctx := { ctx with publishReport := none }
  report := ctx.publishReport.getD {}
  calls := calls

/-- Dispatch the publishers group by group. -/
def dispatch (env : Env ω) (opts : DispatchOptions) (publishers : List (Publisher ω))
    (ctx : Context ω) (calls : List Invocation) : Dispatching ω :=
  -- Leaving the inner loop leaves the outer one: the source's `break 'outer`.
  (run (fun group s => run (dispatchOne env opts) (publishers.filter (·.group = group)) s)
    groupDispatchOrder (seeded ctx calls)).exit

/-- The options the publish stage dispatches under. -/
def Env.dispatchOptions (env : Env ω) : DispatchOptions where
  failFast := env.options.failFast
  gateSubmitter := env.options.gateSubmitter.getD true
  persistSnapshots := true

/-- The publish stage: dispatch, then store the report. -/
def runWithPublishers (env : Env ω) (publishers : List (Publisher ω)) (ctx : Context ω) :
    Context ω :=
  let s := dispatch env env.dispatchOptions publishers ctx []
  { s.ctx with publishReport := some s.report }

/-- The publishers in the order the loop visits them. -/
def dispatchOrder (publishers : List (Publisher ω)) : List (Publisher ω) :=
  groupDispatchOrder.flatMap fun group => publishers.filter (·.group = group)

variable {env : Env ω} {opts : DispatchOptions} {publishers : List (Publisher ω)}
  {ctx : Context ω} {calls : List Invocation} {p : Publisher ω} {s : Dispatching ω}

theorem dispatch_eq : dispatch env opts publishers ctx calls =
    (run (dispatchOne env opts) (dispatchOrder publishers) (seeded ctx calls)).exit :=
  congrArg Flow.exit run_nested

/-- Every registered publisher is visited once. -/
theorem dispatchOrder_perm : (dispatchOrder publishers).Perm publishers := by
  induction publishers with
  | nil => exact .refl _
  | cons p ps ih =>
    simp only [dispatchOrder, groupDispatchOrder, List.flatMap_cons, List.flatMap_nil,
      List.append_nil, List.filter_cons] at ih ⊢
    cases hg : p.group <;> simp only [reduceCtorEq, decide_true, decide_false, if_true,
      Bool.false_eq_true, if_false, List.cons_append]
    · exact ih.cons p
    · exact List.perm_middle.trans (ih.cons p)
    · rw [← List.append_assoc] at ih ⊢
      exact List.perm_middle.trans (ih.cons p)

@[simp] theorem report_persistSnapshot : (persistSnapshot env opts s).report = s.report := by
  unfold persistSnapshot; split <;> rfl

@[simp] theorem calls_persistSnapshot : (persistSnapshot env opts s).calls = s.calls := by
  unfold persistSnapshot; split <;> rfl

@[simp] theorem report_push {row : PublisherResult} :
    (s.push env opts row).report = { s.report with results := s.report.results ++ [row] } := by
  simp [Dispatching.push]

@[simp] theorem calls_push {row : PublisherResult} : (s.push env opts row).calls = s.calls := by
  simp [Dispatching.push]

/-- The gate was evaluated before, or is not installed, or is asked now. -/
theorem ensureVerifyGateEvaluated_cases (env : Env ω) (s : Dispatching ω) :
    (s.report.verifyGateEvaluated ∧ ensureVerifyGateEvaluated env s = s) ∨
    (env.verifyGate = none ∧ ensureVerifyGateEvaluated env s =
      { s with report := { s.report with verifyGateEvaluated := true } }) ∨
    (∃ ctx passed, env.verifyGate.isSome ∧ s.report.verifyGateEvaluated = false ∧
      ensureVerifyGateEvaluated env s =
        { ctx
          report := { s.report with
            verifyGateEvaluated := true
            verifyGateBlocked := s.report.verifyGateBlocked || !passed }
          calls := s.calls ++ [.check passed] }) := by
  by_cases he : s.report.verifyGateEvaluated
  · exact .inl ⟨he, if_pos he⟩
  · cases hg : env.verifyGate with
    | none => exact .inr (.inl ⟨rfl, by simp [ensureVerifyGateEvaluated, he, hg]⟩)
    | some gate =>
      cases hr : gate s.ctx with
      | mk answer ctx =>
        refine .inr (.inr ⟨ctx, gatePassed answer, rfl, eq_false_of_ne_true he, ?_⟩)
        rw [ensureVerifyGateEvaluated, if_neg he]
        rcases answer with _ | _ | _ <;> simp [hg, hr, gatePassed]

/-- The rows and the gated flag, which only a finished pass changes. -/
def PublishReport.SameRows (r r' : PublishReport) : Prop :=
  r'.results = r.results ∧ r'.submitterGated = r.submitterGated

theorem sameRows_evaluateVerifyGate (env : Env ω) (opts : DispatchOptions) (p : Publisher ω)
    (s : Dispatching ω) : s.report.SameRows (evaluateVerifyGate env opts p s).report := by
  unfold evaluateVerifyGate
  split
  · rw [report_persistSnapshot]
    obtain ⟨_, h⟩ | ⟨_, h⟩ | ⟨_, _, _, _, h⟩ := ensureVerifyGateEvaluated_cases env s <;> rw [h] <;>
      exact ⟨rfl, rfl⟩
  · exact ⟨rfl, rfl⟩

@[simp] theorem report_consult (env : Env ω) (p : Publisher ω) (s : Dispatching ω) :
    (p.consult env s).2.report = s.report := by
  unfold Publisher.consult
  split
  · rfl
  · split <;> rfl

@[simp] theorem report_attempt (env : Env ω) (p : Publisher ω) (s : Dispatching ω) :
    (p.attempt env s).2.2.report = s.report := by
  unfold Publisher.attempt
  split
  · rfl
  · simp only
    split <;> rfl

/-- The row carries the identity of the publisher. -/
structure PublisherResult.OwnedBy (row : PublisherResult) (p : Publisher ω) : Prop where
  name : row.name = p.name
  group : row.group = p.group
  required : row.required = p.required

theorem Publisher.row_ownedBy {outcome : PublisherOutcome} : (p.row outcome).OwnedBy p :=
  ⟨rfl, rfl, rfl⟩

theorem publish_spec : (p.publish env opts s).1.OwnedBy p ∧
    s.report.SameRows (p.publish env opts s).2.report := by
  have hv := sameRows_evaluateVerifyGate env opts p s
  simp only [Publisher.publish]
  split
  · exact ⟨Publisher.row_ownedBy, hv⟩
  · exact ⟨⟨rfl, rfl, rfl⟩, by rw [report_attempt]; exact hv⟩

/-- Settling a publisher yields its own row and leaves the rows present alone. -/
theorem settle_spec (env : Env ω) (opts : DispatchOptions) (p : Publisher ω)
    (s : Dispatching ω) : (p.settle env opts s).1.OwnedBy p ∧
      s.report.SameRows (p.settle env opts s).2.report := by
  unfold Publisher.settle
  split
  · exact ⟨Publisher.row_ownedBy, rfl, rfl⟩
  · have hr := report_consult env p s
    split <;> rename_i he <;> rw [he] at hr
    · exact ⟨Publisher.row_ownedBy, by rw [hr]; exact ⟨rfl, rfl⟩⟩
    · exact ⟨Publisher.row_ownedBy, by rw [hr]; exact ⟨rfl, rfl⟩⟩
    all_goals
      rw [← hr]
      exact publish_spec

theorem dispatchOne_of_gated (env : Env ω) (h : p.gated opts s.report) :
    ∃ t, dispatchOne env opts p s = .next t ∧ t.report = { s.report with
      results := s.report.results ++ [p.row (.skipped .submitterGated)]
      submitterGated := true } ∧ t.calls = s.calls := by
  rw [dispatchOne, if_pos h]
  exact ⟨_, rfl, report_persistSnapshot, calls_persistSnapshot⟩

theorem dispatchOne_of_open (h : p.gated opts s.report = false) : dispatchOne env opts p s =
    let t := (p.settle env opts s).2.push env opts (p.settle env opts s).1
    if (p.settle env opts s).1.outcome.isFailed && opts.failFast then .stop t else .next t := by
  rw [dispatchOne, h]
  rfl

/-- Every pass appends one row, owned by its publisher, and never lifts the gated flag. -/
theorem dispatchOne_row (env : Env ω) (opts : DispatchOptions) (p : Publisher ω)
    (s : Dispatching ω) : (dispatchOne env opts p s).Holds
      (fun t => ∃ row : PublisherResult, row.OwnedBy p ∧
        t.report.results = s.report.results ++ [row] ∧
        (s.report.submitterGated → t.report.submitterGated))
      (fun t => ∃ row : PublisherResult, row.OwnedBy p ∧
        t.report.results = s.report.results ++ [row] ∧
        (s.report.submitterGated → t.report.submitterGated)) := by
  cases h : p.gated opts s.report with
  | true =>
    obtain ⟨t, ht, hr, _⟩ := dispatchOne_of_gated env h
    rw [ht, Flow.holds_next, hr]
    exact ⟨_, Publisher.row_ownedBy, rfl, fun _ => rfl⟩
  | false =>
    obtain ⟨ho, hr, hg⟩ := settle_spec env opts p s
    rw [dispatchOne_of_open h]
    simp only
    split <;>
      exact ⟨_, ho, by simp [hr], fun h => by simpa [hg] using h⟩

/-- A pass over reached publishers: one row each, in order, after the rows of the seed. -/
def RowsOf (seed : List PublisherResult) (ps : List (Publisher ω)) (report : PublishReport) :
    Prop :=
  ∃ rows, report.results = seed ++ rows ∧ List.Forall₂ PublisherResult.OwnedBy rows ps

theorem rowsOf_concat {seed : List PublisherResult} {ps : List (Publisher ω)}
    {r r' : PublishReport} {row : PublisherResult} (h : RowsOf seed ps r) (ho : row.OwnedBy p)
    (hr : r'.results = r.results ++ [row]) : RowsOf seed (ps ++ [p]) r' := by
  obtain ⟨rows, hs, hf⟩ := h
  refine ⟨rows ++ [row], by rw [hr, hs, List.append_assoc], ?_⟩
  exact List.rel_append hf (.cons ho .nil)

theorem rowsOf_length {seed : List PublisherResult} {ps : List (Publisher ω)}
    {r : PublishReport} (h : RowsOf seed ps r) : r.results.length = seed.length + ps.length := by
  obtain ⟨rows, hs, hf⟩ := h
  rw [hs, List.length_append, hf.length_eq]

/-- When the loop has gone through `pre`, the report holds one row for each of them. -/
theorem rowsOf_reached {pre : List (Publisher ω)} {t : Dispatching ω}
    (h : run (dispatchOne env opts) pre s = .next t) : RowsOf s.report.results pre t.report := by
  have hr : (run (dispatchOne env opts) pre s).Holds
      (fun t => RowsOf s.report.results pre t.report) fun _ => True := by
    refine run_visited (I := fun pre (t : Dispatching ω) => RowsOf s.report.results pre t.report)
      ⟨[], by simp, .nil⟩ fun pre a t _ hI => ?_
    refine (dispatchOne_row env opts a t).mono ?_ fun _ _ => trivial
    rintro t' ⟨row, ho, hr, _⟩
    exact rowsOf_concat hI ho hr
  rw [h] at hr
  exact hr

/-- From any state on, the rows present stay where they are and the gated flag stays set. -/
theorem run_extends (ps : List (Publisher ω)) (s : Dispatching ω) :
    s.report.results <+: (run (dispatchOne env opts) ps s).exit.report.results ∧
      (s.report.submitterGated →
        (run (dispatchOne env opts) ps s).exit.report.submitterGated) := by
  refine Flow.Holds.exit (P := fun t : Dispatching ω => s.report.results <+: t.report.results ∧
    (s.report.submitterGated → t.report.submitterGated)) (run_inv ⟨List.prefix_rfl, id⟩ ?_)
  rintro a - t ⟨hp, hg⟩
  have step := dispatchOne_row env opts a t
  refine step.mono ?_ ?_ <;>
  · rintro t' ⟨row, _, hr, hg'⟩
    exact ⟨hr ▸ hp.trans (List.prefix_append ..), fun h => hg' (hg h)⟩

end Anodizer
