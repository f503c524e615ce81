import Anodizer.Publish.Gate

/-! # The exit gate

When the exit gate passes, what happened to the required publishers. The gate
reads the rows that exist, so the answer turns on which publishers the dispatch
loop never reached.
-/

namespace Anodizer

open Loop

variable {ω : Type} {env : Env ω} {opts : DispatchOptions} {publishers : List (Publisher ω)}
  {ctx : Context ω} {p : Publisher ω} {s : Dispatching ω}

/-- The row a pass over the publisher appends. -/
def Publisher.passRow (env : Env ω) (opts : DispatchOptions) (p : Publisher ω)
    (s : Dispatching ω) : PublisherResult :=
  if p.gated opts s.report then p.row (.skipped .submitterGated) else (p.settle env opts s).1

/-- The loop comes to `p` in the state `s`, after the publishers `pre`. -/
abbrev Reached (env : Env ω) (publishers : List (Publisher ω)) (ctx : Context ω)
    (pre : List (Publisher ω)) (p : Publisher ω) (s : Dispatching ω) : Prop :=
  Reaches (dispatchOne env env.dispatchOptions) (dispatchOrder publishers) (seeded ctx []) pre p s

/-- The report the publish stage leaves. -/
abbrev publishedReport (env : Env ω) (publishers : List (Publisher ω)) (ctx : Context ω) :
    PublishReport :=
  (dispatch env env.dispatchOptions publishers ctx []).report

theorem passRow_ownedBy (env : Env ω) (opts : DispatchOptions) (p : Publisher ω)
    (s : Dispatching ω) : (p.passRow env opts s).OwnedBy p := by
  unfold Publisher.passRow
  split
  · exact Publisher.row_ownedBy
  · exact (settle_spec env opts p s).1

theorem exit_dispatchOne (env : Env ω) (opts : DispatchOptions) (p : Publisher ω)
    (s : Dispatching ω) : (dispatchOne env opts p s).exit.report.results =
      s.report.results ++ [p.passRow env opts s] := by
  cases h : p.gated opts s.report with
  | true =>
    obtain ⟨t, ht, hr, _⟩ := dispatchOne_of_gated env h
    simp [ht, hr, Publisher.passRow, h]
  | false =>
    have hr := (settle_spec env opts p s).2.1
    rw [dispatchOne_of_open h]
    simp only
    split <;> simp [hr, Publisher.passRow, h]

theorem dispatchOne_eq_stop_iff : (∃ t, dispatchOne env opts p s = .stop t) ↔
    opts.failFast ∧ (p.passRow env opts s).outcome.isFailed := by
  cases h : p.gated opts s.report with
  | true =>
    obtain ⟨t, ht, _⟩ := dispatchOne_of_gated env h
    simp [ht, Publisher.passRow, h, Publisher.row]
  | false =>
    rw [dispatchOne_of_open h]
    simp only [Publisher.passRow, h, Bool.false_eq_true, if_false]
    rw [and_comm, ← Bool.and_eq_true]
    split <;> rename_i hf
    · simp [hf]
    · simp [hf]

/-- The pass over a reached publisher is in the report, and so is everything before it. -/
theorem pass_prefix {pre : List (Publisher ω)} (hr : Reached env publishers ctx pre p s) :
    s.report.results ++ [p.passRow env env.dispatchOptions s] <+:
      (publishedReport env publishers ctx).results := by
  obtain ⟨post, hpost, hrun⟩ := hr
  have hx := exit_dispatchOne env env.dispatchOptions p s
  rw [publishedReport, dispatch_eq, hpost, run_append_next hrun]
  cases hb : dispatchOne env env.dispatchOptions p s with
  | next t =>
    rw [hb] at hx
    rw [run_cons_next hb, ← hx]
    exact (run_extends post t).1
  | stop t =>
    rw [hb] at hx
    rw [run_cons_stop hb, ← hx]

/-- Every publisher is reached, unless fail-fast left the loop at an earlier one. -/
theorem reached_or_stopped {i : ℕ} (hi : (dispatchOrder publishers)[i]? = some p) :
    (∃ pre s, pre.length = i ∧ Reached env publishers ctx pre p s) ∨
      ∃ pre b s t, pre.length < i ∧ Reached env publishers ctx pre b s ∧
        dispatchOne env env.dispatchOptions b s = .stop t :=
  reaches_or_left hi

/-- The row of a reached publisher stands at its own place in the report. -/
theorem getElem_of_reached {pre : List (Publisher ω)}
    (hr : Reached env publishers ctx pre p s) :
    (publishedReport env publishers ctx).results[
        (seeded ctx []).report.results.length + pre.length]? =
      some (p.passRow env env.dispatchOptions s) := by
  have hl := rowsOf_length (rowsOf_reached hr.choose_spec.2)
  obtain ⟨rest, h⟩ := pass_prefix hr
  rw [← h, ← hl, List.append_assoc, List.getElem?_append_right le_rfl]
  simp

/-- When the exit gate passes, every required publisher of the list has its row in the report,
and that row is no failure and no gate. -/
def NoSilentPartialRelease (env : Env ω) (publishers : List (Publisher ω)) (ctx : Context ω)
    (ranContext : String) : Prop :=
  gateRequiredFailures env.options (runWithPublishers env publishers ctx).publishReport ranContext =
    .ok () →
  ∀ i p, (dispatchOrder publishers)[i]? = some p → p.required →
    ∃ row, (publishedReport env publishers ctx).results[
        (seeded ctx []).report.results.length + i]? = some row ∧
      row.OwnedBy p ∧ row.outcome.isFailed = false ∧
      row.outcome ≠ .skipped .submitterGated ∧ row.outcome ≠ .skipped .verifyGateBlocked

/-- Fail-fast leaves the loop over an optional failure while nothing required has failed or been
blocked, and a required publisher is still to come. -/
def SilentStop (env : Env ω) (publishers : List (Publisher ω)) (ctx : Context ω) : Prop :=
  env.options.failFast ∧ ∃ pre p post s, dispatchOrder publishers = pre ++ p :: post ∧
    run (dispatchOne env env.dispatchOptions) pre (seeded ctx []) = .next s ∧
    (∀ r ∈ s.report.results, r.stopsExit = false) ∧
    p.required = false ∧ (p.settle env env.dispatchOptions s).1.outcome.isFailed ∧
    ∃ q ∈ post, q.required

/-- A required publisher that did run recorded the dispatch's own skip reason as its outcome. -/
def SelfGated (env : Env ω) (publishers : List (Publisher ω)) (ctx : Context ω) : Prop :=
  ∃ pre p s, Reached env publishers ctx pre p s ∧ p.required ∧
    p.gated env.dispatchOptions s.report = false ∧
    (p.settle env env.dispatchOptions s).1.outcome = .skipped .submitterGated

theorem gated_of_quiet (opts : DispatchOptions) (p : Publisher ω)
    (h : ∀ r ∈ s.report.results, r.stopsExit = false) :
    p.gated opts s.report = false := by
  have hc : s.report.submitterGateClosed = false :=
    PublishReport.submitterGateClosed_eq_false_iff.mpr fun r hr => eq_false_of_ne_true fun hc =>
      Bool.false_ne_true ((h r hr).symm.trans (PublisherResult.stopsExit_of_closesGate hc))
  simp [Publisher.gated, hc]

theorem exitPasses_iff (publishers : List (Publisher ω)) (ctx : Context ω) (ranContext : String)
    (hs : env.options.snapshot = false) (hd : env.options.dryRun = false) :
    gateRequiredFailures env.options (runWithPublishers env publishers ctx).publishReport
        ranContext = .ok () ↔
      ∀ r ∈ (publishedReport env publishers ctx).results, r.stopsExit = false :=
  PublishReport.gateRequiredFailures_eq_ok_iff hs hd

/-- A required row that lets the exit gate pass has neither failed nor been blocked. -/
theorem quiet_outcome {r : PublisherResult} (hq : r.required) (hr : r.stopsExit = false) :
    r.outcome.isFailed = false ∧ r.outcome ≠ .skipped .verifyGateBlocked := by
  simp only [PublisherResult.stopsExit, hq, Bool.true_and, Bool.or_eq_false_iff,
    decide_eq_false_iff_not] at hr
  refine ⟨eq_false_of_ne_true fun hf => ?_, hr.2⟩
  simp [PublisherOutcome.isRequiredReleaseFailure_of_isFailed hf] at hr

/-- After a silent stop the exit gate passes and a required publisher has no row. -/
theorem not_noSilentPartialRelease_of_silentStop (hs : env.options.snapshot = false)
    (hd : env.options.dryRun = false) (ranContext : String)
    (h : SilentStop env publishers ctx) :
    ¬ NoSilentPartialRelease env publishers ctx ranContext := by
  obtain ⟨hff, pre, p, post, s, hpost, hrun, hquiet, hp, hfail, q, hq, hreq⟩ := h
  have hgate := gated_of_quiet env.dispatchOptions p hquiet
  have hrow : p.passRow env env.dispatchOptions s = (p.settle env env.dispatchOptions s).1 := by
    simp [Publisher.passRow, hgate]
  obtain ⟨t, ht⟩ := dispatchOne_eq_stop_iff.mpr ⟨hff, hrow ▸ hfail⟩
  have hx := exit_dispatchOne env env.dispatchOptions p s
  have hfinal : (publishedReport env publishers ctx).results =
      s.report.results ++ [p.passRow env env.dispatchOptions s] := by
    rw [publishedReport, dispatch_eq, hpost, run_append_next hrun, run_cons_stop ht, ← hx, ht]
  have hrows : ∀ r ∈ (publishedReport env publishers ctx).results, r.stopsExit = false := by
    intro r hr
    rw [hfinal, List.mem_append, List.mem_singleton] at hr
    rcases hr with hr | rfl
    · exact hquiet r hr
    · simp [PublisherResult.stopsExit, (passRow_ownedBy env env.dispatchOptions p s).required, hp]
  have hpass := (exitPasses_iff publishers ctx ranContext hs hd).mpr hrows
  intro hno
  obtain ⟨j, hj⟩ := List.mem_iff_getElem?.mp hq
  obtain ⟨row, hget, _⟩ := hno hpass (pre.length + 1 + j) q (by simp [hpost, Nat.add_assoc, hj,
    List.getElem?_append_right, Nat.add_comm 1]) hreq
  have hlen := (List.getElem?_eq_some_iff.mp hget).1
  rw [hfinal, List.length_append, rowsOf_length (rowsOf_reached hrun), List.length_singleton] at hlen
  omega

/-- The row of a reached required publisher, when the exit gate passes. -/
theorem passRow_of_quiet (hself : ¬ SelfGated env publishers ctx)
    (hquiet : ∀ r ∈ (publishedReport env publishers ctx).results, r.stopsExit = false)
    {pre : List (Publisher ω)} (hr : Reached env publishers ctx pre p s) (hreq : p.required) :
    let row := p.passRow env env.dispatchOptions s
    row.OwnedBy p ∧ row.outcome.isFailed = false ∧
      row.outcome ≠ .skipped .submitterGated ∧ row.outcome ≠ .skipped .verifyGateBlocked := by
  have hpre := pass_prefix hr
  have hown := passRow_ownedBy env env.dispatchOptions p s
  obtain ⟨hfail, hblock⟩ := quiet_outcome (hown.required.trans hreq)
    (hquiet _ (hpre.subset (List.mem_append_right _ (List.mem_singleton_self _))))
  have hgate := gated_of_quiet env.dispatchOptions p
    fun r hm => hquiet r (hpre.subset (List.mem_append_left _ hm))
  refine ⟨hown, hfail, fun hg => hself ⟨pre, p, s, hr, hreq, hgate, ?_⟩, hblock⟩
  simpa [Publisher.passRow, hgate] using hg

/-- In a real run the exit gate is a sound answer exactly when fail-fast makes no silent stop,
and, where it passes, no required publisher records the dispatch's own skip reason. -/
theorem noSilentPartialRelease_iff (env : Env ω) (publishers : List (Publisher ω))
    (ctx : Context ω) (ranContext : String) (hs : env.options.snapshot = false)
    (hd : env.options.dryRun = false) :
    NoSilentPartialRelease env publishers ctx ranContext ↔
      ¬ SilentStop env publishers ctx ∧
        (gateRequiredFailures env.options (runWithPublishers env publishers ctx).publishReport
          ranContext = .ok () → ¬ SelfGated env publishers ctx) := by
  constructor
  · intro hno
    refine ⟨fun h => not_noSilentPartialRelease_of_silentStop hs hd ranContext h hno, ?_⟩
    rintro hpass ⟨pre, p, s, hr, hreq, hgate, hout⟩
    obtain ⟨post, hpost, _⟩ := id hr
    obtain ⟨row, hget, _, _, hne, _⟩ := hno hpass pre.length p (by simp [hpost]) hreq
    rw [getElem_of_reached hr, Option.some_inj] at hget
    exact hne (by simpa [← hget, Publisher.passRow, hgate] using hout)
  · rintro ⟨hstop, hself⟩ hpass i p hi hreq
    have hquiet := (exitPasses_iff publishers ctx ranContext hs hd).mp hpass
    rcases reached_or_stopped hi with ⟨pre, s, rfl, hr⟩ | ⟨pre, b, s, t, hlt, hr, hb⟩
    · exact ⟨_, getElem_of_reached hr, passRow_of_quiet (hself hpass) hquiet hr hreq⟩
    · refine absurd ?_ hstop
      have hpre := pass_prefix hr
      obtain ⟨post, hpost, hrun⟩ := hr
      obtain ⟨hff, hfail⟩ := dispatchOne_eq_stop_iff.mp ⟨t, hb⟩
      have hrows := fun r hm => hquiet r (hpre.subset (List.mem_append_left _ hm))
      have hgate := gated_of_quiet env.dispatchOptions b hrows
      have hrow := hquiet _ (hpre.subset (List.mem_append_right _ (List.mem_singleton_self _)))
      have hreqb : b.required = false := by
        refine eq_false_of_ne_true fun hq => ?_
        have hown := passRow_ownedBy env env.dispatchOptions b s
        simp [(quiet_outcome (hown.required.trans hq) hrow).1] at hfail
      refine ⟨hff, pre, b, post, s, hpost, hrun, hrows, hreqb, ?_, p, ?_, hreq⟩
      · simpa [Publisher.passRow, hgate] using hfail
      · rw [hpost, List.getElem?_append_right hlt.le] at hi
        obtain ⟨j, hj⟩ : ∃ j, i - pre.length = j + 1 := ⟨i - pre.length - 1, by omega⟩
        rw [hj, List.getElem?_cons_succ] at hi
        exact List.mem_of_getElem? hi

namespace Demo

/-- The same release under `--fail-fast`. -/
def failFast : Env Unit := { release with options := { failFast := true } }

/-- An optional assets publisher whose upload fails. -/
def dockerhub : Publisher Unit := publisher "dockerhub" .assets false (.error "HTTP 500")

end Demo

theorem noSilentPartialRelease_iff_demo :
    NoSilentPartialRelease Demo.release [Demo.dockerhub, Demo.cargo] { world := () } "" ↔
      ¬ SilentStop Demo.release [Demo.dockerhub, Demo.cargo] { world := () } ∧
        (gateRequiredFailures Demo.release.options (runWithPublishers Demo.release
          [Demo.dockerhub, Demo.cargo] { world := () }).publishReport "" = .ok () →
          ¬ SelfGated Demo.release [Demo.dockerhub, Demo.cargo] { world := () }) :=
  noSilentPartialRelease_iff Demo.release [Demo.dockerhub, Demo.cargo] { world := () } "" rfl rfl

/-- Under fail-fast an optional failure ends the run before the required crates.io publish, and
the exit gate still passes. -/
theorem failFast_silent_stop :
    ¬ NoSilentPartialRelease Demo.failFast [Demo.dockerhub, Demo.cargo] { world := () } "" :=
  not_noSilentPartialRelease_of_silentStop rfl rfl ""
    ⟨rfl, [], Demo.dockerhub, [Demo.cargo], _, rfl, rfl, by simp [seeded], rfl, rfl, Demo.cargo,
      List.mem_singleton_self _, rfl⟩

end Anodizer
