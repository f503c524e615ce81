import Anodizer.Publish.Dispatch

/-! # The one-way-door gate

The dispatch loop, and every other stage that shares its report, only takes the
steps the one-way-door rules allow: no manager or submitter is probed or run
behind a required failure, and no submitter runs before a passed verify gate.
-/

namespace Anodizer

open Loop OneWayDoor Relation

variable {ω : Type} {env : Env ω} {opts : DispatchOptions} {p : Publisher ω} {s : Dispatching ω}

/-- The part of the state the one-way-door rules speak about. -/
def Dispatching.doors (s : Dispatching ω) : OneWayDoor.State Door PublisherResult where
  rows := s.report.results
  evaluated := s.report.verifyGateEvaluated
  blocked := s.report.verifyGateBlocked
  calls := s.calls

/-- Managers and submitters are doors; submitters also wait for the verify gate. -/
def doorPolicy (env : Env ω) : Policy Door PublisherResult where
  bad r := r.closesGate
  door d := d.group ≠ .assets
  checked d := d.group = .submitter
  installed := env.verifyGate.isSome

theorem oneWayDoor_iff : p.oneWayDoor ↔ p.group ≠ .assets := by
  unfold Publisher.oneWayDoor
  cases p.group <;> simp

theorem open_iff : s.doors.Open (doorPolicy env) ↔ s.report.submitterGateClosed = false := by
  simp only [PublishReport.submitterGateClosed_eq_false_iff, State.Open, Dispatching.doors,
    doorPolicy, Bool.not_eq_true]

@[simp] theorem doors_persistSnapshot : (persistSnapshot env opts s).doors = s.doors := by
  simp [Dispatching.doors]

theorem moves_push {row : PublisherResult} :
    Moves (doorPolicy env) s.doors (s.push env opts row).doors := by
  have h : (s.push env opts row).doors = { s.doors with rows := s.report.results ++ [row] } := by
    simp [Dispatching.doors]
  rw [h]
  exact .single (.record ..)

theorem evaluated_ensureVerifyGateEvaluated :
    (ensureVerifyGateEvaluated env s).report.verifyGateEvaluated := by
  obtain ⟨he, h⟩ | ⟨_, h⟩ | ⟨_, _, _, _, h⟩ := ensureVerifyGateEvaluated_cases env s <;> rw [h]
  exact he

theorem moves_ensureVerifyGateEvaluated :
    Moves (doorPolicy env) s.doors (ensureVerifyGateEvaluated env s).doors := by
  obtain ⟨_, h⟩ | ⟨hn, h⟩ | ⟨_, passed, hi, he, h⟩ :=
    ensureVerifyGateEvaluated_cases env s <;> rw [h]
  · exact .single (.waive s.doors (by simp [doorPolicy, hn]))
  · exact .single (.check s.doors passed hi he)

theorem moves_consult (env : Env ω)
    (h : p.group ≠ .assets → s.report.submitterGateClosed = false) :
    Moves (doorPolicy env) s.doors (p.consult env s).2.doors := by
  unfold Publisher.consult
  split
  · exact .refl
  · split
    · exact .refl
    · exact .single (.probe s.doors p.door fun hd => open_iff.mpr (h hd))

theorem moves_attempt (env : Env ω)
    (h : p.group ≠ .assets → s.report.submitterGateClosed = false)
    (hv : p.group = .submitter → s.report.verifyGateEvaluated ∧ s.report.verifyGateBlocked = false) :
    Moves (doorPolicy env) s.doors (p.attempt env s).2.2.doors := by
  unfold Publisher.attempt
  split
  · exact .refl
  · have step := Move.run (P := doorPolicy env) s.doors p.door (fun hd => open_iff.mpr (h hd)) hv
    simp only
    split <;> exact .single step

theorem moves_evaluateVerifyGate (env : Env ω) (opts : DispatchOptions) (p : Publisher ω)
    (s : Dispatching ω) :
    Moves (doorPolicy env) s.doors (evaluateVerifyGate env opts p s).doors := by
  unfold evaluateVerifyGate
  split
  · rw [doors_persistSnapshot]
    exact moves_ensureVerifyGateEvaluated
  · exact .refl

theorem evaluated_evaluateVerifyGate (hg : opts.gateSubmitter) (hp : p.group = .submitter) :
    (evaluateVerifyGate env opts p s).report.verifyGateEvaluated := by
  rw [evaluateVerifyGate, if_pos ⟨hp, hg⟩, report_persistSnapshot]
  exact evaluated_ensureVerifyGateEvaluated

theorem closed_congr {r r' : PublishReport} (h : r.SameRows r') :
    r'.submitterGateClosed = r.submitterGateClosed := by
  simp only [PublishReport.submitterGateClosed, PublishReport.anyFailed, h.1]

theorem moves_publish (hg : opts.gateSubmitter)
    (h : p.group ≠ .assets → s.report.submitterGateClosed = false) :
    Moves (doorPolicy env) s.doors (p.publish env opts s).2.doors := by
  have hv := moves_evaluateVerifyGate env opts p s
  simp only [Publisher.publish]
  split
  · exact hv
  · rename_i hb
    have hc := closed_congr (sameRows_evaluateVerifyGate env opts p s)
    exact hv.trans (moves_attempt env (fun hd => hc.trans (h hd))
      fun hs => ⟨evaluated_evaluateVerifyGate hg hs, by simpa [hs] using hb⟩)

theorem moves_settle (hg : opts.gateSubmitter)
    (h : p.group ≠ .assets → s.report.submitterGateClosed = false) :
    Moves (doorPolicy env) s.doors (p.settle env opts s).2.doors := by
  unfold Publisher.settle
  split
  · exact .refl
  · have hm := moves_consult env h
    have hr := report_consult env p s
    split <;> rename_i he <;> rw [he] at hm hr
    · exact hm
    · exact hm
    all_goals exact hm.trans (moves_publish hg fun hd => by rw [hr]; exact h hd)

/-- Every pass of the loop is a run of the one-way-door rules. -/
theorem moves_dispatchOne (hg : opts.gateSubmitter) (p : Publisher ω) (s : Dispatching ω) :
    (dispatchOne env opts p s).Holds (fun t => Moves (doorPolicy env) s.doors t.doors)
      fun t => Moves (doorPolicy env) s.doors t.doors := by
  cases h : p.gated opts s.report with
  | true =>
    rw [dispatchOne, if_pos h, Flow.holds_next, doors_persistSnapshot]
    exact .single (.record ..)
  | false =>
    have ho : p.group ≠ .assets → s.report.submitterGateClosed = false := by
      intro hd
      simpa [Publisher.gated, oneWayDoor_iff.mpr hd, hg] using h
    rw [dispatchOne_of_open h]
    simp only
    split <;> exact (moves_settle hg ho).trans moves_push

theorem moves_dispatch (env : Env ω) (hg : opts.gateSubmitter) (publishers : List (Publisher ω))
    (ctx : Context ω) (calls : List Invocation) :
    Moves (doorPolicy env) (seeded ctx calls).doors
      (dispatch env opts publishers ctx calls).doors := by
  rw [dispatch_eq]
  refine Flow.Holds.exit (P := fun t : Dispatching ω =>
    Moves (doorPolicy env) (seeded ctx calls).doors t.doors) (run_inv .refl ?_)
  rintro p - t ht
  refine (moves_dispatchOne hg p t).mono ?_ ?_ <;> exact fun t' h => ht.trans h

/-- What the stages of a release do with the report they share. -/
inductive StageAction (ω : Type)
  | dispatch (opts : DispatchOptions) (publishers : List (Publisher ω))
  | ensureVerifyGate
  | stage (body : Context ω → PublishReport → Context ω × List PublisherResult)

/-- A stage under the operator's default: every dispatch arms the gate. -/
def StageAction.armed : StageAction ω → Prop
  | .dispatch opts _ => opts.gateSubmitter
  | _ => True

/-- One stage of a release. A stage other than the dispatch appends rows of its own. -/
def performStage (env : Env ω) (s : Dispatching ω) : StageAction ω → Dispatching ω
  | .dispatch opts publishers =>
    dispatch env opts publishers { s.ctx with publishReport := some s.report } s.calls
  | .ensureVerifyGate => ensureVerifyGateEvaluated env s
  | .stage body =>
    let (ctx, rows) := body s.ctx s.report
    { s with ctx, report := { s.report with results := s.report.results ++ rows } }

/-- The life of a report from the state `s` on. -/
def lifeOfReport (env : Env ω) (s : Dispatching ω) (stages : List (StageAction ω)) :
    Dispatching ω :=
  stages.foldl (performStage env) s

theorem moves_performStage {a : StageAction ω} (ha : a.armed) :
    Moves (doorPolicy env) s.doors (performStage env s a).doors := by
  cases a with
  | dispatch opts publishers =>
    exact moves_dispatch env ha publishers { s.ctx with publishReport := some s.report } s.calls
  | ensureVerifyGate => exact moves_ensureVerifyGateEvaluated
  | stage body => exact .single (.record s.doors (s.report.results ++ (body s.ctx s.report).2))

theorem moves_lifeOfReport {stages : List (StageAction ω)} (ha : ∀ a ∈ stages, a.armed) :
    Moves (doorPolicy env) s.doors (lifeOfReport env s stages).doors := by
  unfold lifeOfReport
  induction stages generalizing s with
  | nil => exact .refl
  | cons a stages ih =>
    rw [List.foldl_cons]
    exact (moves_performStage (ha a (List.mem_cons_self ..))).trans
      (ih fun b hb => ha b (List.mem_cons_of_mem a hb))

/-- A manager or submitter reached behind a required failure gets the gated row and no call. -/
theorem gated_of_closesGate (hg : opts.gateSubmitter) (hd : p.group ≠ .assets)
    {r : PublisherResult} (hr : r ∈ s.report.results) (hc : r.closesGate) :
    p.gated opts s.report := by
  simp [Publisher.gated, oneWayDoor_iff.mpr hd, hg,
    PublishReport.submitterGateClosed_iff.mpr ⟨r, hr, hc⟩]

/-- A pass the loop made is part of the report the dispatch returns. -/
theorem dispatch_keeps_pass {publishers : List (Publisher ω)} {ctx : Context ω}
    {calls : List Invocation} {pre : List (Publisher ω)} {t : Dispatching ω}
    (hr : Reaches (dispatchOne env opts) (dispatchOrder publishers) (seeded ctx calls) pre p s)
    (ht : dispatchOne env opts p s = .next t) :
    t.report.results <+: (dispatch env opts publishers ctx calls).report.results ∧
      (t.report.submitterGated →
        (dispatch env opts publishers ctx calls).report.submitterGated) := by
  obtain ⟨post, hpost, hrun⟩ := hr
  rw [dispatch_eq, hpost, run_append_next hrun, run_cons_next ht]
  exact run_extends post t

namespace Demo

/-- A release with no options set and a verify gate that passes. -/
def release : Env Unit where
  options := {}
  verifyGate := some fun ctx => (.ok true, ctx)
  runSummaries := fun _ => []
  persistSummarySnapshot := fun _ _ => ()

/-- A publisher whose version is absent upstream and whose run ends as given. -/
def publisher (name : String) (group : PublisherGroup) (required : Bool)
    (answer : Except String PublishEvidence) : Publisher Unit where
  name := name
  group := group
  required := required
  skipsOnNightly := false
  configFullyInactive := fun _ => false
  reconcile := fun ctx => (.ok .absent, ctx)
  run := fun ctx => (answer, ctx)

def mirror : Publisher Unit := publisher "artifactory" .assets true (.error "HTTP 503")

def cargo : Publisher Unit := publisher "cargo" .submitter true (.ok (.new "cargo"))

end Demo

/-- The one-way-door gate of a release that arms it: no door is probed or run behind a required
failure, a door reached behind one gets the gated row and nothing else, and over the whole life
of a report the verify gate is asked at most once and before any submitter runs. -/
theorem dispatch_one_way_door (env : Env ω) (opts : DispatchOptions) (hg : opts.gateSubmitter)
    (publishers : List (Publisher ω)) (ctx : Context ω) :
    (∀ d rows, d.group ≠ .assets →
      Call.probe d rows ∈ (dispatch env opts publishers ctx []).calls ∨
        Call.run d rows ∈ (dispatch env opts publishers ctx []).calls →
      ∀ r ∈ rows, r.closesGate = false) ∧
    (∀ pre p s, Reaches (dispatchOne env opts) (dispatchOrder publishers) (seeded ctx []) pre p s →
      p.group ≠ .assets → (∃ r ∈ s.report.results, r.closesGate) →
      ∃ t, dispatchOne env opts p s = .next t ∧
        t.report.results = s.report.results ++ [p.row (.skipped .submitterGated)] ∧
        t.report.submitterGated ∧ t.calls = s.calls ∧
        t.report.results <+: (dispatch env opts publishers ctx []).report.results ∧
        (dispatch env opts publishers ctx []).report.submitterGated) ∧
    (∀ s : Dispatching ω, s.calls = [] → ∀ stages : List (StageAction ω), (∀ a ∈ stages, a.armed) →
      checks (lifeOfReport env s stages).calls ≤ (if s.report.verifyGateEvaluated then 0 else 1) ∧
      (env.verifyGate.isSome → ∀ before d rows, d.group = .submitter →
        before ++ [Call.run d rows] <+: (lifeOfReport env s stages).calls →
        (s.report.verifyGateEvaluated ∧ s.report.verifyGateBlocked = false) ∨
          Call.check true ∈ before)) := by
  refine ⟨?_, ?_, ?_⟩
  · have h := behindNoBadRow_moves (moves_dispatch env hg publishers ctx [])
      fun d rows _ hm => by rcases hm with hm | hm <;> cases hm
    exact fun d rows hd hm r hr => eq_false_of_ne_true (h d rows hd hm r hr)
  · rintro pre p s hr hd ⟨r, hrow, hc⟩
    obtain ⟨t, ht, hrep, hcalls⟩ :=
      dispatchOne_of_gated env (gated_of_closesGate hg hd hrow hc)
    obtain ⟨hpre, hgated⟩ := dispatch_keeps_pass hr ht
    exact ⟨t, ht, by rw [hrep], by rw [hrep], hcalls, hpre, hgated (by rw [hrep])⟩
  · intro s h0 stages ha
    exact check_once_and_first (moves_lifeOfReport ha) h0

theorem dispatch_one_way_door_demo :
    ∃ t, dispatchOne Demo.release {} Demo.cargo
        (run (dispatchOne Demo.release {}) [Demo.mirror] (seeded { world := () } [])).exit = .next t ∧
      t.report.submitterGated ∧ t.calls = [.probe Demo.mirror.door [], .run Demo.mirror.door []] := by
  obtain ⟨-, hgated, -⟩ := dispatch_one_way_door Demo.release {} rfl [Demo.cargo, Demo.mirror]
    { world := () }
  obtain ⟨t, ht, _, hg, hcalls, _⟩ := hgated [Demo.mirror] Demo.cargo _ ⟨[], rfl, rfl⟩ (by decide)
    ⟨_, List.mem_singleton_self _, rfl⟩
  exact ⟨t, ht, hg, hcalls⟩

end Anodizer
