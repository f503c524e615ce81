import Anodizer.Publish.Report

/-! # Withdrawal passes

A withdrawal pass goes over the rows that are still rollback candidates, those of
earlier runs included, and records what each attempt did. The state it leaves is
the state the next pass reads.
-/

namespace Anodizer

namespace PublisherResult

/-- Whether a withdrawal acts on the row. -/
def rollbackCandidate (r : PublisherResult) : Bool :=
  match r.group with
  | .assets | .manager =>
    match r.outcome with
    | .succeeded | .rollbackFailed _ | .rollbackSkippedNoScope => true
    | .failed _ => r.evidence.any (·.recordsPublishedWork)
    | _ => false
  | .submitter =>
    match r.outcome with
    | .failed _ | .rollbackFailed _ | .rollbackSkippedNoScope => true
    | _ => false

end PublisherResult

/-- The indices of the rows a withdrawal acts on. -/
def candidateRows (rows : List PublisherResult) : List ℕ :=
  (rows.zipIdx.filter fun (r, _) => r.rollbackCandidate).map (·.2)

def rollbackCandidates (report : PublishReport) : List ℕ :=
  candidateRows report.results

/-- A publisher as a withdrawal sees it; `rollback` answers for the row at a position. -/
structure RollbackPublisher where
  name : String
  retainOnRollback : Bool
  missingRollbackScope : Option String
  rollback : ℕ → PublishEvidence → Except String Unit

/-- The publishers of one pass, and the stage-owned ones resolved beside them. -/
structure Registry where
  publishers : List RollbackPublisher
  aux : List RollbackPublisher

inductive RollbackDisposition | rolledBack | failed | notFound | skippedNoScope | retained
  deriving DecidableEq, Repr

/-- What a pass did for one row. -/
inductive Attempt
  | noEvidence
  | step (disposition : RollbackDisposition)
  deriving DecidableEq, Repr

namespace Attempt

/-- The publisher's `rollback` was called. -/
def invoked : Attempt → Bool
  | .step .rolledBack | .step .failed => true
  | _ => false

/-- The attempt failed or lacked its scope. -/
def unsettled : Attempt → Bool
  | .noEvidence | .step .failed | .step .notFound | .step .skippedNoScope => true
  | .step .rolledBack | .step .retained => false

end Attempt

namespace Registry

def resolve (registry : Registry) (name : String) : Option RollbackPublisher :=
  (registry.publishers ++ registry.aux).find? (·.name == name)

end Registry

def executeRollbackStep (registry : Registry) (i : ℕ) (row : PublisherResult)
    (evidence : PublishEvidence) : PublisherOutcome × RollbackDisposition :=
  match registry.resolve row.name with
  | none => (.rollbackFailed "publisher not found in current registry", .notFound)
  | some publisher =>
    if publisher.retainOnRollback then (row.outcome, .retained)
    else if publisher.missingRollbackScope.isSome then (.rollbackSkippedNoScope, .skippedNoScope)
    else
      -- A failed submitter keeps its outcome: the release did fail.
      let wasFailure := decide (row.group = .submitter) && row.outcome.isFailed
      match publisher.rollback i evidence with
      | .ok () => (if wasFailure then row.outcome else .rolledBack, .rolledBack)
      | .error msg => (.rollbackFailed msg, .failed)

/-- The new outcome of a candidate row. -/
def rollbackRow (registry : Registry) (i : ℕ) (row : PublisherResult) :
    PublisherOutcome × Attempt :=
  match row.evidence with
  | none => (.rollbackFailed "no evidence in prior report", .noEvidence)
  | some evidence =>
    let (outcome, disposition) := executeRollbackStep registry i row evidence
    (outcome, .step disposition)

/-- One turn of the withdrawal loop, on the rows and the attempts made so far. -/
def rollbackOne (registry : Registry) (s : List PublisherResult × List (ℕ × Attempt)) (i : ℕ) :
    List PublisherResult × List (ℕ × Attempt) :=
  match s.1[i]? with
  | none => s
  | some row =>
    let (outcome, attempt) := rollbackRow registry i row
    (s.1.set i { row with outcome }, s.2 ++ [(i, attempt)])

/-- Every row of a report, its own and the carried ones. -/
def PublishReport.rows (report : PublishReport) : List PublisherResult :=
  report.results ++ report.carriedForward

namespace Rollback

/-- One withdrawal pass: the updated report, and the attempts in order. -/
def runWithPublishers (registry : Registry) (report : PublishReport) :
    PublishReport × List (ℕ × Attempt) :=
  let ownRows := report.results.length
  let (rows, attempts) := (candidateRows report.rows).foldl (rollbackOne registry) (report.rows, [])
  ({ report with results := rows.take ownRows, carriedForward := rows.drop ownRows }, attempts)

/-- The state after a sequence of passes, each reading what the one before it wrote. -/
def replay (passes : List Registry) (report : PublishReport) : PublishReport :=
  passes.foldl (fun report registry => (runWithPublishers registry report).1) report

end Rollback

theorem mem_candidateRows {rows : List PublisherResult} {i : ℕ} :
    i ∈ candidateRows rows ↔ ∃ row, rows[i]? = some row ∧ row.rollbackCandidate := by
  simp only [candidateRows, List.mem_map, List.mem_filter, Prod.exists, exists_eq_right,
    List.mk_mem_zipIdx_iff_getElem?]

theorem nodup_candidateRows (rows : List PublisherResult) : (candidateRows rows).Nodup := by
  refine List.Sublist.nodup (List.Sublist.map _ List.filter_sublist) ?_
  rw [List.zipIdx_map_snd]
  exact List.nodup_range'

/-- What a pass makes of the row at a position. -/
def withdrawn (registry : Registry) (i : ℕ) (row : PublisherResult) : PublisherResult :=
  if row.rollbackCandidate then { row with outcome := (rollbackRow registry i row).1 } else row

theorem foldl_rollbackOne_getElem? (registry : Registry) (rows : List PublisherResult)
    (done : List (ℕ × Attempt)) {is : List ℕ} (j : ℕ) (h : is.Nodup) :
    (is.foldl (rollbackOne registry) (rows, done)).1[j]? =
      if j ∈ is then rows[j]?.map fun r => { r with outcome := (rollbackRow registry j r).1 }
      else rows[j]? := by
  induction is generalizing rows done with
  | nil => simp
  | cons i is ih =>
    obtain ⟨hi, hn⟩ := List.nodup_cons.mp h
    rw [List.foldl_cons, rollbackOne]
    cases hr : rows[i]? with
    | none =>
      simp only [ih _ _ hn, List.mem_cons]
      by_cases hj : j = i
      · subst hj; simp [hi, hr]
      · simp [hj]
    | some row =>
      simp only [ih _ _ hn, List.mem_cons, List.getElem?_set]
      by_cases hj : i = j
      · subst hj
        obtain ⟨hlt, rfl⟩ := List.getElem?_eq_some_iff.mp hr
        simp [hi, hlt]
      · simp [hj, Ne.symm hj]

theorem mem_foldl_rollbackOne {registry : Registry} {rows : List PublisherResult}
    {done : List (ℕ × Attempt)} {is : List ℕ} {j : ℕ} {a : Attempt} (h : is.Nodup) :
    (j, a) ∈ (is.foldl (rollbackOne registry) (rows, done)).2 ↔
      (j, a) ∈ done ∨ j ∈ is ∧ ∃ row, rows[j]? = some row ∧ a = (rollbackRow registry j row).2 := by
  induction is generalizing rows done with
  | nil => simp
  | cons i is ih =>
    obtain ⟨hi, hn⟩ := List.nodup_cons.mp h
    rw [List.foldl_cons, rollbackOne]
    cases hr : rows[i]? with
    | none =>
      simp only [ih hn, List.mem_cons]
      by_cases hj : j = i
      · subst hj; simp [hi, hr]
      · simp [hj]
    | some row =>
      simp only [ih hn, List.mem_cons, List.getElem?_set, List.mem_append, List.not_mem_nil,
        or_false, Prod.mk.injEq]
      by_cases hj : i = j
      · subst hj
        simp [hi, hr]
      · simp [hj, Ne.symm hj]

namespace Rollback

variable {registry registry' : Registry} {report : PublishReport} {i : ℕ} {a : Attempt}
  {row : PublisherResult}

/-- A pass settles every row on its own. -/
theorem rows_runWithPublishers (registry : Registry) (report : PublishReport) (i : ℕ) :
    (runWithPublishers registry report).1.rows[i]? =
      (report.rows[i]?).map (withdrawn registry i) := by
  have h := foldl_rollbackOne_getElem? registry report.rows [] i
    (nodup_candidateRows report.rows)
  have hw : (runWithPublishers registry report).1.rows =
      ((candidateRows report.rows).foldl (rollbackOne registry) (report.rows, [])).1 :=
    List.take_append_drop ..
  rw [hw, h]
  cases hr : report.rows[i]? with
  | none => simp
  | some row => cases hc : row.rollbackCandidate <;> simp [mem_candidateRows, hr, hc, withdrawn]

theorem mem_attempts_iff : (i, a) ∈ (runWithPublishers registry report).2 ↔
    ∃ row, report.rows[i]? = some row ∧ row.rollbackCandidate ∧
      a = (rollbackRow registry i row).2 := by
  refine (mem_foldl_rollbackOne (nodup_candidateRows _)).trans ?_
  simp only [List.not_mem_nil, false_or, mem_candidateRows]
  constructor
  · rintro ⟨⟨row, hr, hc⟩, row', hr', ha⟩
    obtain rfl : row = row' := Option.some_inj.mp (hr.symm.trans hr')
    exact ⟨row, hr, hc, ha⟩
  · rintro ⟨row, hr, hc, ha⟩
    exact ⟨⟨row, hr, hc⟩, row, hr, ha⟩

theorem rows_eq_mapIdx (registry : Registry) (report : PublishReport) :
    (runWithPublishers registry report).1.rows = report.rows.mapIdx (withdrawn registry) :=
  List.ext_getElem? fun i => by rw [rows_runWithPublishers, List.getElem?_mapIdx]

theorem length_results_runWithPublishers (registry : Registry) (report : PublishReport) :
    (runWithPublishers registry report).1.results.length = report.results.length := by
  have h := congrArg List.length (rows_eq_mapIdx registry report)
  have hw : (runWithPublishers registry report).1.results =
      (((candidateRows report.rows).foldl (rollbackOne registry) (report.rows, [])).1).take
        report.results.length := rfl
  have hr : (runWithPublishers registry report).1.rows =
      ((candidateRows report.rows).foldl (rollbackOne registry) (report.rows, [])).1 :=
    List.take_append_drop ..
  rw [List.length_mapIdx, hr] at h
  rw [hw, List.length_take, h, PublishReport.rows, List.length_append]
  omega

/-- A row without its outcome. -/
def identity (r : PublisherResult) : PublisherResult := { r with outcome := .succeeded }

theorem identity_withdrawn (registry : Registry) (i : ℕ) (row : PublisherResult) :
    identity (withdrawn registry i row) = identity row := by
  unfold withdrawn
  split <;> rfl

theorem identity_rows (registry : Registry) (report : PublishReport) :
    (runWithPublishers registry report).1.rows.map identity = report.rows.map identity :=
  List.ext_getElem? fun i => by
    simp only [List.getElem?_map, rows_runWithPublishers, Option.map_map, Function.comp_def,
      identity_withdrawn]

/-- A pass keeps the number, the order and the identity of the rows of each list. -/
theorem identity_runWithPublishers (registry : Registry) (report : PublishReport) :
    (runWithPublishers registry report).1.results.map identity = report.results.map identity ∧
      (runWithPublishers registry report).1.carriedForward.map identity =
        report.carriedForward.map identity := by
  have h := identity_rows registry report
  simp only [PublishReport.rows, List.map_append] at h
  exact List.append_inj h (by simp [length_results_runWithPublishers])

theorem withdrawn_of_not_candidate (h : row.rollbackCandidate = false) :
    withdrawn registry i row = row := by
  simp [withdrawn, h]

/-- A row that is no candidate stays as it is over any number of passes. -/
theorem rows_replay_of_not_candidate (passes : List Registry) (report : PublishReport)
    (hr : report.rows[i]? = some row) (h : row.rollbackCandidate = false) :
    (replay passes report).rows[i]? = some row := by
  unfold replay
  induction passes generalizing report with
  | nil => exact hr
  | cons registry passes ih =>
    refine ih (runWithPublishers registry report).1 ?_
    rw [rows_runWithPublishers, hr, Option.map_some, withdrawn_of_not_candidate h]

/-- What an attempt can come to, with the outcome each leaves. -/
theorem rollbackRow_cases (registry : Registry) (i : ℕ) (row : PublisherResult) :
    (∃ msg a, rollbackRow registry i row = (.rollbackFailed msg, a) ∧
      (a = .noEvidence ∨ a = .step .notFound ∨ a = .step .failed)) ∨
    rollbackRow registry i row = (.rollbackSkippedNoScope, .step .skippedNoScope) ∨
    (row.evidence.isSome ∧ (registry.resolve row.name).any (·.retainOnRollback) ∧
      rollbackRow registry i row = (row.outcome, .step .retained)) ∨
    rollbackRow registry i row =
      (if row.group = .submitter ∧ row.outcome.isFailed then row.outcome else .rolledBack,
        .step .rolledBack) := by
  unfold rollbackRow
  cases row.evidence with
  | none => exact .inl ⟨_, _, rfl, .inl rfl⟩
  | some evidence =>
    simp only [executeRollbackStep]
    cases registry.resolve row.name with
    | none => exact .inl ⟨_, _, rfl, .inr (.inl rfl)⟩
    | some publisher =>
      by_cases hr : publisher.retainOnRollback
      · exact .inr (.inr (.inl ⟨rfl, by simpa using hr, by simp [hr]⟩))
      by_cases hs : publisher.missingRollbackScope.isSome
      · exact .inr (.inl (by simp [hr, hs]))
      cases hb : publisher.rollback i evidence with
      | ok _ => exact .inr (.inr (.inr (by simp [hr, hs, hb])))
      | error msg => exact .inl ⟨msg, _, by simp [hr, hs, hb], .inr (.inr rfl)⟩

theorem rollbackRow_of_retains (he : row.evidence.isSome)
    (h : (registry.resolve row.name).any (·.retainOnRollback)) :
    rollbackRow registry i row = (row.outcome, .step .retained) := by
  obtain ⟨evidence, he⟩ := Option.isSome_iff_exists.mp he
  obtain ⟨publisher, hp, hr⟩ := (Option.any_eq_true _ _).mp h
  simp [rollbackRow, he, executeRollbackStep, hp, hr]

theorem outcome_withdrawn (h : row.rollbackCandidate) :
    withdrawn registry i row = { row with outcome := (rollbackRow registry i row).1 } :=
  if_pos h

theorem rollbackRow_of_rolledBack (hg : row.group ≠ .submitter)
    (h : (rollbackRow registry i row).2 = .step .rolledBack) :
    (rollbackRow registry i row).1 = .rolledBack := by
  obtain ⟨_, _, he, rfl | rfl | rfl⟩ | he | ⟨_, _, he⟩ | he := rollbackRow_cases registry i row <;>
    simp [he, hg] at h ⊢

/-- Once the rollback of an assets or manager row has succeeded, no later pass touches it. -/
theorem not_mem_attempts_of_rolledBack (hr : report.rows[i]? = some row)
    (hg : row.group ≠ .submitter)
    (h : (i, .step .rolledBack) ∈ (runWithPublishers registry report).2)
    (later : List Registry) (a : Attempt) :
    (i, a) ∉ (runWithPublishers registry'
      (replay later (runWithPublishers registry report).1)).2 := by
  obtain ⟨row', hr', hc, ha⟩ := mem_attempts_iff.mp h
  obtain rfl : row = row' := Option.some_inj.mp (hr.symm.trans hr')
  have ho := rollbackRow_of_rolledBack hg ha.symm
  have hn : (withdrawn registry i row).rollbackCandidate = false := by
    rw [outcome_withdrawn hc, ho]
    cases hgr : row.group <;> simp_all [PublisherResult.rollbackCandidate]
  have hl := rows_replay_of_not_candidate later (runWithPublishers registry report).1
    (by rw [rows_runWithPublishers, hr]; rfl) hn
  rw [mem_attempts_iff]
  rintro ⟨row'', hr'', hc'', _⟩
  obtain rfl := Option.some_inj.mp (hl.symm.trans hr'')
  simp [hn] at hc''

theorem candidate_of_unsettled (hc : row.rollbackCandidate)
    (h : (rollbackRow registry i row).2.unsettled) :
    (withdrawn registry i row).rollbackCandidate := by
  rw [outcome_withdrawn hc]
  obtain ⟨_, _, he, _⟩ | he | ⟨_, _, he⟩ | he := rollbackRow_cases registry i row <;> rw [he] at h ⊢
  · cases row.group <;> simp [PublisherResult.rollbackCandidate]
  · cases row.group <;> simp [PublisherResult.rollbackCandidate]
  · simp [Attempt.unsettled] at h
  · simp [Attempt.unsettled] at h

theorem mem_attempts_of_unsettled (registry' : Registry)
    (h : (i, a) ∈ (runWithPublishers registry report).2)
    (hu : a.unsettled) : ∃ row, report.rows[i]? = some row ∧
      (i, (rollbackRow registry' i (withdrawn registry i row)).2) ∈
        (runWithPublishers registry' (runWithPublishers registry report).1).2 := by
  obtain ⟨row, hr, hc, rfl⟩ := mem_attempts_iff.mp h
  refine ⟨row, hr, mem_attempts_iff.mpr ⟨_, ?_, candidate_of_unsettled hc hu, rfl⟩⟩
  rw [rows_runWithPublishers, hr, Option.map_some]

theorem invoked_of_resolve {publisher : RollbackPublisher} {evidence : PublishEvidence}
    (hp : registry.resolve row.name = some publisher) (hr : publisher.retainOnRollback = false)
    (hs : publisher.missingRollbackScope = none) (he : row.evidence = some evidence) :
    (rollbackRow registry i row).2.invoked := by
  simp only [rollbackRow, he, executeRollbackStep, hp, hr, hs, Bool.false_eq_true, if_false,
    Option.isSome_none]
  split <;> rfl

/-- What a registry answers about the row at a position. -/
def answersAt (registry : Registry) (i : ℕ) (name : String) :
    Option (Bool × Option String × (PublishEvidence → Except String Unit)) :=
  (registry.resolve name).map fun p => (p.retainOnRollback, p.missingRollbackScope, p.rollback i)

theorem rollbackRow_congr (h : answersAt registry i row.name = answersAt registry' i row.name) :
    rollbackRow registry i row = rollbackRow registry' i row := by
  unfold rollbackRow
  cases row.evidence with
  | none => rfl
  | some evidence =>
    simp only [executeRollbackStep]
    unfold answersAt at h
    cases hp : registry.resolve row.name with
    | none =>
      cases hp' : registry'.resolve row.name with
      | none => rfl
      | some q => simp [hp, hp'] at h
    | some p =>
      cases hp' : registry'.resolve row.name with
      | none => simp [hp, hp'] at h
      | some q =>
        simp only [hp, hp', Option.map_some, Option.some.injEq, Prod.mk.injEq] at h
        simp only [h.1, h.2.1, h.2.2]

/-- The row at a position only depends on that row and on what is answered about it. -/
theorem rows_runWithPublishers_congr {report' : PublishReport}
    (hr : report'.rows[i]? = report.rows[i]?)
    (h : ∀ row, report.rows[i]? = some row →
      answersAt registry i row.name = answersAt registry' i row.name) :
    (runWithPublishers registry' report').1.rows[i]? =
      (runWithPublishers registry report).1.rows[i]? := by
  rw [rows_runWithPublishers, rows_runWithPublishers, hr]
  cases hrow : report.rows[i]? with
  | none => rfl
  | some row => simp only [Option.map_some, withdrawn, rollbackRow_congr (h row hrow)]

/-- A failed submitter stays failed when its rollback succeeded or its work is retained. -/
theorem failed_submitter_iff {msg : String} (hr : report.rows[i]? = some row)
    (hg : row.group = .submitter) (ho : row.outcome = .failed msg) :
    (withdrawn registry i row).outcome = .failed msg ↔
      (i, .step .rolledBack) ∈ (runWithPublishers registry report).2 ∨
        row.evidence.isSome ∧ (registry.resolve row.name).any (·.retainOnRollback) := by
  have hc : row.rollbackCandidate := by simp [PublisherResult.rollbackCandidate, hg, ho]
  have hm : (i, .step .rolledBack) ∈ (runWithPublishers registry report).2 ↔
      (rollbackRow registry i row).2 = .step .rolledBack := by
    rw [mem_attempts_iff]
    exact ⟨fun ⟨row', hr', _, h⟩ => Option.some_inj.mp (hr.symm.trans hr') ▸ h.symm,
      fun h => ⟨row, hr, hc, h.symm⟩⟩
  rw [outcome_withdrawn hc, hm]
  by_cases hret : row.evidence.isSome ∧ (registry.resolve row.name).any (·.retainOnRollback)
  · simp [rollbackRow_of_retains hret.1 hret.2, ho, hret]
  · obtain ⟨_, _, he, rfl | rfl | rfl⟩ | he | ⟨hs, hp, _⟩ | he :=
      rollbackRow_cases registry i row
    case inr.inr.inl => exact absurd ⟨hs, hp⟩ hret
    all_goals simp [he, hg, ho, hret]

/-- Any number of passes keeps the number, the order and the identity of the rows. -/
theorem identity_replay (passes : List Registry) (report : PublishReport) :
    (replay passes report).results.map identity = report.results.map identity ∧
      (replay passes report).carriedForward.map identity =
        report.carriedForward.map identity := by
  unfold replay
  induction passes generalizing report with
  | nil => exact ⟨rfl, rfl⟩
  | cons registry passes ih =>
    obtain ⟨hr, hc⟩ := identity_runWithPublishers registry report
    obtain ⟨hr', hc'⟩ := ih (runWithPublishers registry report).1
    exact ⟨hr'.trans hr, hc'.trans hc⟩

/-- Withdrawal replays, from the state any earlier passes left: a succeeded withdrawal of an
assets or manager row is never repeated, an unsettled one is tried again, rows are settled
independently and keep their identity, and a failed submitter stays failed when its rollback
succeeded or its publisher retains its work. -/
theorem withdrawal_replays (initial : PublishReport) (before : List Registry)
    (registry : Registry) :
    let report := replay before initial
    let pass := runWithPublishers registry report
    (∀ i row, report.rows[i]? = some row → row.group ≠ .submitter →
      (i, .step .rolledBack) ∈ pass.2 → ∀ later registry' a,
        (i, a) ∉ (runWithPublishers registry' (replay later pass.1)).2) ∧
    (∀ i a, (i, a) ∈ pass.2 → a.unsettled → ∀ registry', ∃ row a',
      report.rows[i]? = some row ∧ (i, a') ∈ (runWithPublishers registry' pass.1).2 ∧
      ∀ publisher, registry'.resolve row.name = some publisher →
        publisher.retainOnRollback = false → publisher.missingRollbackScope = none →
        row.evidence.isSome → a'.invoked) ∧
    (∀ i registry' (report' : PublishReport), report'.rows[i]? = report.rows[i]? →
      (∀ row, report.rows[i]? = some row →
        answersAt registry i row.name = answersAt registry' i row.name) →
      (runWithPublishers registry' report').1.rows[i]? = pass.1.rows[i]?) ∧
    (pass.1.results.map identity = initial.results.map identity ∧
      pass.1.carriedForward.map identity = initial.carriedForward.map identity) ∧
    (∀ i row msg, report.rows[i]? = some row → row.group = .submitter →
      row.outcome = .failed msg → ∃ row', pass.1.rows[i]? = some row' ∧
        (row'.outcome = .failed msg ↔ (i, .step .rolledBack) ∈ pass.2 ∨
          row.evidence.isSome ∧ (registry.resolve row.name).any (·.retainOnRollback))) := by
  refine ⟨fun i row hr hg h later registry' a =>
    not_mem_attempts_of_rolledBack hr hg h later a, ?_, ?_, ?_, ?_⟩
  · intro i a h hu registry'
    obtain ⟨row, hr, hm⟩ := mem_attempts_of_unsettled registry' h hu
    refine ⟨row, _, hr, hm, fun publisher hp hret hs he => ?_⟩
    obtain ⟨evidence, he⟩ := Option.isSome_iff_exists.mp he
    have hid := congrArg (fun r => (r.name, r.evidence)) (identity_withdrawn registry i row)
    simp only [identity, Prod.mk.injEq] at hid
    exact invoked_of_resolve (hid.1 ▸ hp) hret hs (hid.2.trans he)
  · exact fun i registry' report' hr h => rows_runWithPublishers_congr hr h
  · obtain ⟨hr, hc⟩ := identity_runWithPublishers registry (replay before initial)
    obtain ⟨hr', hc'⟩ := identity_replay before initial
    exact ⟨hr.trans hr', hc.trans hc'⟩
  · intro i row msg hr hg ho
    exact ⟨_, by rw [rows_runWithPublishers, hr]; rfl, failed_submitter_iff hr hg ho⟩

namespace Demo

/-- A cargo publish that failed after one crate went live. -/
def failedCargo : PublisherResult where
  name := "cargo"
  group := .submitter
  required := true
  outcome := .failed "crate b: HTTP 500"
  evidence := some { PublishEvidence.new "cargo" with extra := .cargo [⟨"a", "1.0.0", none, none⟩] }

/-- A registry whose cargo publisher keeps its work on a rollback. -/
def retaining : Registry where
  publishers := [⟨"cargo", true, none, fun _ _ => .ok ()⟩]
  aux := []

end Demo

/-- A retained submitter stays failed although nothing was rolled back. -/
theorem retained_stays_failed :
    (runWithPublishers Demo.retaining { results := [Demo.failedCargo] }).1.rows =
        [Demo.failedCargo] ∧
      ∀ a, (0, a) ∈ (runWithPublishers Demo.retaining { results := [Demo.failedCargo] }).2 →
        a.invoked = false := by
  refine ⟨rfl, fun a h => ?_⟩
  have hm : (0, a) ∈ [(0, Attempt.step .retained)] := h
  obtain rfl : a = .step .retained := by simpa using hm
  rfl

end Rollback

end Anodizer
