import Anodizer.Publish.Carry

/-! # The history of a release

Runs and withdrawals of one tag, in any order, over the files of its run directory.
The outstanding targets are what the runs recorded and no withdrawal took back.
-/

namespace Anodizer

variable {groupOf : String → PublisherGroup}

/-- What a run reports before it takes earlier work in. Each publisher has one group. -/
structure RunReport (groupOf : String → PublisherGroup) where
  report : PublishReport
  fresh : report.carriedForward = []
  grouped : ∀ r ∈ report.results, r.group = groupOf r.name

inductive ReleaseEvent (groupOf : String → PublisherGroup)
  | release (run : RunReport groupOf)
  | withdrawal (registry : Registry)

structure History where
  dir : RunDir := {}
  outstanding : List (String × Target) := []
  deriving DecidableEq, Repr

/-- The targets of the assets and manager rows a withdrawal would act on, by publisher. -/
def recordedTargets (rows : List PublisherResult) : List (String × Target) :=
  (rows.filter fun r => r.rollbackCandidate && decide (r.group ≠ .submitter)).flatMap fun r =>
    r.targets.map (r.name, ·)

/-- The targets of the rows a withdrawal moved to `RolledBack`. -/
def movedTargets (before after : List PublisherResult) : List (String × Target) :=
  (before.zip after).flatMap fun (b, a) =>
    if b.outcome ≠ .rolledBack ∧ a.outcome = .rolledBack then a.targets.map (a.name, ·) else []

namespace History

def step (h : History) : ReleaseEvent groupOf → History
  | .release run =>
    { dir := writeReportToRunDir h.dir run.report
      outstanding := h.outstanding ++ recordedTargets run.report.results }
  | .withdrawal registry =>
    match h.dir.loadPriorState with
    | none => h
    | some prior =>
      let after := (Rollback.runWithPublishers registry prior).1
      { dir := withdraw registry h.dir
        outstanding := h.outstanding.filter (· ∉ movedTargets prior.rows after.rows) }

def after (events : List (ReleaseEvent groupOf)) : History :=
  events.foldl step {}

/-- The persisted report still names the target in a row a withdrawal would act on. -/
def Kept (h : History) (x : String × Target) : Prop :=
  ∃ prior, h.dir.loadPriorState = some prior ∧ Named prior.rows x.1 x.2

end History

/-- The run's write loses nothing: no carried row replaces one that names a target, and the
report is not left unwritten beside the state of a withdrawal. -/
def WritesClean (dir : RunDir) (report : PublishReport) : Prop :=
  report.results ≠ [] → ∀ prior, dir.loadPriorState = some prior → CarryClean report prior ∧
    (dir.rollbackJson.isSome → dir.reportJson ≠ some (carryPriorWork report prior))

namespace History

/-- Every run of the history writes clean over the state it found. -/
def Clean (events : List (ReleaseEvent groupOf)) : Prop :=
  ∀ before run later, events = before ++ .release run :: later →
    WritesClean (after before).dir run.report

/-- What holds of every state of a clean history. -/
structure Inv (groupOf : String → PublisherGroup) (h : History) : Prop where
  grouped : ∀ prior, h.dir.loadPriorState = some prior → ∀ r ∈ prior.rows, r.group = groupOf r.name
  reversible : ∀ x ∈ h.outstanding, groupOf x.1 ≠ .submitter
  kept : ∀ x ∈ h.outstanding, h.Kept x

end History

theorem mem_recordedTargets {rows : List PublisherResult} {x : String × Target} :
    x ∈ recordedTargets rows ↔
      ∃ r ∈ rows, r.rollbackCandidate ∧ r.group ≠ .submitter ∧ r.name = x.1 ∧ x.2 ∈ r.targets := by
  simp only [recordedTargets, List.mem_flatMap, List.mem_filter, List.mem_map, Bool.and_eq_true,
    decide_eq_true_eq]
  constructor
  · rintro ⟨r, ⟨hr, hc, hg⟩, t, ht, rfl⟩
    exact ⟨r, hr, hc, hg, rfl, ht⟩
  · rintro ⟨r, hr, hc, hg, hn, ht⟩
    exact ⟨r, ⟨hr, hc, hg⟩, x.2, ht, by rw [hn]⟩

/-- A clean write leaves the carried report as the persisted one. -/
theorem loadPriorState_write {dir : RunDir} {report prior : PublishReport}
    (hne : report.results ≠ []) (hp : dir.loadPriorState = some prior)
    (h : dir.rollbackJson.isSome → dir.reportJson ≠ some (carryPriorWork report prior)) :
    (writeReportToRunDir dir report).loadPriorState = some (carryPriorWork report prior) := by
  have he : report.results.isEmpty = false := by simpa using hne
  simp only [writeReportToRunDir, he, Bool.false_eq_true, if_false, hp]
  split
  · rename_i hsame
    cases hr : dir.rollbackJson with
    | none => simpa [RunDir.loadPriorState, hr] using hsame
    | some state => exact absurd hsame (h (by simp [hr]))
  · rfl

/-- A withdrawn assets or manager row is a candidate still, or was moved to `RolledBack`. -/
theorem withdrawn_cases (registry : Registry) (i : ℕ) {r : PublisherResult}
    (hc : r.rollbackCandidate) (hg : r.group ≠ .submitter) :
    (withdrawn registry i r).rollbackCandidate ∨
      (withdrawn registry i r).outcome = .rolledBack := by
  rw [Rollback.outcome_withdrawn hc]
  have hgroup : r.group = .assets ∨ r.group = .manager := by
    cases h : r.group <;> simp_all
  obtain ⟨_, _, he, _⟩ | he | ⟨_, _, he⟩ | he := Rollback.rollbackRow_cases registry i r <;> rw [he]
  · rcases hgroup with h | h <;> simp [PublisherResult.rollbackCandidate, h]
  · rcases hgroup with h | h <;> simp [PublisherResult.rollbackCandidate, h]
  · exact .inl hc
  · exact .inr (if_neg fun h => hg h.1)

theorem outcome_ne_rolledBack {r : PublisherResult} (hc : r.rollbackCandidate) : r.outcome ≠ .rolledBack := by
  intro ho
  unfold PublisherResult.rollbackCandidate at hc
  cases hg : r.group <;> simp [hg, ho] at hc

theorem withdrawn_fields (registry : Registry) (i : ℕ) (r : PublisherResult) :
    (withdrawn registry i r).name = r.name ∧ (withdrawn registry i r).group = r.group ∧
      (withdrawn registry i r).targets = r.targets := by
  unfold withdrawn
  split <;> exact ⟨rfl, rfl, rfl⟩

namespace History

variable {h : History}

theorem inv_release {run : RunReport groupOf} (hi : Inv groupOf h)
    (hw : WritesClean h.dir run.report) : Inv groupOf (h.step (.release run)) := by
  have hrev : ∀ x ∈ recordedTargets run.report.results, groupOf x.1 ≠ .submitter := by
    intro x hx
    obtain ⟨r, hr, _, hg, hn, _⟩ := mem_recordedTargets.mp hx
    rwa [← hn, ← run.grouped r hr]
  have hnamed : ∀ x ∈ recordedTargets run.report.results,
      Named run.report.results x.1 x.2 := by
    intro x hx
    obtain ⟨r, hr, hc, _, hn, ht⟩ := mem_recordedTargets.mp hx
    exact ⟨r, hr, hc, hn, ht⟩
  have hall : ∀ x ∈ h.outstanding ++ recordedTargets run.report.results,
      groupOf x.1 ≠ .submitter := fun x hx =>
    (List.mem_append.mp hx).elim (hi.reversible x) (hrev x)
  by_cases hne : run.report.results = []
  · have hd : writeReportToRunDir h.dir run.report = h.dir := by simp [writeReportToRunDir, hne]
    have hr : recordedTargets run.report.results = [] := by simp [recordedTargets, hne]
    rw [step, hd, hr, List.append_nil]
    exact hi
  cases hp : h.dir.loadPriorState with
  | none =>
    have hload : (writeReportToRunDir h.dir run.report).loadPriorState = some run.report := by
      rw [writeReportToRunDir, if_neg (by simpa using hne), hp]
      rfl
    refine ⟨fun prior hprior r hr => ?_, hall, fun x hx => ⟨run.report, hload, ?_⟩⟩
    · obtain rfl := Option.some_inj.mp (hload.symm.trans hprior)
      exact run.grouped r (by simpa [PublishReport.rows, run.fresh] using hr)
    · rcases List.mem_append.mp hx with hx | hx
      · obtain ⟨prior, hprior, _⟩ := hi.kept x hx
        simp [hp] at hprior
      · exact named_append.mpr (.inl (hnamed x hx))
  | some prior =>
    obtain ⟨hclean, hbytes⟩ := hw hne prior hp
    have hload := loadPriorState_write hne hp hbytes
    refine ⟨fun report hr => ?_, hall, fun x hx => ⟨_, hload, ?_⟩⟩
    · obtain rfl := Option.some_inj.mp (hload.symm.trans hr)
      exact grouped_carryPriorWork run.fresh run.grouped (hi.grouped prior hp) hclean
    · refine named_carryPriorWork run.fresh run.grouped (hi.grouped prior hp) hclean (hall x hx) ?_
      rcases List.mem_append.mp hx with hx | hx
      · obtain ⟨prior', hprior', hn⟩ := hi.kept x hx
        obtain rfl := Option.some_inj.mp (hp.symm.trans hprior')
        exact .inr hn
      · exact .inl (hnamed x hx)

/-- A withdrawal takes a target off the record only by moving a row that names it. -/
theorem named_runWithPublishers {prior : PublishReport} {n : String} {t : Target}
    (registry : Registry) (hg : ∀ r ∈ prior.rows, r.group = groupOf r.name)
    (hn : groupOf n ≠ .submitter) (h : Named prior.rows n t) :
    Named (Rollback.runWithPublishers registry prior).1.rows n t ∨
      (n, t) ∈ movedTargets prior.rows (Rollback.runWithPublishers registry prior).1.rows := by
  obtain ⟨r, hr, hc, rfl, ht⟩ := h
  obtain ⟨i, hi⟩ := List.mem_iff_getElem?.mp hr
  obtain ⟨hname, _, htargets⟩ := withdrawn_fields registry i r
  have hafter : (Rollback.runWithPublishers registry prior).1.rows[i]? =
      some (withdrawn registry i r) := by rw [Rollback.rows_runWithPublishers, hi]; rfl
  rcases withdrawn_cases registry i hc (hg r hr ▸ hn) with hcand | ho
  · exact .inl ⟨_, List.mem_of_getElem? hafter, hcand, hname, htargets ▸ ht⟩
  · refine .inr (List.mem_flatMap.mpr ⟨(r, withdrawn registry i r), ?_, ?_⟩)
    · refine List.mem_of_getElem? (i := i) ?_
      rw [List.getElem?_zip_eq_some]
      exact ⟨hi, hafter⟩
    · dsimp only
      rw [if_pos ⟨outcome_ne_rolledBack hc, ho⟩, hname, htargets]
      exact List.mem_map_of_mem ht

theorem inv_withdrawal (registry : Registry) (hi : Inv groupOf h) :
    Inv groupOf (h.step (.withdrawal registry : ReleaseEvent groupOf)) := by
  cases hp : h.dir.loadPriorState with
  | none =>
    rw [step, hp]
    exact hi
  | some prior =>
    have hg := hi.grouped prior hp
    have hload : (withdraw registry h.dir).loadPriorState =
        some (Rollback.runWithPublishers registry prior).1 := by
      rw [withdraw, hp]
      rfl
    rw [step, hp]
    refine ⟨fun report hr r hmem => ?_, fun x hx => hi.reversible x (List.mem_filter.mp hx).1,
      fun x hx => ⟨_, hload, ?_⟩⟩
    · obtain rfl := Option.some_inj.mp (hload.symm.trans hr)
      obtain ⟨i, hri⟩ := List.mem_iff_getElem?.mp hmem
      rw [Rollback.rows_runWithPublishers] at hri
      obtain ⟨r', hr', rfl⟩ := Option.map_eq_some_iff.mp hri
      obtain ⟨hname, hgroup, _⟩ := withdrawn_fields registry i r'
      rw [hname, hgroup]
      exact hg r' (List.mem_of_getElem? hr')
    · obtain ⟨hx, hmoved⟩ := List.mem_filter.mp hx
      obtain ⟨prior', hprior', hn⟩ := hi.kept x hx
      obtain rfl := Option.some_inj.mp (hp.symm.trans hprior')
      exact (named_runWithPublishers registry hg (hi.reversible x hx) hn).resolve_right
        (by simpa using hmoved)

theorem inv_after (events : List (ReleaseEvent groupOf)) (hclean : Clean events) :
    Inv groupOf (after events) := by
  induction events using List.reverseRecOn with
  | nil =>
    exact ⟨nofun, nofun, nofun⟩
  | append_singleton events e ih =>
    have hi := ih fun before run later he =>
      hclean before run (later ++ [e]) (by simp [he])
    rw [after, List.foldl_append, List.foldl_cons, List.foldl_nil]
    cases e with
    | release run => exact inv_release hi (hclean events run [] rfl)
    | withdrawal registry => exact inv_withdrawal registry hi

end History

/-- In every state of a history whose runs all write clean, each outstanding target of an
assets or manager publisher is named by a row a withdrawal would act on. -/
theorem published_work_kept (events : List (ReleaseEvent groupOf))
    (hclean : History.Clean events) :
    ∀ x ∈ (History.after events).outstanding, (History.after events).Kept x :=
  (History.inv_after events hclean).kept

namespace Demo

/-- Every publisher of the release is an assets publisher. -/
def assetsOnly (_ : String) : PublisherGroup := .assets

def dockerhubTarget : DockerhubTargetSnapshot where
  target := "docker.io/acme/tool"
  repoUrl := "https://hub.docker.com/r/acme/tool"
  namespaceName := "acme"
  name := "tool"
  username := "acme"
  secretEnvVar := "DOCKERHUB_TOKEN"

/-- A run whose dockerhub publisher succeeded with a payload. -/
def dockerhubRun (extra : PublishEvidenceExtra) : RunReport assetsOnly where
  report := { results := [{
    name := "dockerhub"
    group := .assets
    required := false
    outcome := .succeeded
    evidence := some { PublishEvidence.new "dockerhub" with extra } }] }
  fresh := rfl
  grouped := by simp [assetsOnly]

/-- One run pushed a description, and the next two found nothing to change. -/
def dockerhubRuns : List (ReleaseEvent assetsOnly) :=
  [.release (dockerhubRun (.dockerhub [dockerhubTarget])), .release (dockerhubRun .empty),
    .release (dockerhubRun .empty)]

end Demo

theorem published_work_kept_demo :
    (History.after (Demo.dockerhubRuns.take 1)).Kept ("dockerhub", .dockerhub Demo.dockerhubTarget) :=
  published_work_kept (Demo.dockerhubRuns.take 1)
    (fun before run later h => by
      cases before with
      | nil => exact fun _ _ hp => by cases hp
      | cons e before => simp [Demo.dockerhubRuns] at h)
    _ (by decide)

/-- The third run puts its empty record in place of the row that named the target. -/
theorem carried_target_lost :
    ("dockerhub", .dockerhub Demo.dockerhubTarget) ∈
        (History.after Demo.dockerhubRuns).outstanding ∧
      ¬ (History.after Demo.dockerhubRuns).Kept
        ("dockerhub", .dockerhub Demo.dockerhubTarget) := by
  refine ⟨by decide, ?_⟩
  rintro ⟨prior, hp, hn⟩
  obtain rfl := Option.some_inj.mp (hp.symm.trans
    (rfl : (History.after Demo.dockerhubRuns).dir.loadPriorState = some _))
  revert hn
  decide

end Anodizer
