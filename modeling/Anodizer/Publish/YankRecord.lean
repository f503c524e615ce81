import Anodizer.Publish.History

/-! # The yank record across re-runs

A submitter row is carried until a run reaches the publisher again. When the cargo
publisher fails in every run, the record of the last run is the only one left.
-/

namespace Anodizer

/-- A run whose cargo publisher failed after publishing some crates, among rows of others. -/
structure CargoRun where
  before : List PublisherResult
  after : List PublisherResult
  others : ∀ r ∈ before ++ after, r.name ≠ "cargo"
  required : Bool
  msg : String
  evidence : PublishEvidence
  published : List CargoYankTargetSnapshot
  entrySkips : List String

namespace CargoRun

/-- The failed row: the published crates are its yank targets, and none leaves no evidence. -/
def row (run : CargoRun) : PublisherResult where
  name := "cargo"
  group := .submitter
  required := run.required
  outcome := .failed run.msg
  evidence :=
    if run.published.isEmpty then none else some { run.evidence with extra := .cargo run.published }
  entrySkips := run.entrySkips

def report (run : CargoRun) : PublishReport where
  results := run.before ++ run.row :: run.after

/-- The rows of the cargo publisher. -/
def cargoRows (rows : List PublisherResult) : List PublisherResult :=
  rows.filter (·.name == "cargo")

/-- The run directory after a sequence of such runs. -/
def persisted (runs : List CargoRun) : RunDir :=
  runs.foldl (fun dir run => writeReportToRunDir dir run.report) {}

variable {run : CargoRun}

theorem rollbackCandidate_row (run : CargoRun) : run.row.rollbackCandidate := rfl

theorem targets_row (run : CargoRun) : run.row.targets = run.published.map .cargo := by
  cases h : run.published <;> simp [row, PublisherResult.targets, h, PublishEvidenceExtra.targets]

theorem cargoRows_report (run : CargoRun) : cargoRows run.report.results = [run.row] := by
  have h : ∀ rows, (∀ r ∈ rows, r ∈ run.before ++ run.after) → cargoRows rows = [] := by
    intro rows hr
    refine List.filter_eq_nil_iff.mpr fun r hm => ?_
    simpa using run.others r (hr r hm)
  have hb := h run.before fun r hr => List.mem_append_left _ hr
  have ha := h run.after fun r hr => List.mem_append_right _ hr
  simp only [cargoRows, report] at hb ha ⊢
  rw [List.filter_append, hb, List.filter_cons_of_pos (by simp [row]), ha, List.nil_append]

end CargoRun

open CargoRun

theorem cargoRows_of_joinsInto {name : String} {evidence : PublishEvidence}
    {rows rows' : List PublisherResult} (hn : name ≠ "cargo")
    (h : JoinsInto name evidence rows rows') : cargoRows rows' = cargoRows rows := by
  induction h with
  | here _ hr _ _ _ => simp [cargoRows, hr, hn]
  | there _ _ ih =>
    simp only [cargoRows, List.filter_cons] at ih ⊢
    rw [ih]

/-- The cargo row of the run is the only one among its own rows, and none is carried. -/
def OwnCargoRow (row : PublisherResult) (report : PublishReport) : Prop :=
  cargoRows report.results = [row] ∧ cargoRows report.carriedForward = []

theorem ownCargoRow_rows {row : PublisherResult} {report : PublishReport}
    (h : OwnCargoRow row report) : cargoRows report.rows = [row] := by
  rw [cargoRows, PublishReport.rows, List.filter_append]
  exact congrArg₂ (· ++ ·) h.1 h.2

theorem ranAgain_of_ownCargoRow {run : CargoRun} {report : PublishReport}
    (h : OwnCargoRow run.row report) : ranAgain report "cargo" := by
  have hm : run.row ∈ cargoRows report.results := by rw [h.1]; exact List.mem_singleton_self _
  exact List.any_eq_true.mpr ⟨run.row, (List.mem_filter.mp hm).1, rfl⟩

/-- Folding an earlier row in touches no cargo row: that of the publisher is dropped. -/
theorem ownCargoRow_carryOne {run : CargoRun} {report : PublishReport} {earlier : PublisherResult}
    (h : OwnCargoRow run.row report) (hg : earlier.name = "cargo" → earlier.group = .submitter) :
    OwnCargoRow run.row (carryOne report earlier) := by
  unfold carryOne
  cases he : earlier.evidence with
  | none => exact h
  | some evidence =>
    by_cases hn : earlier.name = "cargo"
    · simp only [hg hn, if_true, hn, ranAgain_of_ownCargoRow h]
      exact h
    · have hc : OwnCargoRow run.row (carryRow report earlier evidence) := by
        refine ⟨h.1, List.filter_eq_nil_iff.mpr fun c hc => ?_⟩
        have hnone := List.filter_eq_nil_iff.mp h.2
        rcases mem_carryInto hc with hc | rfl | ⟨r, hr, _, _, hrn, _, _, rfl⟩
        · exact hnone c hc
        · simpa using hn
        · simpa [hrn] using hn
      simp only
      split_ifs
      · exact h
      · exact hc
      · split
        · rename_i results hj
          exact ⟨(cargoRows_of_joinsInto hn (joinsInto_of_joinInto hj)).trans h.1, h.2⟩
        · exact hc

theorem ownCargoRow_carryPriorWork {run : CargoRun} {prior : PublishReport}
    (hg : ∀ r ∈ prior.rows, r.name = "cargo" → r.group = .submitter) :
    OwnCargoRow run.row (carryPriorWork run.report prior) := by
  have key : ∀ rows : List PublisherResult, (∀ r ∈ rows, r.name = "cargo" → r.group = .submitter) →
      ∀ report, OwnCargoRow run.row report → OwnCargoRow run.row (rows.foldl carryOne report) := by
    intro rows
    induction rows with
    | nil => exact fun _ _ h => h
    | cons r rows ih =>
      intro hr report h
      exact ih (fun r' hr' => hr r' (List.mem_cons_of_mem _ hr')) _
        (ownCargoRow_carryOne h (hr r List.mem_cons_self))
  exact key _ (fun r hr => hg r (mem_earlierRows.mp hr).1) _ ⟨cargoRows_report run, rfl⟩

/-- No withdrawal state, and every cargo row on record is a submitter row. -/
structure SubmitterRecord (dir : RunDir) : Prop where
  notWithdrawn : dir.rollbackJson = none
  submitter : ∀ prior, dir.loadPriorState = some prior →
    ∀ r ∈ prior.rows, r.name = "cargo" → r.group = .submitter

/-- A failing run leaves its own cargo row on record and no other. -/
theorem ownCargoRow_write {dir : RunDir} (run : CargoRun) (h : SubmitterRecord dir) :
    (writeReportToRunDir dir run.report).rollbackJson = none ∧
      ∃ report, (writeReportToRunDir dir run.report).loadPriorState = some report ∧
        OwnCargoRow run.row report := by
  have hne : run.report.results ≠ [] := by simp [report]
  cases hp : dir.loadPriorState with
  | none =>
    have hw : writeReportToRunDir dir run.report = { reportJson := some run.report } := by
      rw [writeReportToRunDir, if_neg (by simpa using hne), hp]
    rw [hw]
    exact ⟨rfl, run.report, rfl, cargoRows_report run, rfl⟩
  | some prior =>
    refine ⟨?_, _, loadPriorState_write hne hp (by simp [h.notWithdrawn]),
      ownCargoRow_carryPriorWork (h.submitter prior hp)⟩
    rw [writeReportToRunDir, if_neg (by simpa using hne), hp]
    dsimp only
    split
    · exact h.notWithdrawn
    · rfl

theorem submitterRecord_write {dir : RunDir} {run : CargoRun} (h : SubmitterRecord dir) :
    SubmitterRecord (writeReportToRunDir dir run.report) := by
  obtain ⟨hroll, report, hload, hown⟩ := ownCargoRow_write run h
  refine ⟨hroll, fun prior hp r hr hn => ?_⟩
  obtain rfl := Option.some_inj.mp (hload.symm.trans hp)
  have hm : r ∈ cargoRows report.rows := List.mem_filter.mpr ⟨hr, by simp [hn]⟩
  rw [ownCargoRow_rows hown, List.mem_singleton] at hm
  rw [hm]
  rfl

theorem submitterRecord_persisted (runs : List CargoRun) : SubmitterRecord (persisted runs) := by
  induction runs using List.reverseRecOn with
  | nil => exact ⟨rfl, nofun⟩
  | append_singleton runs run ih =>
    rw [persisted, List.foldl_append, List.foldl_cons, List.foldl_nil]
    exact submitterRecord_write ih

/-- After runs that all fail in the cargo publisher, the one cargo row on record is that of the
last run: a withdrawal selects it, and it names the crates of that run. -/
theorem last_yank_record (runs : List CargoRun) (last : CargoRun) :
    ∃ report, (persisted (runs ++ [last])).loadPriorState = some report ∧
      cargoRows report.rows = [last.row] ∧ last.row.group = .submitter ∧
      last.row.rollbackCandidate ∧ last.row.targets = last.published.map .cargo := by
  obtain ⟨-, report, hload, hown⟩ :=
    ownCargoRow_write last (submitterRecord_persisted runs)
  refine ⟨report, ?_, ownCargoRow_rows hown, rfl, rollbackCandidate_row last, targets_row last⟩
  rw [← hload, persisted, List.foldl_append, List.foldl_cons, List.foldl_nil]
  rfl

namespace Demo

/-- A run that published the crates and then failed. -/
def failedRun (published : List CargoYankTargetSnapshot) : CargoRun where
  before := []
  after := []
  others := by simp
  required := true
  msg := "cargo publish exited with status 101"
  evidence := .new "cargo"
  published := published
  entrySkips := []

def crateA : CargoYankTargetSnapshot := ⟨"a", "1.0.0", none, none⟩

def crateB : CargoYankTargetSnapshot := ⟨"b", "1.0.0", none, none⟩

end Demo

/-- The first run published `a`, the second `b`; no row on record names `a` any more. -/
theorem earlier_yank_target_dropped :
    ∃ report, (persisted [Demo.failedRun [Demo.crateA], Demo.failedRun [Demo.crateB]]).loadPriorState =
        some report ∧
      ∀ r ∈ report.rows, .cargo Demo.crateA ∉ r.targets :=
  ⟨_, rfl, by decide⟩

end Anodizer
