import Anodizer.Publish.Rollback
import Mathlib.Data.List.Induction

/-! # Work carried across the runs of a release

Each run writes its own report and takes in what earlier runs recorded and did
not withdraw: by joining evidence of one kind, or by carrying the earlier row.
-/

namespace Anodizer

namespace PublisherResult

def withEvidence (r : PublisherResult) (evidence : PublishEvidence) : PublisherResult :=
  { r with evidence := some evidence }

variable {r : PublisherResult} {e : PublishEvidence}

@[simp] theorem name_withEvidence : (r.withEvidence e).name = r.name := rfl

@[simp] theorem group_withEvidence : (r.withEvidence e).group = r.group := rfl

@[simp] theorem outcome_withEvidence : (r.withEvidence e).outcome = r.outcome := rfl

@[simp] theorem evidence_withEvidence : (r.withEvidence e).evidence = some e := rfl

end PublisherResult

/-- Join the earlier evidence into this run's first candidate row of the name. -/
def joinInto (name : String) (earlier : PublishEvidence) :
    List PublisherResult → Option (List PublisherResult)
  | [] => none
  | r :: rs =>
    if r.rollbackCandidate && r.name == name then
      match r.evidence with
      | some mine =>
        if mine.recordsPublishedWork then
          (mine.absorbPrior earlier).map fun joined => r.withEvidence joined :: rs
        else none
      | none => none
    else (joinInto name earlier rs).map (r :: ·)

/-- Put the earlier row among the carried ones: joined into the row of its name when the two
records join, in place of that row when they do not. -/
def carryInto (earlier : PublisherResult) (evidence : PublishEvidence) :
    List PublisherResult → List PublisherResult
  | [] => [earlier]
  | r :: rs =>
    if r.name == earlier.name then
      match r.evidence.bind (·.absorbPrior evidence) with
      | some joined => r.withEvidence joined :: rs
      | none => earlier :: rs
    else r :: carryInto earlier evidence rs

def carryRow (report : PublishReport) (earlier : PublisherResult) (evidence : PublishEvidence) :
    PublishReport :=
  { report with carriedForward := carryInto earlier evidence report.carriedForward }

/-- The run reached the publisher itself. -/
def ranAgain (report : PublishReport) (name : String) : Bool :=
  report.results.any fun r => r.name == name &&
    match r.outcome with
    | .succeeded | .failed _ | .skipped .alreadyPublished => true
    | _ => false

/-- Fold one earlier candidate row in. -/
def carryOne (report : PublishReport) (earlier : PublisherResult) : PublishReport :=
  match earlier.evidence with
  | none => report
  | some evidence =>
    if earlier.group = .submitter then
      if ranAgain report earlier.name then report else carryRow report earlier evidence
    else
      match joinInto earlier.name evidence report.results with
      | some results => { report with results }
      | none => carryRow report earlier evidence

/-- The earlier rows a run looks at, carried ones first. -/
def earlierRows (prior : PublishReport) : List PublisherResult :=
  prior.carriedForward.filter (·.rollbackCandidate) ++ prior.results.filter (·.rollbackCandidate)

/-- Fold into the report what an earlier run recorded and has not withdrawn. -/
def carryPriorWork (report prior : PublishReport) : PublishReport :=
  (earlierRows prior).foldl carryOne report

/-- The files of a run directory that hold the state of a release. -/
structure RunDir where
  reportJson : Option PublishReport := none
  rollbackJson : Option PublishReport := none
  deriving DecidableEq, Repr

/-- The persisted report: the state of the last withdrawal, else the report of the last run. -/
def RunDir.loadPriorState (dir : RunDir) : Option PublishReport :=
  match dir.rollbackJson with
  | some state => some state
  | none => dir.reportJson

/-- The end of a run: fold the persisted state in and write the report. -/
def writeReportToRunDir (dir : RunDir) (report : PublishReport) : RunDir :=
  if report.results.isEmpty then dir
  else match dir.loadPriorState with
    | none => { reportJson := some report, rollbackJson := none }
    | some prior =>
      let report := carryPriorWork report prior
      -- The same bytes are not written again, and then the withdrawal state stays too.
      if dir.reportJson = some report then dir
      else { reportJson := some report, rollbackJson := none }

/-- A withdrawal pass over the persisted report. -/
def withdraw (registry : Registry) (dir : RunDir) : RunDir :=
  match dir.loadPriorState with
  | none => dir
  | some prior => { dir with rollbackJson := some (Rollback.runWithPublishers registry prior).1 }

namespace PublisherResult

/-- The targets a row's evidence names. -/
def targets (r : PublisherResult) : List Target :=
  match r.evidence with
  | some evidence => evidence.extra.targets
  | none => []

theorem targets_of_evidence {r : PublisherResult} {e : PublishEvidence} (h : r.evidence = some e) :
    r.targets = e.extra.targets := by
  simp [targets, h]

/-- A join leaves a candidate a candidate. -/
theorem rollbackCandidate_join {r : PublisherResult} {e prior joined : PublishEvidence}
    (he : r.evidence = some e) (h : e.absorbPrior prior = some joined)
    (hc : r.rollbackCandidate) : (r.withEvidence joined).rollbackCandidate := by
  have hw := PublishEvidence.recordsPublishedWork_absorbPrior h
  unfold rollbackCandidate at hc ⊢
  rw [group_withEvidence, outcome_withEvidence]
  cases hg : r.group <;> simp only [hg] at hc
  · cases ho : r.outcome <;> simp_all
  · cases ho : r.outcome <;> simp_all
  · exact hc

end PublisherResult

/-- Some candidate row of the name names the target. -/
def Named (rows : List PublisherResult) (name : String) (t : Target) : Prop :=
  ∃ r ∈ rows, r.rollbackCandidate ∧ r.name = name ∧ t ∈ r.targets

instance (rows : List PublisherResult) (name : String) (t : Target) :
    Decidable (Named rows name t) :=
  inferInstanceAs (Decidable (∃ r ∈ rows, _))

theorem named_cons {r : PublisherResult} {rows : List PublisherResult} {name : String}
    {t : Target} : Named (r :: rows) name t ↔
      (r.rollbackCandidate ∧ r.name = name ∧ t ∈ r.targets) ∨ Named rows name t := by
  simp [Named]

@[simp] theorem not_named_nil {name : String} {t : Target} : ¬ Named [] name t := by
  simp [Named]

theorem named_append {rows rows' : List PublisherResult} {name : String} {t : Target} :
    Named (rows ++ rows') name t ↔ Named rows name t ∨ Named rows' name t := by
  simp [Named, or_and_right, exists_or]

section Join

variable {name n : String} {evidence e joined : PublishEvidence} {r : PublisherResult}
  {rows rows' : List PublisherResult} {t : Target}

theorem targets_join (he : r.evidence = some e) (h : e.absorbPrior evidence = some joined) :
    t ∈ (r.withEvidence joined).targets ↔
      t ∈ r.targets ∨ t ∈ evidence.extra.targets := by
  rw [PublisherResult.targets_of_evidence he]
  exact PublishEvidence.mem_targets_absorbPrior h

/-- A successful join rewrites the first candidate row of the name, whose record shows work. -/
inductive JoinsInto (name : String) (evidence : PublishEvidence) :
    List PublisherResult → List PublisherResult → Prop
  | here {r : PublisherResult} {rs : List PublisherResult} {e joined : PublishEvidence}
      (hc : r.rollbackCandidate) (hn : r.name = name) (he : r.evidence = some e)
      (hw : e.recordsPublishedWork) (h : e.absorbPrior evidence = some joined) :
      JoinsInto name evidence (r :: rs) (r.withEvidence joined :: rs)
  | there {r : PublisherResult} {rs rs' : List PublisherResult}
      (hr : (r.rollbackCandidate && r.name == name) = false) (h : JoinsInto name evidence rs rs') :
      JoinsInto name evidence (r :: rs) (r :: rs')

theorem joinsInto_of_joinInto (h : joinInto name evidence rows = some rows') :
    JoinsInto name evidence rows rows' := by
  induction rows generalizing rows' with
  | nil => cases h
  | cons r rs ih =>
    unfold joinInto at h
    by_cases hr : r.rollbackCandidate && r.name == name
    · cases he : r.evidence with
      | none => simp [hr, he] at h
      | some e =>
        by_cases hw : e.recordsPublishedWork
        · obtain ⟨joined, hj, rfl⟩ := Option.map_eq_some_iff.mp (by simpa [hr, he, hw] using h)
          simp only [Bool.and_eq_true, beq_iff_eq] at hr
          exact .here hr.1 hr.2 he hw hj
        · simp [hr, he, hw] at h
    · rw [if_neg hr] at h
      obtain ⟨rs', hrs, rfl⟩ := Option.map_eq_some_iff.mp h
      exact .there (eq_false_of_ne_true hr) (ih hrs)

/-- A join keeps every named target and adds the earlier ones. -/
theorem named_of_joinsInto (h : JoinsInto name evidence rows rows') :
    Named rows' n t ↔ Named rows n t ∨ n = name ∧ t ∈ evidence.extra.targets := by
  induction h with
  | here hc hn he hw h =>
    have hc' := PublisherResult.rollbackCandidate_join he h hc
    simp only [named_cons, targets_join he h, hc, hc', true_and, hn,
      PublisherResult.name_withEvidence]
    tauto
  | there hr h ih =>
    rw [named_cons, named_cons, ih, or_assoc]

/-- A join changes nothing about which later joins succeed. -/
theorem isSome_joinInto_of_joinsInto {name' : String} {evidence' : PublishEvidence}
    (h : JoinsInto name evidence rows rows') :
    (joinInto name' evidence' rows').isSome = (joinInto name' evidence' rows).isSome := by
  induction h with
  | @here r rs e joined hc hn he hw h =>
    have hc' := PublisherResult.rollbackCandidate_join he h hc
    have hw' := PublishEvidence.recordsPublishedWork_absorbPrior h hw
    have hj := PublishEvidence.absorbPrior_isSome_join (q := evidence') h
    unfold joinInto
    by_cases hn' : r.name = name'
    · simp only [hc, hc', hn', beq_self_eq_true, Bool.and_self, if_true, he, hw, hw',
        Option.isSome_map, PublisherResult.name_withEvidence,
        PublisherResult.evidence_withEvidence]
      exact Bool.eq_iff_iff.mpr hj
    · simp [hn']
  | @there r rs rs' hr h ih =>
    unfold joinInto
    split
    · cases r.evidence with
      | none => rfl
      | some mine => cases hw : mine.recordsPublishedWork <;> simp [hw]
    · simpa using ih

theorem mem_of_joinsInto (h : JoinsInto name evidence rows rows') (hr : r ∈ rows') :
    ∃ r' ∈ rows, r.name = r'.name ∧ r.group = r'.group ∧ r.outcome = r'.outcome := by
  induction h with
  | @here r' rs e joined _ _ _ _ _ =>
    rcases List.mem_cons.mp hr with rfl | hr
    · exact ⟨r', List.mem_cons_self, rfl, rfl, rfl⟩
    · exact ⟨r, List.mem_cons_of_mem _ hr, rfl, rfl, rfl⟩
  | there _ _ ih =>
    rcases List.mem_cons.mp hr with rfl | hr
    · exact ⟨r, List.mem_cons_self, rfl, rfl, rfl⟩
    · obtain ⟨r', hr', h⟩ := ih hr
      exact ⟨r', List.mem_cons_of_mem _ hr', h⟩

end Join

section Carry

variable {earlier c : PublisherResult} {evidence : PublishEvidence} {n : String} {t : Target}
  {rows : List PublisherResult}

theorem named_carryInto_of_ne (h : n ≠ earlier.name) :
    Named (carryInto earlier evidence rows) n t ↔ Named rows n t := by
  induction rows with
  | nil => simp [carryInto, named_cons, h.symm]
  | cons r rs ih =>
    unfold carryInto
    split
    · rename_i hr
      have hr : r.name ≠ n := fun he => h (he.symm.trans (beq_iff_eq.mp hr))
      split <;> simp [named_cons, hr, h.symm]
    · rw [named_cons, named_cons, ih]

/-- Carrying loses nothing when the carried row of the name joins or names nothing. -/
theorem named_carryInto (hc : earlier.rollbackCandidate) (he : earlier.evidence = some evidence)
    (hrows : ∀ r ∈ rows, r.name = earlier.name → r.rollbackCandidate ∧
      ((r.evidence.bind (·.absorbPrior evidence)).isSome ∨ r.targets = [])) :
    Named (carryInto earlier evidence rows) n t ↔
      Named rows n t ∨ n = earlier.name ∧ t ∈ evidence.extra.targets := by
  have ht := PublisherResult.targets_of_evidence he
  induction rows with
  | nil =>
    simp only [carryInto, named_cons, hc, ht, true_and, not_named_nil, or_false, false_or]
    rw [eq_comm]
  | cons r rs ih =>
    unfold carryInto
    split
    · rename_i hr
      have hr := beq_iff_eq.mp hr
      obtain ⟨hcr, hj⟩ := hrows r List.mem_cons_self hr
      split
      · rename_i joined hb
        obtain ⟨e, hre, hj⟩ := Option.bind_eq_some_iff.mp hb
        have hcj := PublisherResult.rollbackCandidate_join hre hj hcr
        simp only [named_cons, targets_join hre hj, hcr, hcj, true_and, hr,
          PublisherResult.name_withEvidence]
        tauto
      · rename_i hb
        have hnil : r.targets = [] := by simpa [hb] using hj
        simp only [named_cons, hc, true_and, ht, hnil, List.not_mem_nil, and_false, false_or]
        tauto
    · have ih := ih fun r' hr' => hrows r' (List.mem_cons_of_mem _ hr')
      simp only [named_cons]
      tauto

theorem mem_carryInto (h : c ∈ carryInto earlier evidence rows) : c ∈ rows ∨ c = earlier ∨
    ∃ r ∈ rows, ∃ e joined, r.name = earlier.name ∧ r.evidence = some e ∧
      e.absorbPrior evidence = some joined ∧ c = r.withEvidence joined := by
  induction rows with
  | nil => exact .inr (.inl (List.mem_singleton.mp h))
  | cons r rs ih =>
    unfold carryInto at h
    split at h
    · rename_i hr
      split at h
      · rename_i joined hb
        obtain ⟨e, hre, hj⟩ := Option.bind_eq_some_iff.mp hb
        rcases List.mem_cons.mp h with rfl | h
        · exact .inr (.inr ⟨r, List.mem_cons_self, e, joined, beq_iff_eq.mp hr, hre, hj, rfl⟩)
        · exact .inl (List.mem_cons_of_mem _ h)
      · rcases List.mem_cons.mp h with rfl | h
        · exact .inr (.inl rfl)
        · exact .inl (List.mem_cons_of_mem _ h)
    · rcases List.mem_cons.mp h with rfl | h
      · exact .inl List.mem_cons_self
      · rcases ih h with h | h | ⟨r', hr', h⟩
        · exact .inl (List.mem_cons_of_mem _ h)
        · exact .inr (.inl h)
        · exact .inr (.inr ⟨r', List.mem_cons_of_mem _ hr', h⟩)

end Carry

/-- The publisher kind a row's evidence is of. -/
def PublisherResult.kind (r : PublisherResult) : Option (Fin 21) :=
  r.evidence.bind (·.extra.kind)

/-- Neither this run's rows nor its outcomes settle the earlier row: it must be carried. -/
def leftOver (report : PublishReport) (earlier : PublisherResult) : Bool :=
  match earlier.evidence with
  | none => false
  | some evidence =>
    if earlier.group = .submitter then !ranAgain report earlier.name
    else (joinInto earlier.name evidence report.results).isNone

/-- No two rows to carry for one assets or manager publisher are of different evidence kinds,
unless the earlier one names nothing. -/
def CarryClean (report prior : PublishReport) : Prop :=
  ((earlierRows prior).filter (leftOver report)).Pairwise fun a b =>
    a.name = b.name → a.group ≠ .submitter → a.kind = b.kind ∨ a.targets = []

instance (report prior : PublishReport) : Decidable (CarryClean report prior) :=
  inferInstanceAs (Decidable (List.Pairwise _ _))

/-- What holds of a report while the earlier rows `seen` have been folded in. -/
structure CarryInv (groupOf : String → PublisherGroup) (report : PublishReport)
    (seen : List PublisherResult) (cur : PublishReport) : Prop where
  grouped : ∀ r ∈ cur.rows, r.group = groupOf r.name
  joins : ∀ n e, (joinInto n e cur.results).isSome = (joinInto n e report.results).isSome
  own : ∀ n t, Named report.results n t → Named cur.results n t
  taken : ∀ a ∈ seen, groupOf a.name ≠ .submitter → ∀ t ∈ a.targets, Named cur.rows a.name t
  carried : ∀ c ∈ cur.carriedForward, groupOf c.name ≠ .submitter → c.rollbackCandidate ∧
    ∀ t ∈ c.targets, ∃ a ∈ seen, leftOver report a ∧ a.name = c.name ∧ t ∈ a.targets

section Fold

variable {groupOf : String → PublisherGroup} {report cur : PublishReport}
  {seen : List PublisherResult} {b : PublisherResult} {evidence : PublishEvidence}

theorem carryInv_skip (h : CarryInv groupOf report seen cur)
    (hb : groupOf b.name = .submitter ∨ b.targets = []) : CarryInv groupOf report (seen ++ [b]) cur where
  grouped := h.grouped
  joins := h.joins
  own := h.own
  taken a ha hg t ht := by
    rcases List.mem_append.mp ha with ha | ha
    · exact h.taken a ha hg t ht
    · obtain rfl := List.mem_singleton.mp ha
      rcases hb with hb | hb
      · exact absurd hb hg
      · simp [hb] at ht
  carried c hc hg := by
    obtain ⟨hcand, hfrom⟩ := h.carried c hc hg
    refine ⟨hcand, fun t ht => ?_⟩
    obtain ⟨a, ha, h⟩ := hfrom t ht
    exact ⟨a, List.mem_append_left _ ha, h⟩

theorem carryInv_join (h : CarryInv groupOf report seen cur) (he : b.evidence = some evidence)
    {results : List PublisherResult} (hj : joinInto b.name evidence cur.results = some results) :
    CarryInv groupOf report (seen ++ [b]) { cur with results } := by
  have hj := joinsInto_of_joinInto hj
  have hup : ∀ n t, Named cur.rows n t →
      Named (PublishReport.rows { cur with results }) n t := by
    intro n t hn
    rw [PublishReport.rows, named_append] at hn ⊢
    exact hn.imp_left fun hn => (named_of_joinsInto hj).mpr (.inl hn)
  refine ⟨fun r hr => ?_, fun n e => ?_, fun n t hn => ?_, fun a ha hg t ht => ?_, ?_⟩
  · rcases List.mem_append.mp hr with hr | hr
    · obtain ⟨r', hr', hn, hg, _⟩ := mem_of_joinsInto hj hr
      rw [hn, hg]
      exact h.grouped r' (List.mem_append_left _ hr')
    · exact h.grouped r (List.mem_append_right _ hr)
  · rw [← h.joins n e]
    exact isSome_joinInto_of_joinsInto hj
  · exact (named_of_joinsInto hj).mpr (.inl (h.own n t hn))
  · rcases List.mem_append.mp ha with ha | ha
    · exact hup _ _ (h.taken a ha hg t ht)
    · obtain rfl := List.mem_singleton.mp ha
      rw [PublisherResult.targets_of_evidence he] at ht
      exact named_append.mpr (.inl ((named_of_joinsInto hj).mpr (.inr ⟨rfl, ht⟩)))
  · intro c hc hg
    obtain ⟨hcand, hfrom⟩ := h.carried c hc hg
    refine ⟨hcand, fun t ht => ?_⟩
    obtain ⟨a, ha, h⟩ := hfrom t ht
    exact ⟨a, List.mem_append_left _ ha, h⟩

theorem carryInv_carry (h : CarryInv groupOf report seen cur) (hc : b.rollbackCandidate)
    (hg : b.group = groupOf b.name) (he : b.evidence = some evidence)
    (hl : b.group ≠ .submitter → leftOver report b)
    (hclean : b.group ≠ .submitter → ∀ a ∈ seen, leftOver report a → a.name = b.name →
      a.kind = b.kind ∨ a.targets = []) :
    CarryInv groupOf report (seen ++ [b]) (carryRow cur b evidence) := by
  have hrows : b.group ≠ .submitter → ∀ r ∈ cur.carriedForward, r.name = b.name →
      r.rollbackCandidate ∧
        ((r.evidence.bind (·.absorbPrior evidence)).isSome ∨ r.targets = []) := by
    intro hbg r hr hn
    obtain ⟨hcand, hfrom⟩ := h.carried r hr (by rwa [hn, ← hg])
    refine ⟨hcand, ?_⟩
    cases hre : r.evidence with
    | none => exact .inr (by simp [PublisherResult.targets, hre])
    | some e =>
      rw [PublisherResult.targets_of_evidence hre] at hfrom ⊢
      by_cases hnil : e.extra.targets = []
      · exact .inr hnil
      -- The carried row names a target of an earlier leftover row, which is of `b`'s kind.
      obtain ⟨t, ht⟩ := List.exists_mem_of_ne_nil _ hnil
      obtain ⟨a, ha, hla, han, hat⟩ := hfrom t ht
      have hk := PublishEvidenceExtra.kind_of_mem_targets ht
      have hka : a.kind = some t.kind := by
        cases hae : a.evidence with
        | none => simp [PublisherResult.targets, hae] at hat
        | some ea =>
          rw [PublisherResult.targets_of_evidence hae] at hat
          simp [PublisherResult.kind, hae, PublishEvidenceExtra.kind_of_mem_targets hat]
      rcases hclean hbg a ha hla (han.trans hn) with hkb | hempty
      · refine .inl (PublishEvidence.absorbPrior_isSome ?_ ?_)
        · rw [hk, ← hka, hkb]
          simp [PublisherResult.kind, he]
        · simp [hk]
      · simp [hempty] at hat
  have hup : ∀ n t, groupOf n ≠ .submitter → Named cur.carriedForward n t →
      Named (carryInto b evidence cur.carriedForward) n t := by
    intro n t hns hn
    by_cases hnb : n = b.name
    · subst hnb
      exact (named_carryInto hc he (hrows (by rwa [hg]))).mpr (.inl hn)
    · exact (named_carryInto_of_ne hnb).mpr hn
  refine ⟨fun r hr => ?_, h.joins, h.own, fun a ha hag t ht => ?_, fun c hcm hcg => ?_⟩
  · rcases List.mem_append.mp hr with hr | hr
    · exact h.grouped r (List.mem_append_left _ hr)
    · rcases mem_carryInto hr with hr | rfl | ⟨r', hr', _, _, _, _, _, rfl⟩
      · exact h.grouped r (List.mem_append_right _ hr)
      · exact hg
      · exact h.grouped r' (List.mem_append_right _ hr')
  · rcases List.mem_append.mp ha with ha | ha
    · have hn := h.taken a ha hag t ht
      rw [PublishReport.rows, named_append] at hn ⊢
      exact hn.imp_right (hup _ _ hag)
    · obtain rfl := List.mem_singleton.mp ha
      rw [PublisherResult.targets_of_evidence he] at ht
      exact named_append.mpr (.inr ((named_carryInto hc he (hrows (by rwa [hg]))).mpr (.inr ⟨rfl, ht⟩)))
  · rcases mem_carryInto hcm with hr | rfl | ⟨r', hr', e, joined, hn, hre, hj, rfl⟩
    · obtain ⟨hcand, hfrom⟩ := h.carried c hr hcg
      refine ⟨hcand, fun t ht => ?_⟩
      obtain ⟨a, ha, h⟩ := hfrom t ht
      exact ⟨a, List.mem_append_left _ ha, h⟩
    · exact ⟨hc, fun t ht => ⟨c, by simp, hl (by rwa [hg]), rfl, ht⟩⟩
    · obtain ⟨hcand, hfrom⟩ := h.carried r' hr' hcg
      refine ⟨PublisherResult.rollbackCandidate_join hre hj hcand, fun t ht => ?_⟩
      rcases (targets_join hre hj).mp ht with ht | ht
      · obtain ⟨a, ha, h⟩ := hfrom t ht
        exact ⟨a, List.mem_append_left _ ha, h⟩
      · rw [← PublisherResult.targets_of_evidence he] at ht
        exact ⟨b, by simp, hl (by rw [hg, ← hn]; exact hcg), hn.symm, ht⟩

/-- Folding in one earlier candidate row keeps the invariant. -/
theorem carryInv_carryOne (h : CarryInv groupOf report seen cur) (hc : b.rollbackCandidate)
    (hg : b.group = groupOf b.name)
    (hclean : b.group ≠ .submitter → leftOver report b → ∀ a ∈ seen, leftOver report a →
      a.name = b.name → a.kind = b.kind ∨ a.targets = []) :
    CarryInv groupOf report (seen ++ [b]) (carryOne cur b) := by
  unfold carryOne
  cases he : b.evidence with
  | none => exact carryInv_skip h (.inr (by simp [PublisherResult.targets, he]))
  | some evidence =>
    by_cases hs : b.group = .submitter
    · simp only [hs, if_true]
      split
      · exact carryInv_skip h (.inl (hg ▸ hs))
      · exact carryInv_carry h hc hg he (absurd hs) (absurd hs)
    · simp only [hs, if_false]
      cases hj : joinInto b.name evidence cur.results with
      | some results => exact carryInv_join h he hj
      | none =>
        have hl : leftOver report b := by
          have hi := h.joins b.name evidence
          rw [hj, Option.isSome_none, eq_comm, Option.isSome_eq_false_iff] at hi
          simpa [leftOver, he, hs] using hi
        exact carryInv_carry h hc hg he (fun _ => hl) fun hs => hclean hs hl

/-- A clean run folds every earlier row in without losing one. -/
theorem carryInv_foldl (hfresh : report.carriedForward = [])
    (hg : ∀ r ∈ report.results, r.group = groupOf r.name) {rows : List PublisherResult}
    (hrows : ∀ r ∈ rows, r.rollbackCandidate ∧ r.group = groupOf r.name)
    (hclean : (rows.filter (leftOver report)).Pairwise fun a b =>
      a.name = b.name → a.group ≠ .submitter → a.kind = b.kind ∨ a.targets = []) :
    CarryInv groupOf report rows (rows.foldl carryOne report) := by
  induction rows using List.reverseRecOn with
  | nil =>
    refine ⟨fun r hr => hg r (by simpa [PublishReport.rows, hfresh] using hr), fun _ _ => rfl,
      fun _ _ => id, fun a ha => by simp at ha, fun c hc => ?_⟩
    simp [hfresh] at hc
  | append_singleton rows b ih =>
    rw [List.filter_append, List.pairwise_append] at hclean
    obtain ⟨hc, hgb⟩ := hrows b (by simp)
    have hseen := fun r hr => hrows r (List.mem_append_left [b] hr)
    rw [List.foldl_append, List.foldl_cons, List.foldl_nil]
    refine carryInv_carryOne (ih hseen hclean.1) hc hgb fun hs hl a ha hla hn => ?_
    refine hclean.2.2 a (List.mem_filter.mpr ⟨ha, hla⟩) b (by simp [hl]) hn ?_
    rwa [(hseen a ha).2, hn, ← hgb]

theorem mem_earlierRows {prior : PublishReport} {r : PublisherResult} :
    r ∈ earlierRows prior ↔ r ∈ prior.rows ∧ r.rollbackCandidate := by
  simp [earlierRows, PublishReport.rows, or_comm, or_and_right]

/-- A clean run keeps every target of an assets or manager publisher on record. -/
theorem named_carryPriorWork {prior : PublishReport} (hfresh : report.carriedForward = [])
    (hg : ∀ r ∈ report.results, r.group = groupOf r.name)
    (hp : ∀ r ∈ prior.rows, r.group = groupOf r.name) (hclean : CarryClean report prior)
    {n : String} {t : Target} (hn : groupOf n ≠ .submitter)
    (h : Named report.results n t ∨ Named prior.rows n t) :
    Named (carryPriorWork report prior).rows n t := by
  have inv := carryInv_foldl hfresh hg (fun r hr =>
    ⟨(mem_earlierRows.mp hr).2, hp r (mem_earlierRows.mp hr).1⟩) hclean
  rcases h with h | ⟨r, hr, hc, rfl, ht⟩
  · exact named_append.mpr (.inl (inv.own n t h))
  · exact inv.taken r (mem_earlierRows.mpr ⟨hr, hc⟩) hn t ht

theorem grouped_carryPriorWork {prior : PublishReport} (hfresh : report.carriedForward = [])
    (hg : ∀ r ∈ report.results, r.group = groupOf r.name)
    (hp : ∀ r ∈ prior.rows, r.group = groupOf r.name) (hclean : CarryClean report prior) :
    ∀ r ∈ (carryPriorWork report prior).rows, r.group = groupOf r.name :=
  (carryInv_foldl hfresh hg (fun r hr =>
    ⟨(mem_earlierRows.mp hr).2, hp r (mem_earlierRows.mp hr).1⟩) hclean).grouped

end Fold

end Anodizer
