import Anodizer.Announce.Dispatch
import Mathlib.Data.Finset.Basic

/-! # Announcing a version again

A run marks the announcers that it saw succeed in a file of the dist directory, and skips those that
an earlier run marked. A run may die at any point, a write of the file may fail, and the workers of
a run go on after its dispatch returned.
-/

namespace Anodizer.Announce

structure SentRecord where
  version : String
  sent : Finset String

structure AnnounceSentMarker where
  path : String
  record : SentRecord

/-- The records that the files of a dist directory hold, where they can be read. -/
abbrev Dist := String → Option SentRecord

/-- What comes of writing a file: the new record, the old one, or one that cannot be read. -/
inductive Flush
  | written
  | refused
  | torn
  deriving DecidableEq, Repr

def sanitizeVersion (version : String) : String :=
  version.map fun c => if c.isAlphanum || c = '.' || c = '_' || c = '-' then c else '_'

namespace AnnounceSentMarker

def pathFor (version : String) : String :=
  ".announce-sent-" ++ sanitizeVersion version ++ ".json"

def load (dist : Dist) (version : String) : AnnounceSentMarker where
  path := pathFor version
  record := (dist (pathFor version)).getD ⟨version, ∅⟩

def alreadySent (m : AnnounceSentMarker) (announcer : String) : Bool := announcer ∈ m.record.sent

def flush (m : AnnounceSentMarker) (dist : Dist) : Flush → Dist
  | .written => Function.update dist m.path (some m.record)
  | .refused => dist
  | .torn => Function.update dist m.path none

def insertSent (m : AnnounceSentMarker) (announcer : String) : AnnounceSentMarker :=
  { m with record := { m.record with sent := insert announcer m.record.sent } }

def markSent (m : AnnounceSentMarker) (dist : Dist) (announcer : String) (w : Flush) :
    AnnounceSentMarker × Dist :=
  if announcer ∈ m.record.sent then (m, dist)
  else (m.insertSent announcer, (m.insertSent announcer).flush dist w)

/-- The marks of a run, each with what came of its write. -/
def markAll : AnnounceSentMarker → Dist → List (String × Flush) → Dist
  | _, dist, [] => dist
  | m, dist, (p, w) :: ms => markAll (m.markSent dist p w).1 (m.markSent dist p w).2 ms

end AnnounceSentMarker

open AnnounceSentMarker

/-- What rendering the templates of an announcer comes to. -/
inductive Rendered
  | queued
  | quiet
  | failed (text : String)

def announcerRegistry : List String :=
  ["discord", "discourse", "slack", "webhook", "telegram", "teams", "mattermost", "reddit",
    "twitter", "mastodon", "bluesky", "linkedin", "opencollective", "email"]

/-- The announcers of a list that are enabled. The first template that does not render ends it. -/
def enabledAmong (enabled : String → Except String Bool) :
    List String → Except String (List String)
  | [] => .ok []
  | a :: names =>
    match enabled a with
    | .error text => .error text
    | .ok on => (enabledAmong enabled names).map fun active => if on then a :: active else active

def enabledAnnouncers (enabled : String → Except String Bool) : Except String (List String) :=
  enabledAmong enabled announcerRegistry

/-- The sends that the render pass queues, and its errors. -/
def renderPass (marker : AnnounceSentMarker) (render : String → Rendered) :
    List String → List String × List String
  | [] => ([], [])
  | a :: active =>
    let rest := renderPass marker render active
    if marker.alreadySent a then rest
    else
      match render a with
      | .queued => (a :: rest.1, rest.2)
      | .quiet => rest
      | .failed text => (rest.1, (a ++ ": " ++ text) :: rest.2)

/-- A run of the stage at a version: what its templates give, what its workers and its collector
do until the process ends, and the marks that it makes. -/
structure StageRun where
  version : String
  enabled : String → Except String Bool
  render : String → Rendered
  trace : List Event
  marks : List (String × Flush)

/-- The sends that a run queues. A template that does not render ends the run before any. -/
def StageRun.queue (r : StageRun) (dist : Dist) : List String :=
  match enabledAnnouncers r.enabled with
  | .ok active => (renderPass (load dist r.version) r.render active).1
  | .error _ => []

/-- A run of the stage over a dist directory. Marks are made behind the dispatch, in the order of
its successes, as far as the process gets. -/
inductive StageRun.Ran (r : StageRun) (dist : Dist) : Dist → Prop
  | mk {s : Pool} (htrace : Pool.Run (r.queue dist) r.trace s)
      (hmarks : r.marks = [] ∨ ∃ tr o, tr <+: r.trace ∧ RunsQueue (r.queue dist) tr o ∧
        r.marks.map Prod.fst <+: o.succeeded) :
      r.Ran dist ((load dist r.version).markAll dist r.marks)

/-- Runs one after the other over one dist directory, which held no marks before. -/
inductive StageRuns : List StageRun → Dist → Prop
  | nil : StageRuns [] fun _ => none
  | snoc {rs : List StageRun} {dist dist' : Dist} {r : StageRun} (h : StageRuns rs dist)
      (hran : r.Ran dist dist') : StageRuns (rs ++ [r]) dist'

/-- Whether a mark is on disk after the last one: its own write or a later one went through. -/
def Persisted (a : String) : List (String × Flush) → Prop
  | [] => False
  | (p, w) :: ms => a = p ∧ .written ∈ w :: ms.map Prod.snd ∨ Persisted a ms

variable {dist dist' : Dist} {m : AnnounceSentMarker} {ms : List (String × Flush)} {a v : String}
  {r : StageRun} {rs : List StageRun}

theorem Persisted.mem (h : Persisted a ms) : a ∈ ms.map Prod.fst := by
  induction ms with
  | nil => exact h.elim
  | cons x ms ih =>
    obtain ⟨p, w⟩ := x
    rcases h with ⟨rfl, -⟩ | h
    · exact List.mem_cons_self
    · exact List.mem_cons_of_mem _ (ih h)

/-! ### The marks on disk -/

/-- The announcers that a file lists. -/
def sentAt (dist : Dist) (path : String) : Finset String := ((dist path).map (·.sent)).getD ∅

@[simp] theorem load_path (dist : Dist) (v : String) : (load dist v).path = pathFor v := rfl

theorem load_sent (dist : Dist) (v : String) :
    (load dist v).record.sent = sentAt dist (pathFor v) := by
  rw [load, sentAt]
  cases dist (pathFor v) <;> rfl

theorem alreadySent_iff : (load dist v).alreadySent a = true ↔ a ∈ sentAt dist (pathFor v) := by
  rw [alreadySent, decide_eq_true_eq, load_sent]

@[simp] theorem insertSent_path (m : AnnounceSentMarker) (a : String) :
    (m.insertSent a).path = m.path := rfl

@[simp] theorem insertSent_sent (m : AnnounceSentMarker) (a : String) :
    (m.insertSent a).record.sent = insert a m.record.sent := rfl

theorem sentAt_markAll_of_ne {path : String} (hpath : path ≠ m.path) :
    sentAt (m.markAll dist ms) path = sentAt dist path := by
  induction ms generalizing m dist with
  | nil => rfl
  | cons x ms ih =>
    obtain ⟨p, w⟩ := x
    rw [markAll]
    unfold markSent
    split
    · exact ih hpath
    · rw [ih (m := m.insertSent p) hpath]
      cases w <;> simp [flush, sentAt, hpath]

/-- The marks of new announcers go to disk with the first write that goes through. -/
theorem mem_sentAt_markAll (hsub : sentAt dist m.path ⊆ m.record.sent)
    (hnew : ∀ p ∈ ms.map Prod.fst, p ∉ m.record.sent) (hnodup : (ms.map Prod.fst).Nodup)
    (hwhole : .torn ∉ ms.map Prod.snd) :
    a ∈ sentAt (m.markAll dist ms) m.path ↔
      a ∈ sentAt dist m.path ∨ a ∈ m.record.sent ∧ .written ∈ ms.map Prod.snd ∨
        Persisted a ms := by
  induction ms generalizing m dist with
  | nil => simp [markAll, Persisted]
  | cons x ms ih =>
    obtain ⟨p, w⟩ := x
    obtain ⟨hp, hnew⟩ := List.forall_mem_cons.mp hnew
    obtain ⟨hpms, hrestnodup⟩ := List.nodup_cons.mp hnodup
    obtain ⟨hw, hrestwhole⟩ := not_or.mp (mt List.mem_cons.mpr hwhole)
    have hrest : ∀ q ∈ ms.map Prod.fst, q ∉ (m.insertSent p).record.sent := by
      intro q hq hin
      rcases Finset.mem_insert.mp hin with rfl | hin
      · exact hpms hq
      · exact hnew q hq hin
    rw [markAll, markSent, if_neg hp]
    cases w with
    | torn => exact absurd rfl hw
    | written =>
      have hdisk : sentAt ((m.insertSent p).flush dist .written) (m.insertSent p).path =
          insert p m.record.sent := by
        simp [flush, sentAt]
      have hin := ih (m := m.insertSent p) hdisk.subset hrest hrestnodup hrestwhole
      rw [insertSent_path] at hin hdisk
      rw [hin, hdisk]
      simp only [Persisted, List.map_cons, List.mem_cons, Finset.mem_insert, insertSent_sent,
        true_or, and_true]
      constructor
      · rintro ((heq | hs) | ⟨heq | hs, -⟩ | hms)
        exacts [.inr (.inr (.inl heq)), .inr (.inl hs), .inr (.inr (.inl heq)), .inr (.inl hs),
          .inr (.inr (.inr hms))]
      · rintro (hd | hs | heq | hms)
        exacts [.inl (.inr (hsub hd)), .inl (.inr hs), .inl (.inl heq), .inr (.inr hms)]
    | refused =>
      have hin := @ih dist (m.insertSent p)
        (hsub.trans (Finset.subset_insert ..)) hrest hrestnodup hrestwhole
      rw [insertSent_path] at hin
      rw [flush, hin]
      simp only [Persisted, List.map_cons, List.mem_cons, Finset.mem_insert, insertSent_sent,
        reduceCtorEq, false_or]
      constructor
      · rintro (hd | ⟨heq | hs, hw⟩ | hms)
        exacts [.inl hd, .inr (.inr (.inl ⟨heq, hw⟩)), .inr (.inl ⟨hs, hw⟩), .inr (.inr (.inr hms))]
      · rintro (hd | ⟨hs, hw⟩ | ⟨heq, hw⟩ | hms)
        exacts [.inl hd, .inr (.inl ⟨.inr hs, hw⟩), .inr (.inl ⟨.inl heq, hw⟩), .inr (.inr hms)]

/-! ### What a run queues -/

theorem mem_renderPass {marker : AnnounceSentMarker} {render : String → Rendered}
    {active : List String} (h : a ∈ (renderPass marker render active).1) :
    marker.alreadySent a = false := by
  induction active with
  | nil => simp [renderPass] at h
  | cons b active ih =>
    rw [renderPass] at h
    split at h
    · exact ih h
    · next hb =>
      split at h
      · rcases List.mem_cons.mp h with rfl | h
        · simpa using hb
        · exact ih h
      · exact ih h
      · exact ih h

theorem renderPass_sublist (marker : AnnounceSentMarker) (render : String → Rendered)
    (active : List String) : (renderPass marker render active).1.Sublist active := by
  induction active with
  | nil => exact .slnil
  | cons b active ih =>
    rw [renderPass]
    split
    · exact ih.cons b
    · split
      · exact ih.cons_cons b
      · exact ih.cons b
      · exact ih.cons b

theorem enabledAmong_sublist {enabled : String → Except String Bool} {names active : List String}
    (h : enabledAmong enabled names = .ok active) : active.Sublist names := by
  induction names generalizing active with
  | nil =>
    cases h
    exact .slnil
  | cons b names ih =>
    rw [enabledAmong] at h
    split at h
    · cases h
    · next on hon =>
      cases hrest : enabledAmong enabled names with
      | error text => simp [hrest, Except.map] at h
      | ok rest =>
        rw [hrest] at h
        cases h
        cases on with
        | true => exact (ih hrest).cons_cons b
        | false => exact (ih hrest).cons b

theorem queue_nodup (r : StageRun) (dist : Dist) : (r.queue dist).Nodup := by
  unfold StageRun.queue
  split
  · next active h =>
    have hregistry : announcerRegistry.Nodup := by decide
    exact hregistry.sublist ((renderPass_sublist ..).trans (enabledAmong_sublist h))
  · exact .nil

theorem not_alreadySent_of_mem_queue (h : a ∈ r.queue dist) :
    (load dist r.version).alreadySent a = false := by
  unfold StageRun.queue at h
  split at h
  · exact mem_renderPass h
  · cases h

theorem mem_queue_of_pop {queue : List String} {tr : List Event} {s : Pool}
    (h : Pool.Run queue tr s) (hpop : .pop a ∈ tr) : a ∈ queue := by
  have hin : a ∈ tr.filterMap Event.begun := List.mem_filterMap.mpr ⟨_, hpop, rfl⟩
  have hcount := h.inv.begun a
  have hpos := List.count_pos_iff.mpr hin
  exact List.count_pos_iff.mp (by omega)

/-- The successes of a dispatch are sends of its queue, one each, that reported so. -/
theorem succeeded_spec {queue : List String} {tr : List Event} {o : DispatchOutcome}
    (hnodup : queue.Nodup) (h : RunsQueue queue tr o) :
    o.succeeded.Nodup ∧ o.succeeded ⊆ queue ∧ ∀ p ∈ o.succeeded, .report p (.ok ()) ∈ tr := by
  obtain ⟨rfl, rfl, rfl⟩ | ⟨s, hrun, -, rfl⟩ := h
  · simp
  have hperm := hrun.inv.accounted hnodup
  have hsub : s.succeeded.Sublist (s.results ++ (s.outcome queue).abandoned) :=
    (List.sublist_append_left _ _).trans (List.sublist_append_left _ _)
  refine ⟨(hperm.nodup_iff.mpr hnodup).sublist hsub, ?_, hrun.told.succeeded⟩
  exact fun p hp => hperm.subset (hsub.subset hp)

/-! ### Runs at one version -/

theorem toList_pathFor (v : String) :
    (pathFor v).toList =
      ".announce-sent-".toList ++ (sanitizeVersion v).toList ++ ".json".toList := by
  unfold pathFor
  rw [String.toList_append, String.toList_append]

theorem pathFor_inj {v w : String} :
    pathFor v = pathFor w ↔ sanitizeVersion v = sanitizeVersion w := by
  rw [← String.toList_inj, toList_pathFor, toList_pathFor, List.append_left_inj,
    List.append_right_inj, String.toList_inj]

theorem StageRun.Ran.mem_sentAt (h : r.Ran dist dist') (hwhole : .torn ∉ r.marks.map Prod.snd)
    {path : String} :
    a ∈ sentAt dist' path ↔
      a ∈ sentAt dist path ∨ pathFor r.version = path ∧ Persisted a r.marks := by
  obtain ⟨-, hmarks⟩ := h
  by_cases hpath : path = pathFor r.version
  · subst hpath
    have hsent := load_sent dist r.version
    obtain ⟨hnodup, hsub⟩ : (r.marks.map Prod.fst).Nodup ∧
        ∀ p ∈ r.marks.map Prod.fst, p ∈ r.queue dist := by
      rcases hmarks with hnil | ⟨tr, o, -, hqueue, hpre⟩
      · simp [hnil]
      · obtain ⟨hnodup, hsub, -⟩ := succeeded_spec (queue_nodup r dist) hqueue
        exact ⟨hnodup.sublist hpre.sublist, fun p hp => hsub (hpre.subset hp)⟩
    have hnew : ∀ p ∈ r.marks.map Prod.fst, p ∉ (load dist r.version).record.sent := by
      intro p hp hin
      have hnot := not_alreadySent_of_mem_queue (hsub p hp)
      rw [alreadySent, decide_eq_false_iff_not] at hnot
      exact hnot hin
    have hdisk : sentAt dist (load dist r.version).path ⊆ (load dist r.version).record.sent := by
      rw [load_path, hsent]
    have hmem := mem_sentAt_markAll (a := a) hdisk hnew hnodup hwhole
    rw [load_path] at hmem
    rw [hmem, hsent]
    constructor
    · rintro (hd | ⟨hd, -⟩ | hms)
      exacts [.inl hd, .inl hd, .inr ⟨rfl, hms⟩]
    · rintro (hd | ⟨-, hms⟩)
      exacts [.inl hd, .inr (.inr hms)]
  · rw [sentAt_markAll_of_ne hpath]
    simp [Ne.symm hpath]

theorem StageRuns.alreadySent_iff (h : StageRuns rs dist)
    (hwhole : ∀ r ∈ rs, .torn ∉ r.marks.map Prod.snd) :
    (load dist v).alreadySent a = true ↔
      ∃ r ∈ rs, sanitizeVersion r.version = sanitizeVersion v ∧ Persisted a r.marks := by
  rw [Announce.alreadySent_iff]
  induction h with
  | nil => simp [sentAt]
  | snoc h hran ih =>
    rw [hran.mem_sentAt (hwhole _ (by simp)),
      ih fun r hr => hwhole r (List.mem_append_left _ hr), pathFor_inj]
    simp only [List.mem_append, List.mem_singleton, or_and_right, exists_or, exists_eq_left]

/-- Over any runs whose writes are not torn, an announcer is skipped exactly where an earlier run
at that version left its mark, a mark stands for a send that succeeded, and no later run at that
version begins the send again. -/
theorem announced_once (h : StageRuns rs dist)
    (hwhole : ∀ r ∈ rs, .torn ∉ r.marks.map Prod.snd) :
    (∀ v a, (load dist v).alreadySent a = true ↔
      ∃ r ∈ rs, sanitizeVersion r.version = sanitizeVersion v ∧ Persisted a r.marks) ∧
    (∀ r ∈ rs, ∀ a, Persisted a r.marks → .report a (.ok ()) ∈ r.trace) ∧
    rs.Pairwise fun r r' => sanitizeVersion r.version = sanitizeVersion r'.version →
      ∀ a, Persisted a r.marks → .pop a ∉ r'.trace := by
  refine ⟨fun v a => h.alreadySent_iff hwhole, ?_, ?_⟩
  · clear hwhole
    induction h with
    | nil => simp
    | snoc h hran ih =>
      intro r hr a ha
      rcases List.mem_append.mp hr with hr | hr
      · exact ih r hr a ha
      · obtain rfl := List.mem_singleton.mp hr
        obtain ⟨-, hnil | ⟨tr, o, htr, hqueue, hpre⟩⟩ := hran
        · simp [hnil, Persisted] at ha
        · have hsucceeded := hpre.subset ha.mem
          exact htr.subset ((succeeded_spec (queue_nodup r _) hqueue).2.2 a hsucceeded)
  · induction h with
    | nil => exact .nil
    | @snoc rs dist dist' r h hran ih =>
      have hearlier : ∀ r₀ ∈ rs, .torn ∉ r₀.marks.map Prod.snd :=
        fun r₀ hr₀ => hwhole r₀ (List.mem_append_left _ hr₀)
      refine List.pairwise_append.mpr ⟨ih hearlier, List.pairwise_singleton _ _, ?_⟩
      intro r₀ hr₀ r' hr' hversion a ha hpop
      obtain rfl := List.mem_singleton.mp hr'
      obtain ⟨htrace, -⟩ := hran
      have hnot := not_alreadySent_of_mem_queue (mem_queue_of_pop htrace hpop)
      have hskipped : (load dist r'.version).alreadySent a = true :=
        (h.alreadySent_iff hearlier).mpr ⟨r₀, hr₀, hversion, ha⟩
      rw [hskipped] at hnot
      cases hnot

/-- Two announcers, of which one is done in time. -/
def slackRun : StageRun where
  version := "1.0.0"
  enabled a := .ok (a = "discord" || a = "slack")
  render _ := .queued
  trace := [.pop "slack", .pop "discord", .report "slack" (.ok ()), .timeout, .receive, .drained]
  marks := [("slack", .written)]

theorem announced_once_slack : ∃ dist, StageRuns [slackRun] dist ∧
    (load dist "1.0.0").alreadySent "slack" = true := by
  have hqueue : slackRun.queue (fun _ => none) = ["discord", "slack"] := by decide
  obtain ⟨s, hrun, hat, -, ho⟩ := run_discord_slack
  have hruns : RunsQueue (slackRun.queue fun _ => none) slackRun.trace ⟨[], ["discord"], ["slack"]⟩ :=
    hqueue ▸ .inr ⟨s, hrun, hat, ho.symm⟩
  have hran : slackRun.Ran (fun _ => none) _ :=
    .mk (hqueue ▸ hrun) (.inr ⟨_, _, List.prefix_rfl, hruns, List.prefix_rfl⟩)
  have hstage := StageRuns.nil.snoc hran
  obtain ⟨hskipped, -, -⟩ := announced_once hstage (by decide)
  exact ⟨_, hstage, (hskipped _ _).mpr ⟨slackRun, by simp, rfl, .inl ⟨rfl, by simp⟩⟩⟩

end Anodizer.Announce
