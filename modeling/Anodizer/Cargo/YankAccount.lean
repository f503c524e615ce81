import Anodizer.Cargo.PublishRun
import Anodizer.Lib.Traverse

/-! # The account of a cargo run

Whatever stops the loop, the yank record is the list of crates whose `cargo publish`
succeeded, and the index answered for each crate that the run published or skipped.
-/

namespace Anodizer

open Traverse (bind_eq_ok)

def CargoEvent.published : CargoEvent → Option String
  | .cargoPublish name true => some name
  | _ => none

def CargoEvent.skip : CargoEvent → Option String
  | .skipped name => some name
  | _ => none

/-- The crates whose `cargo publish` returned success, in order. -/
def publishedIn (events : List CargoEvent) : List String := events.filterMap CargoEvent.published

def skippedIn (events : List CargoEvent) : List String := events.filterMap CargoEvent.skip

def CargoEvent.isFailure : CargoEvent → Bool
  | .cargoPublish _ ok => !ok
  | .failed _ => true
  | _ => false

@[simp] theorem publishedIn_append (xs ys : List CargoEvent) :
    publishedIn (xs ++ ys) = publishedIn xs ++ publishedIn ys := List.filterMap_append ..

@[simp] theorem skippedIn_append (xs ys : List CargoEvent) :
    skippedIn (xs ++ ys) = skippedIn xs ++ skippedIn ys := List.filterMap_append ..

@[simp] theorem publishedIn_nil : publishedIn [] = [] := rfl

@[simp] theorem skippedIn_nil : skippedIn [] = [] := rfl

@[simp] theorem publishedIn_cons (ev : CargoEvent) (events : List CargoEvent) :
    publishedIn (ev :: events) = ev.published.toList ++ publishedIn events := by
  cases h : ev.published <;> simp [publishedIn, h]

@[simp] theorem skippedIn_cons (ev : CargoEvent) (events : List CargoEvent) :
    skippedIn (ev :: events) = ev.skip.toList ++ skippedIn events := by
  cases h : ev.skip <;> simp [skippedIn, h]

/-- The yank targets of the crates a run published. -/
def yankTargets (env : CargoEnv) (plan : CargoPublishPlan) (events : List CargoEvent) :
    List CargoYankTargetSnapshot :=
  (publishedIn events).filterMap (yankTarget env plan)

theorem yankTargets_append (env : CargoEnv) (plan : CargoPublishPlan)
    (xs ys : List CargoEvent) :
    yankTargets env plan (xs ++ ys) = yankTargets env plan xs ++ yankTargets env plan ys := by
  simp [yankTargets]

/-- The events that one crate adds, and the error they end in. -/
inductive Visit (env : CargoEnv) (plan : CargoPublishPlan) (name : String) :
    List CargoEvent → Option String → Prop
  | unprepared (e : String) : Visit env plan name [.failed name] (some e)
  | unchecked (e : String) (hd : skipDecision env plan name = .error e) :
      Visit env plan name (binstallEvents plan name ++ [.failed name]) (some e)
  | skipped (hd : skipDecision env plan name = .ok .skip) :
      Visit env plan name (binstallEvents plan name ++ [.skipped name]) none
  | unready (e : String) (hd : skipDecision env plan name = .ok .publish) :
      Visit env plan name (binstallEvents plan name ++ [.failed name]) (some e)
  | rejected (e : String) (hd : skipDecision env plan name = .ok .publish)
      (hr : env.runCargoPublish name (cargoCfg plan name) = .error e) :
      Visit env plan name
        (binstallEvents plan name ++ [.cargoPublish name false, .failed name]) (some e)
  | published (hd : skipDecision env plan name = .ok .publish)
      (hr : env.runCargoPublish name (cargoCfg plan name) = .ok ()) :
      Visit env plan name (binstallEvents plan name ++ [.cargoPublish name true]) none
  | unindexed (e : String) (hd : skipDecision env plan name = .ok .publish)
      (hr : env.runCargoPublish name (cargoCfg plan name) = .ok ()) :
      Visit env plan name
        (binstallEvents plan name ++ [.cargoPublish name true, .failed name]) (some e)

variable {env : CargoEnv} {plan : CargoPublishPlan} {name : String} {events : List CargoEvent}
  {error : Option String}

@[simp] theorem publishedIn_binstallEvents (plan : CargoPublishPlan) (name : String) :
    publishedIn (binstallEvents plan name) = [] := by
  unfold binstallEvents
  split <;> rfl

@[simp] theorem skippedIn_binstallEvents (plan : CargoPublishPlan) (name : String) :
    skippedIn (binstallEvents plan name) = [] := by
  unfold binstallEvents
  split <;> rfl

theorem binstallEvents_no_failure (plan : CargoPublishPlan) (name : String) :
    ∀ ev ∈ binstallEvents plan name, ev.isFailure = false := by
  unfold binstallEvents
  split <;> simp [CargoEvent.isFailure]

theorem Visit.publishedIn_cases (h : Visit env plan name events error) :
    publishedIn events = [] ∨
      publishedIn events = [name] ∧ skipDecision env plan name = .ok .publish := by
  cases h with
  | published hd | unindexed _ hd =>
    right
    exact ⟨by simp [CargoEvent.published], hd⟩
  | unprepared | unchecked | skipped | unready | rejected =>
    left
    simp [CargoEvent.published]

theorem Visit.skippedIn_cases (h : Visit env plan name events error) :
    skippedIn events = [] ∨
      skippedIn events = [name] ∧ skipDecision env plan name = .ok .skip := by
  cases h with
  | skipped hd =>
    right
    exact ⟨by simp [CargoEvent.skip], hd⟩
  | unprepared | unchecked | unready | rejected | published | unindexed =>
    left
    simp [CargoEvent.skip]

theorem mem_binstallEvents {plan : CargoPublishPlan} {name : String} {ev : CargoEvent}
    (h : ev ∈ binstallEvents plan name) : ev = .binstall name := by
  unfold binstallEvents at h
  split at h
  · simpa using h
  · simp at h

/-- The call of `cargo publish` on record succeeded exactly when it returned success. -/
theorem Visit.ran (h : Visit env plan name events error) {n : String} {ok : Bool}
    (hm : .cargoPublish n ok ∈ events) :
    ok = true ↔ env.runCargoPublish n (cargoCfg plan n) = .ok () := by
  cases h with
  | unprepared => simp at hm
  | unchecked | unready | skipped =>
    rcases List.mem_append.mp hm with hm | hm
    · cases mem_binstallEvents hm
    · simp at hm
  | rejected _ _ hr =>
    rcases List.mem_append.mp hm with hm | hm
    · cases mem_binstallEvents hm
    · obtain ⟨rfl, rfl⟩ : n = name ∧ ok = false := by simpa using hm
      simp [hr]
  | published _ hr | unindexed _ _ hr =>
    rcases List.mem_append.mp hm with hm | hm
    · cases mem_binstallEvents hm
    · obtain ⟨rfl, rfl⟩ : n = name ∧ ok = true := by simpa using hm
      simp [hr]

/-- Nothing is published from the first failure on. -/
def QuietAfterFailure (events : List CargoEvent) : Prop :=
  publishedIn (events.dropWhile (!·.isFailure)) = []

theorem quietAfterFailure_append {xs ys : List CargoEvent} (hx : ∀ ev ∈ xs, ev.isFailure = false) :
    QuietAfterFailure (xs ++ ys) ↔ QuietAfterFailure ys := by
  rw [QuietAfterFailure, List.dropWhile_append_of_pos (by simpa using hx), QuietAfterFailure]

theorem Visit.quiet (h : Visit env plan name events error) : QuietAfterFailure events := by
  cases h with
  | unprepared => rfl
  | unchecked | unready | rejected | skipped | published | unindexed =>
    rw [quietAfterFailure_append (binstallEvents_no_failure plan name)]
    rfl

theorem Visit.no_failure (h : Visit env plan name events none) :
    (∀ ev ∈ events, ev.isFailure = false) ∧ ∃ d, skipDecision env plan name = .ok d := by
  generalize herr : (none : Option String) = error at h
  cases h with
  | unprepared | unchecked | unready | rejected | unindexed => cases herr
  | skipped hd | published hd =>
    refine ⟨?_, _, hd⟩
    intro ev hev
    rcases List.mem_append.mp hev with hev | hev
    · exact binstallEvents_no_failure plan name ev hev
    · rw [List.mem_singleton.mp hev]
      rfl

/-- The state after a crate has added its events. -/
def LoopState.after (env : CargoEnv) (plan : CargoPublishPlan) (s : LoopState)
    (events : List CargoEvent) : LoopState where
  events := s.events ++ events
  record := s.record ++ yankTargets env plan events

theorem after_of_unpublished {s : LoopState} (h : publishedIn events = []) :
    s.after env plan events = s.note events := by
  simp [LoopState.after, LoopState.note, yankTargets, h]

theorem after_of_published {s : LoopState} (name : String) (h : publishedIn events = [name]) :
    s.after env plan events = (s.note events).push (yankTarget env plan name) := by
  cases hy : yankTarget env plan name <;>
    simp [LoopState.after, LoopState.note, LoopState.push, yankTargets, h, hy]

@[simp] theorem note_note (s : LoopState) (xs ys : List CargoEvent) :
    (s.note xs).note ys = s.note (xs ++ ys) := by
  simp [LoopState.note]

theorem note_push_note (s : LoopState) (xs ys : List CargoEvent)
    (target : Option CargoYankTargetSnapshot) :
    ((s.note xs).push target).note ys = (s.note (xs ++ ys)).push target := by
  simp [LoopState.note, LoopState.push]

/-- What one pass of the loop does. -/
theorem publishCrate_cases (env : CargoEnv) (plan : CargoPublishPlan)
    (item : String × List String) (s : LoopState) :
    (∃ events, Visit env plan item.1 events none ∧
      publishCrate env plan item s = .next (s.after env plan events)) ∨
    ∃ events e, Visit env plan item.1 events (some e) ∧
      publishCrate env plan item s = .stop (s.after env plan events, e) := by
  simp only [publishCrate]
  cases ensureBinstallMetadata env plan item.1 with
  | error e =>
    right
    refine ⟨_, e, .unprepared e, ?_⟩
    rw [after_of_unpublished (by simp [CargoEvent.published])]
    rfl
  | ok _ =>
    cases hd : skipDecision env plan item.1 with
    | error e =>
      right
      refine ⟨_, e, .unchecked e hd, ?_⟩
      rw [after_of_unpublished (by simp [CargoEvent.published]), ← note_note]
      rfl
    | ok decision =>
      cases decision with
      | skip =>
        left
        refine ⟨_, .skipped hd, ?_⟩
        rw [after_of_unpublished (by simp [CargoEvent.published]), ← note_note]
        rfl
      | publish =>
        simp only [attempt]
        cases waitGate env plan item.1 with
        | error e =>
          right
          refine ⟨_, e, .unready e hd, ?_⟩
          rw [after_of_unpublished (by simp [CargoEvent.published]), ← note_note]
        | ok _ =>
          dsimp only
          cases hr : env.runCargoPublish item.1 (cargoCfg plan item.1) with
          | error e =>
            right
            refine ⟨_, e, .rejected e hd hr, ?_⟩
            rw [after_of_unpublished (by simp [CargoEvent.published]), ← note_note]
          | ok _ =>
            cases indexPoll env plan item.1 item.2 with
            | error e =>
              right
              refine ⟨_, e, .unindexed e hd hr, ?_⟩
              rw [after_of_published item.1 (by simp [CargoEvent.published])]
              simp only [note_note, note_push_note, List.append_assoc, List.singleton_append]
            | ok _ =>
              left
              refine ⟨_, .published hd hr, ?_⟩
              rw [after_of_published item.1 (by simp [CargoEvent.published])]
              simp only [note_note]

/-! ### The whole loop -/

/-- What holds of the crates visited so far, however the loop goes on. -/
structure Accounted (env : CargoEnv) (plan : CargoPublishPlan)
    (record : List CargoYankTargetSnapshot) (names : List String) (s : LoopState) : Prop where
  record : s.record = record ++ yankTargets env plan s.events
  order : (publishedIn s.events).Sublist names
  ran : ∀ n ok, .cargoPublish n ok ∈ s.events →
    (ok = true ↔ env.runCargoPublish n (cargoCfg plan n) = .ok ())
  published : ∀ n ∈ publishedIn s.events, skipDecision env plan n = .ok .publish
  skipped : ∀ n ∈ skippedIn s.events, skipDecision env plan n = .ok .skip

/-- What holds while the loop has not failed. -/
structure Going (env : CargoEnv) (plan : CargoPublishPlan)
    (record : List CargoYankTargetSnapshot) (names : List String) (s : LoopState) : Prop
    extends Accounted env plan record names s where
  clean : ∀ ev ∈ s.events, ev.isFailure = false
  decided : ∀ n ∈ names, ∃ d, skipDecision env plan n = .ok d

variable {record : List CargoYankTargetSnapshot} {names : List String} {s : LoopState}

theorem Accounted.after (h : Accounted env plan record names s)
    (hv : Visit env plan name events error) :
    Accounted env plan record (names ++ [name]) (s.after env plan events) where
  record := by
    simp only [LoopState.after, h.record, yankTargets_append, List.append_assoc]
  order := by
    simp only [LoopState.after, publishedIn_append]
    apply h.order.append
    rcases hv.publishedIn_cases with hp | ⟨hp, -⟩
    · rw [hp]
      exact List.nil_sublist _
    · rw [hp]
  ran := by
    intro n ok hm
    rcases List.mem_append.mp hm with hm | hm
    · exact h.ran n ok hm
    · exact hv.ran hm
  published := by
    intro n hn
    rw [LoopState.after, publishedIn_append, List.mem_append] at hn
    rcases hn with hn | hn
    · exact h.published n hn
    · rcases hv.publishedIn_cases with hp | ⟨hp, hd⟩
      · simp [hp] at hn
      · rw [hp, List.mem_singleton] at hn
        rw [hn, hd]
  skipped := by
    intro n hn
    rw [LoopState.after, skippedIn_append, List.mem_append] at hn
    rcases hn with hn | hn
    · exact h.skipped n hn
    · rcases hv.skippedIn_cases with hp | ⟨hp, hd⟩
      · simp [hp] at hn
      · rw [hp, List.mem_singleton] at hn
        rw [hn, hd]

theorem Going.next (h : Going env plan record names s) (hv : Visit env plan name events none) :
    Going env plan record (names ++ [name]) (s.after env plan events) where
  toAccounted := h.toAccounted.after hv
  clean := by
    intro ev hev
    rcases List.mem_append.mp hev with hev | hev
    · exact h.clean ev hev
    · exact hv.no_failure.1 ev hev
  decided := by
    intro n hn
    rcases List.mem_append.mp hn with hn | hn
    · exact h.decided n hn
    · rw [List.mem_singleton.mp hn]
      exact hv.no_failure.2

theorem withLater_fst (names : List String) : (withLater names).map Prod.fst = names := by
  induction names with
  | nil => rfl
  | cons name names ih => rw [withLater, List.map_cons, ih]

/-- The loop ends going, or is left with its account in order and quiet after the failure. -/
theorem loop_account (env : CargoEnv) (plan : CargoPublishPlan)
    (record : List CargoYankTargetSnapshot) :
    (Loop.run (publishCrate env plan) (withLater plan.order) { record }).Holds
      (Going env plan record plan.order)
      (fun left => Accounted env plan record plan.order left.1 ∧
        QuietAfterFailure left.1.events) := by
  have hrun : (Loop.run (publishCrate env plan) (withLater plan.order) { record }).Holds
      (Going env plan record ((withLater plan.order).map Prod.fst))
      (fun left => Accounted env plan record plan.order left.1 ∧
        QuietAfterFailure left.1.events) := by
    apply Loop.run_visited (I := fun pre s => Going env plan record (pre.map Prod.fst) s)
    · constructor
      · constructor <;> simp [yankTargets]
      · simp
      · simp
    · rintro pre item s ⟨post, hxs, -⟩ hi
      rcases publishCrate_cases env plan item s with ⟨evs, hv, heq⟩ | ⟨evs, e, hv, heq⟩
      · rw [heq, List.map_append]
        exact hi.next hv
      · rw [heq]
        have hacc := hi.toAccounted.after hv
        constructor
        · refine { hacc with order := hacc.order.trans ?_ }
          rw [← withLater_fst plan.order, hxs, List.map_append, List.map_cons]
          simp
        · exact (quietAfterFailure_append hi.clean).mpr hv.quiet
  rwa [withLater_fst] at hrun

theorem quiet_of_clean (h : ∀ ev ∈ events, ev.isFailure = false) : QuietAfterFailure events := by
  have : QuietAfterFailure (events ++ []) := (quietAfterFailure_append h).mpr rfl
  rwa [List.append_nil] at this

/-! ### The content check -/

theorem withContext_ok {α : Type} {context : String} {answer : Except String α} {a : α} :
    withContext context answer = .ok a ↔ answer = .ok a := by
  cases answer <;> simp [withContext]

/-- The local crate has the published content, by its checksum or by a verified download. -/
def ContentVerified (env : CargoEnv) (name version indexCksum : String) : Prop :=
  ∃ localCrate, env.localCksumCheck name = .ok (some localCrate) ∧
    (eqIgnoreAsciiCase localCrate.cksum indexCksum = true ∨
      ∃ published, env.fetchPublished name version = .ok published ∧
        eqIgnoreAsciiCase (env.sha256 published) indexCksum = true ∧
        env.cratesEqualModuloVcs localCrate.bytes published
          (env.changelogProvenanceRecorded name version) = .ok .equivalent)

/-- The content check decides nothing but a verified skip. -/
theorem decideAlreadyPublished_ok {env : CargoEnv} {name version indexCksum : String}
    {decision : CargoSkipDecision}
    (h : decideAlreadyPublished env name version indexCksum
      (env.changelogProvenanceRecorded name version) = .ok decision) :
    decision = .skip ∧ ContentVerified env name version indexCksum := by
  simp only [decideAlreadyPublished] at h
  split at h
  · cases h
  · obtain ⟨localCrate, hl, h⟩ := bind_eq_ok.mp h
    rw [withContext_ok] at hl
    cases localCrate with
    | none => cases h
    | some localCrate =>
      dsimp only at h
      split at h
      · next heq =>
        cases h
        exact ⟨rfl, localCrate, hl, .inl heq⟩
      · obtain ⟨published, hf, h⟩ := bind_eq_ok.mp h
        rw [withContext_ok] at hf
        split at h
        · next hsha =>
          obtain ⟨content, hc, h⟩ := bind_eq_ok.mp h
          cases content with
          | differs => cases h
          | equivalent =>
            cases h
            exact ⟨rfl, localCrate, hl, .inr ⟨published, hf, hsha, hc⟩⟩
        · cases h

theorem skipDecision_skip (h : skipDecision env plan name = .ok .skip) :
    guarded plan name = true ∧ ∃ cksum,
      env.alreadyPublishedCheck name (crateVersion plan name) = .ok (some cksum) ∧
        ContentVerified env name (crateVersion plan name) cksum := by
  simp only [skipDecision] at h
  split at h
  · cases h
  · next hg =>
    split at h
    · cases h
    · next cksum hc =>
      split at h
      · cases h
      · exact ⟨by simpa using hg, cksum, hc, (decideAlreadyPublished_ok h).2⟩
    · cases h

theorem skipDecision_publish (h : skipDecision env plan name = .ok .publish)
    (hg : guarded plan name = true) :
    env.alreadyPublishedCheck name (crateVersion plan name) = .ok none := by
  simp only [skipDecision, hg] at h
  split at h
  · next hf => simp at hf
  · split at h
    · next hc => exact hc
    · split at h
      · cases h
      · cases (decideAlreadyPublished_ok h).1
    · cases h

theorem skipDecision_unreachable {e : String} (hg : guarded plan name = true)
    (hc : env.alreadyPublishedCheck name (crateVersion plan name) = .error e) :
    ∃ msg, skipDecision env plan name = .error msg := by
  simp [skipDecision, hg, hc]

/-! ### The account of a run -/

/-- The account of a run that started with `record`. -/
structure FullyAccounted (env : CargoEnv) (plan : CargoPublishPlan)
    (record : List CargoYankTargetSnapshot) (run : CargoOutcome) : Prop where
  record : run.record = record ++ yankTargets env plan run.events
  order : (publishedIn run.events).Sublist plan.order
  once : ((yankTargets env plan run.events).map (·.name)).Nodup
  ran : ∀ n ok, .cargoPublish n ok ∈ run.events →
    (ok = true ↔ env.runCargoPublish n (cargoCfg plan n) = .ok ())
  quiet : QuietAfterFailure run.events
  published : ∀ n ∈ publishedIn run.events, guarded plan n = true →
    env.alreadyPublishedCheck n (crateVersion plan n) = .ok none
  skipped : ∀ n ∈ skippedIn run.events,
    n ∉ (yankTargets env plan run.events).map (·.name) ∧ guarded plan n = true ∧ ∃ cksum,
      env.alreadyPublishedCheck n (crateVersion plan n) = .ok (some cksum) ∧
        ContentVerified env n (crateVersion plan n) cksum
  unreachable : ∀ n ∈ plan.order, guarded plan n = true → ∀ e,
    env.alreadyPublishedCheck n (crateVersion plan n) = .error e →
      n ∉ publishedIn run.events ∧ n ∉ skippedIn run.events ∧
        (env.shouldSkip = false → env.dryRun = false → ∃ msg, run.result = .error msg)

theorem yankTargets_names (env : CargoEnv) (plan : CargoPublishPlan) (events : List CargoEvent) :
    ((yankTargets env plan events).map (·.name)).Sublist (publishedIn events) := by
  unfold yankTargets
  induction publishedIn events with
  | nil => simp
  | cons n names ih =>
    rw [List.filterMap_cons]
    unfold yankTarget
    split
    · next h => exact ih.cons n
    · next target h =>
      split at h
      · cases h
      · cases h
        exact ih.cons_cons n

theorem order_nodup {ctx : PlanContext} {config : Config} {selected : List String}
    (h : cargoPublishPlan ctx config selected = .ok plan) : plan.order.Nodup := by
  have hn := publishGraph_nodup ctx config selected
  rw [(plan_graph h).2.2.1]
  exact (Kahn.sort_perm hn).nodup_iff.mpr hn

theorem Accounted.full {s : LoopState} {result : Except String Unit} (hn : plan.order.Nodup)
    (h : Accounted env plan record plan.order s) (hq : QuietAfterFailure s.events)
    (hr : env.shouldSkip = false → env.dryRun = false → result = .ok () →
      ∀ n ∈ plan.order, ∃ d, skipDecision env plan n = .ok d) :
    FullyAccounted env plan record (s.outcome result) where
  record := h.record
  order := h.order
  once := (yankTargets_names ..).nodup (h.order.nodup hn)
  ran := h.ran
  quiet := hq
  published := fun n hp hg => skipDecision_publish (h.published n hp) hg
  skipped := by
    intro n hs
    have hskip := h.skipped n hs
    constructor
    · intro hy
      have hp := h.published n ((yankTargets_names ..).subset hy)
      rw [hskip] at hp
      cases hp
    · exact skipDecision_skip hskip
  unreachable := by
    intro n hin hg e hc
    obtain ⟨msg, hd⟩ := skipDecision_unreachable hg hc
    refine ⟨?_, ?_, ?_⟩
    · intro hp
      have := h.published n hp
      rw [hd] at this
      cases this
    · intro hs
      have := h.skipped n hs
      rw [hd] at this
      cases this
    · intro hskip hdry
      cases result with
      | error msg => exact ⟨msg, rfl⟩
      | ok u =>
        obtain ⟨d, hok⟩ := hr hskip hdry rfl n hin
        rw [hd] at hok
        cases hok

theorem unstarted_accounted (env : CargoEnv) (plan : CargoPublishPlan)
    (record : List CargoYankTargetSnapshot) :
    Accounted env plan record plan.order { record } := by
  constructor <;> simp [yankTargets]

/-- However a run ends, its yank record, its events and its index answers are in order. -/
theorem cargo_run_accounted (env : CargoEnv) (config : Config) (selected : List String)
    (record : List CargoYankTargetSnapshot) {plan : CargoPublishPlan}
    (h : cargoPublishPlan env.toPlanContext config selected = .ok plan) :
    FullyAccounted env plan record (publishToCargoWithGuard env config selected record) := by
  have hn := order_nodup h
  have hidle := unstarted_accounted env plan record
  have hquiet : QuietAfterFailure ({ record } : LoopState).events := rfl
  simp only [publishToCargoWithGuard, h]
  split
  · next hskip =>
    apply hidle.full hn hquiet
    simp [hskip]
  · split
    · next hempty =>
      apply hidle.full hn hquiet
      intro _ hdry _ n hin
      simp only [hdry, Bool.or_false, List.isEmpty_iff] at hempty
      simp [hempty] at hin
    · cases hb : publishBackstops env plan with
      | error e =>
        apply hidle.full hn hquiet
        intro _ _ hr
        cases hr
      | ok u =>
        have hloop := loop_account env plan record
        simp only [publishLoop]
        cases hrun : Loop.run (publishCrate env plan) (withLater plan.order) { record } with
        | next s =>
          rw [hrun] at hloop
          exact hloop.toAccounted.full hn (quiet_of_clean hloop.clean) fun _ _ _ => hloop.decided
        | stop left =>
          rw [hrun] at hloop
          apply hloop.1.full hn hloop.2
          intro _ _ hr
          cases hr

/-! ### A crate prepared before its index answer -/

/-- One crate with a binstall table, on crates.io or on the registry given. -/
def demoConfig (registry : Option String) : Config where
  crates := [
    { name := "demo", path := "crates/demo", cargo := some { registry }
      binstall := some { enabled := some true } }]
  distinct := by simp

/-- Every step succeeds, and the index gives the answer given. -/
def demoEnv (answer : Except String (Option String)) : CargoEnv where
  templates := { skip := fun _ => .ok false, ifCondition := fun _ => .ok true }
  disk := { manifest := fun _ => none, workspaceRoot := fun _ => none }
  plannedCrateVersions := fun _ => none
  readCargoTomlVersion := fun _ => some "1.0.0"
  shouldSkip := false
  dryRun := false
  contextVersion := "1.0.0"
  registryToken := none
  earlierPublishedCheck := fun _ _ => answer
  crateExists := fun _ => .exists
  ensurePublishTreeClean := .ok ()
  generateBinstallMetadata := fun _ => .ok ()
  alreadyPublishedCheck := fun _ _ => answer
  localCksumCheck := fun _ => .ok none
  fetchPublished := fun _ _ => .ok []
  sha256 := fun _ => ""
  cratesEqualModuloVcs := fun _ _ _ => .ok (.differs [])
  changelogProvenanceRecorded := fun _ _ => false
  waitForWorkspaceDepsToAppear := fun _ _ => .ok ()
  runCargoPublish := fun _ _ => .ok ()
  pollCratesIoIndex := fun _ _ _ => .ok ()

def demoRun (registry : Option String) (answer : Except String (Option String)) : CargoOutcome :=
  publishToCargoWithGuard (demoEnv answer) (demoConfig registry) [] []

example : (demoRun none (.error "timeout")).events = [.binstall "demo", .failed "demo"] := by
  decide

/-- An unreachable index stops the run after the crate's manifest was written, and a crate for
another registry is published although crates.io holds its version, unchecked. -/
theorem crate_touched_unchecked :
    (¬ ∀ (env : CargoEnv) (config : Config) (plan : CargoPublishPlan) (n e : String),
      cargoPublishPlan env.toPlanContext config [] = .ok plan → n ∈ plan.order →
      env.alreadyPublishedCheck n (crateVersion plan n) = .error e →
        .binstall n ∉ (publishToCargoWithGuard env config [] []).events) ∧
    ¬ ∀ (env : CargoEnv) (config : Config) (plan : CargoPublishPlan) (n cksum : String),
      cargoPublishPlan env.toPlanContext config [] = .ok plan → n ∈ plan.order →
      env.alreadyPublishedCheck n (crateVersion plan n) = .ok (some cksum) →
      n ∈ publishedIn (publishToCargoWithGuard env config [] []).events →
        decideAlreadyPublished env n (crateVersion plan n) cksum
          (env.changelogProvenanceRecorded n (crateVersion plan n)) = .ok .publish := by
  constructor
  · intro h
    exact h (demoEnv (.error "timeout")) (demoConfig none) _ "demo" "timeout" rfl (by decide) rfl
      (by decide)
  · intro h
    have hd := h (demoEnv (.ok (some "abc"))) (demoConfig (some "corp")) _ "demo" "abc" rfl
      (by decide) rfl (by decide)
    exact absurd (decideAlreadyPublished_ok hd).1 (by decide)

theorem cargo_run_accounted_demo : ∃ plan,
    FullyAccounted (demoEnv (.ok none)) plan [] (demoRun none (.ok none)) :=
  ⟨_, cargo_run_accounted (demoEnv (.ok none)) (demoConfig none) [] [] rfl⟩

end Anodizer
