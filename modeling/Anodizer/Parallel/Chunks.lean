import Anodizer.Lib.Lines
import Anodizer.Publish.Report

/-! # Jobs in parallel, batch by batch

The jobs of a stage run in batches of at most `parallelism` workers. The workers of a batch are
joined in the order of their jobs, all of them before a failure is looked at, and a batch with a
failure is the last one.
-/

namespace Anodizer.Parallel

/-- An error with the contexts put around it, outermost first. -/
structure Failure where
  contexts : List String
  root : String
  deriving DecidableEq, Repr

/-- The error in one line. -/
def Failure.alternate (e : Failure) : String := ": ".intercalate (e.contexts ++ [e.root])

/-- How a worker ended. -/
inductive Ended (T : Type)
  | value (t : T)
  | failure (e : Failure)
  | panicked
  deriving DecidableEq, Repr

def Ended.toResult {T : Type} (stageName : String) : Ended T → Except Failure T
  | .value t => .ok t
  | .failure e => .error e
  | .panicked => .error ⟨[], stageName ++ " worker thread panicked"⟩

inductive Line
  | warn (text : String)
  | verbose (text : String)
  deriving DecidableEq, Repr

/-- The arguments of a call. -/
structure Call (J : Type) where
  jobs : List J
  parallelism : ℕ
  stageName : String
  nouns : String × String

/-- What the loop over the results of a batch has gathered. -/
structure Batch (T : Type) where
  results : List T
  firstErr : Option Failure
  chunkOk : ℕ
  log : List Line

/-- Where a call stands. A worker that is still running has no end, and `base` jobs belong to the
batches that are over. -/
structure State (T : Type) where
  base : ℕ
  workers : List (Option (Ended T))
  joined : List (Ended T)
  results : List T
  log : List Line
  returned : Option (Except Failure (List T))

inductive Event (T : Type)
  | spawn (i : ℕ)
  | finish (i : ℕ) (e : Ended T)
  | join (i : ℕ)
  | settle
  | done

namespace Call

variable {J T : Type}

def width (c : Call J) : ℕ := max c.parallelism 1

/-- The batch whose first job is `base`. -/
def chunk (c : Call J) (base : ℕ) : List J := (c.jobs.drop base).take c.width

/-- The first 200 characters of the first line of the root cause. -/
def siblingLine (e : Failure) : String :=
  let first := (Lines.lines e.root.toList).head?.getD []
  .ofList (first.take 200 ++ if 200 < first.length then ['…'] else [])

def siblingLines (c : Call J) (e : Failure) : List Line :=
  [.warn (c.stageName ++ ": additional failure in the same batch (only the first is propagated): " ++
    siblingLine e),
   .verbose (c.stageName ++ ": additional failure detail: " ++ e.alternate)]

def take (c : Call J) (b : Batch T) : Except Failure T → Batch T
  | .ok t => { b with chunkOk := b.chunkOk + 1, results := b.results ++ [t] }
  | .error e =>
    match b.firstErr with
    | none => { b with firstErr := some e }
    | some _ => { b with log := b.log ++ c.siblingLines e }

/-- The loop over the results of the batch at hand. -/
def gather (c : Call J) (s : State T) : Batch T :=
  (s.joined.map (Ended.toResult c.stageName)).foldl c.take ⟨s.results, none, 0, s.log⟩

/-- The last line of a call that failed. -/
def summary (c : Call J) (chunkLen chunkOk completed notStarted : ℕ) : List Line :=
  let total := c.jobs.length
  if 1 < total ∧ 1 < chunkLen then
    [.warn (c.stageName ++ ": " ++ toString chunkOk ++ " of " ++
      countNoun chunkLen c.nouns.1 c.nouns.2 ++
      " in this batch succeeded before the failure (" ++ toString completed ++ " of " ++
      toString total ++ " total completed, " ++ toString notStarted ++ " never started)")]
  else if 1 < total then
    [.warn (c.stageName ++ ": " ++ toString completed ++ " of " ++
      countNoun total c.nouns.1 c.nouns.2 ++ " completed before the failure, " ++
      toString notStarted ++ " never started")]
  else []

def start : State T := ⟨0, [], [], [], [], none⟩

/-- One step of a worker or of the caller. -/
inductive Step (c : Call J) : State T → Event T → State T → Prop
  | spawn {s : State T} (hreturned : s.returned = none)
      (hmore : s.workers.length < (c.chunk s.base).length) :
      c.Step s (.spawn (s.base + s.workers.length)) { s with workers := s.workers ++ [none] }
  | finish {s : State T} {k : ℕ} {e : Ended T} (hrunning : s.workers[k]? = some none) :
      c.Step s (.finish (s.base + k) e) { s with workers := s.workers.set k (some e) }
  -- no worker is joined before all of the batch are spawned
  | join {s : State T} {e : Ended T} (hall : s.workers.length = (c.chunk s.base).length)
      (hended : s.workers[s.joined.length]? = some (some e)) :
      c.Step s (.join (s.base + s.joined.length)) { s with joined := s.joined ++ [e] }
  | pass {s : State T} (hreturned : s.returned = none) (hchunk : c.chunk s.base ≠ [])
      (hall : s.joined.length = (c.chunk s.base).length) (hfirst : (c.gather s).firstErr = none) :
      c.Step s .settle
        { s with
          base := s.base + (c.chunk s.base).length
          workers := []
          joined := []
          results := (c.gather s).results
          log := (c.gather s).log }
  | fail {s : State T} {e : Failure} (hreturned : s.returned = none)
      (hchunk : c.chunk s.base ≠ []) (hall : s.joined.length = (c.chunk s.base).length)
      (hfirst : (c.gather s).firstErr = some e) :
      c.Step s .settle
        { s with
          results := (c.gather s).results
          log := (c.gather s).log ++
            c.summary (c.chunk s.base).length (c.gather s).chunkOk (c.gather s).results.length
              (c.jobs.length - (c.gather s).results.length -
                ((c.chunk s.base).length - (c.gather s).chunkOk))
          returned := some (.error e) }
  | done {s : State T} (hreturned : s.returned = none) (hchunk : c.chunk s.base = []) :
      c.Step s .done { s with returned := some (.ok s.results) }

/-- The events of a call, the last one at the end. -/
inductive Run (c : Call J) : List (Event T) → State T → Prop
  | nil : c.Run [] start
  | snoc {tr : List (Event T)} {s t : State T} {e : Event T} (h : c.Run tr s)
      (hstep : c.Step s e t) : c.Run (tr ++ [e]) t

end Call

/-- The job that an event starts. -/
def Event.started {T : Type} : Event T → Option ℕ
  | .spawn i => some i
  | _ => none

/-- How the job at a position ended, as often as it did. -/
def Event.endOf {T : Type} (i : ℕ) : Event T → Option (Ended T)
  | .finish j e => if j = i then some e else none
  | _ => none

/-! ### The results of a batch -/

section Results

variable {J T : Type} {c : Call J} {rs : List (Except Failure T)} {b : Batch T}

def values (rs : List (Except Failure T)) : List T := rs.filterMap Except.toOption

def failures (rs : List (Except Failure T)) : List Failure :=
  rs.filterMap fun
    | .ok _ => none
    | .error e => some e

@[simp] theorem values_nil : values ([] : List (Except Failure T)) = [] := rfl

@[simp] theorem failures_nil : failures ([] : List (Except Failure T)) = [] := rfl

@[simp] theorem values_ok (t : T) : values (.ok t :: rs) = t :: values rs := rfl

@[simp] theorem values_error (e : Failure) : values (.error e :: rs) = values rs := rfl

@[simp] theorem failures_ok (t : T) : failures (.ok t :: rs) = failures rs := rfl

@[simp] theorem failures_error (e : Failure) : failures (.error e :: rs) = e :: failures rs := rfl

@[simp] theorem values_append (rs rs' : List (Except Failure T)) :
    values (rs ++ rs') = values rs ++ values rs' := List.filterMap_append

@[simp] theorem failures_append (rs rs' : List (Except Failure T)) :
    failures (rs ++ rs') = failures rs ++ failures rs' := List.filterMap_append

theorem length_values_add (rs : List (Except Failure T)) :
    (values rs).length + (failures rs).length = rs.length := by
  induction rs with
  | nil => rfl
  | cons r rs ih =>
    cases r with
    | ok t =>
      rw [values_ok, failures_ok, List.length_cons, List.length_cons]
      omega
    | error e =>
      rw [values_error, failures_error, List.length_cons, List.length_cons]
      omega

/-- The loop keeps the values in order, the first failure and the lines about the others. -/
theorem foldl_take : rs.foldl c.take b =
    { results := b.results ++ values rs
      firstErr := b.firstErr.or (failures rs).head?
      chunkOk := b.chunkOk + (values rs).length
      log := b.log ++ ((b.firstErr.toList ++ failures rs).tail).flatMap c.siblingLines } := by
  induction rs generalizing b with
  | nil =>
    obtain ⟨_, _ | _, _, _⟩ := b <;> simp
  | cons r rs ih =>
    rw [List.foldl_cons, ih]
    cases r with
    | ok t => simp [Call.take, Nat.add_assoc, Nat.add_comm]
    | error e => cases h : b.firstErr <;> simp [Call.take, h]

theorem mapM_id_eq (rs : List (Except Failure T)) :
    rs.mapM id = match failures rs with
      | [] => .ok (values rs)
      | e :: _ => .error e := by
  induction rs with
  | nil => rfl
  | cons r rs ih =>
    rw [List.mapM_cons, ih]
    cases r with
    | error e => rfl
    | ok t =>
      rw [failures_ok, values_ok]
      cases failures rs <;> rfl

end Results

/-! ### What a step keeps -/

namespace Call

variable {J T : Type} {c : Call J} {tr : List (Event T)} {s t : State T} {e : Event T}
  {settled ends : List (Ended T)} {r : Except Failure (List T)} {log : List Line}

def resultsOf (c : Call J) (ends : List (Ended T)) : List (Except Failure T) :=
  ends.map (Ended.toResult c.stageName)

@[simp] theorem resultsOf_append (c : Call J) (ends ends' : List (Ended T)) :
    c.resultsOf (ends ++ ends') = c.resultsOf ends ++ c.resultsOf ends' := List.map_append

theorem length_resultsOf (c : Call J) (ends : List (Ended T)) :
    (values (c.resultsOf ends)).length + (failures (c.resultsOf ends)).length = ends.length := by
  rw [length_values_add, resultsOf, List.length_map]

/-- What is returned and logged where the started jobs ended as they did. -/
inductive Outcome (c : Call J) : List (Ended T) → Except Failure (List T) → List Line → Prop
  | ok {ends : List (Ended T)} (hall : ends.length = c.jobs.length)
      (hvalues : failures (c.resultsOf ends) = []) :
      c.Outcome ends (.ok (values (c.resultsOf ends))) []
  | failed {earlier batch : List (Ended T)} {e : Failure} {others : List Failure}
      (hearlier : failures (c.resultsOf earlier) = []) (hwhole : c.width ∣ earlier.length)
      (hbatch : batch.length = (c.chunk earlier.length).length)
      (hfirst : failures (c.resultsOf batch) = e :: others) :
      c.Outcome (earlier ++ batch) (.error e)
        (others.flatMap c.siblingLines ++
          c.summary batch.length (values (c.resultsOf batch)).length
            (values (c.resultsOf (earlier ++ batch))).length
            (c.jobs.length - (earlier ++ batch).length))

/-- What has ended by a point of a call: every started job once, and no other. -/
structure Accounts (tr : List (Event T)) (ends : List (Ended T)) : Prop where
  started : tr.filterMap Event.started = List.range ends.length
  ended : ∀ i, tr.filterMap (Event.endOf i) = ends[i]?.toList

theorem width_pos (c : Call J) : 0 < c.width := by
  unfold width
  omega

theorem length_chunk (c : Call J) (base : ℕ) :
    (c.chunk base).length = min c.width (c.jobs.length - base) := by
  rw [chunk, List.length_take, List.length_drop]

theorem gather_eq (c : Call J) (s : State T) : c.gather s =
    { results := s.results ++ values (c.resultsOf s.joined)
      firstErr := (failures (c.resultsOf s.joined)).head?
      chunkOk := (values (c.resultsOf s.joined)).length
      log := s.log ++ (failures (c.resultsOf s.joined)).tail.flatMap c.siblingLines } := by
  rw [gather, foldl_take]
  simp [resultsOf]

structure Inv (c : Call J) (tr : List (Event T)) (settled : List (Ended T)) (s : State T) :
    Prop where
  base : s.base = settled.length
  fits : s.base ≤ c.jobs.length
  within : s.workers.length ≤ (c.chunk s.base).length
  whole : s.base = c.jobs.length ∨ c.width ∣ s.base
  joined : s.joined.map some <+: s.workers
  clean : failures (c.resultsOf settled) = []
  results : s.returned = none → s.results = values (c.resultsOf settled)
  silent : s.returned = none → s.log = []
  started : tr.filterMap Event.started = List.range (s.base + s.workers.length)
  ended : ∀ i, tr.filterMap (Event.endOf i) = (settled.map some ++ s.workers)[i]?.join.toList
  stopped : s.returned ≠ none → s.workers = s.joined.map some
  outcome : ∀ r, s.returned = some r → ∃ ends, Accounts tr ends ∧ c.Outcome ends r s.log

theorem inv_start : c.Inv ([] : List (Event T)) [] start where
  base := rfl
  fits := Nat.zero_le _
  within := Nat.zero_le _
  whole := .inr (Nat.dvd_zero _)
  joined := List.nil_prefix
  clean := rfl
  results _ := rfl
  silent _ := rfl
  started := rfl
  ended i := by simp [start]
  stopped h := absurd rfl h
  outcome r h := nomatch h

theorem filterMap_snoc {β : Type} (f : Event T → Option β) (tr : List (Event T)) (e : Event T) :
    (tr ++ [e]).filterMap f = tr.filterMap f ++ (f e).toList := by
  cases h : f e <;> simp [h]

theorem prefix_set {l : List (Ended T)} {w : List (Option (Ended T))} {k : ℕ}
    (h : l.map some <+: w) (hk : w[k]? = some none) (e : Ended T) :
    l.map some <+: w.set k (some e) := by
  obtain ⟨rest, rfl⟩ := h
  rcases Nat.lt_or_ge k (l.map some).length with hlt | hge
  · rw [List.getElem?_append_left hlt, List.getElem?_map] at hk
    cases hl : l[k]? <;> simp [hl] at hk
  · rw [List.set_append_right _ _ hge]
    exact List.prefix_append _ _

theorem prefix_snoc {l : List (Ended T)} {w : List (Option (Ended T))} {e : Ended T}
    (h : l.map some <+: w) (hl : w[l.length]? = some (some e)) : (l ++ [e]).map some <+: w := by
  obtain ⟨rest, rfl⟩ := h
  rw [List.getElem?_append_right (by simp), List.length_map, Nat.sub_self] at hl
  obtain ⟨o, rest, rfl⟩ := List.exists_cons_of_ne_nil (l := rest) (by rintro rfl; simp at hl)
  obtain rfl : o = some e := by simpa using hl
  exact ⟨rest, by simp⟩

theorem join_getElem?_snoc_none (l : List (Option (Ended T))) (i : ℕ) :
    (l ++ [none])[i]?.join = l[i]?.join := by
  rcases Nat.lt_trichotomy i l.length with hlt | rfl | hgt
  · rw [List.getElem?_append_left hlt]
  · simp
  · rw [List.getElem?_eq_none (by simpa [Nat.succ_le_iff] using hgt),
      List.getElem?_eq_none (Nat.le_of_lt hgt)]

theorem join_getElem?_set {l : List (Option (Ended T))} {k : ℕ} (hk : l[k]? = some none)
    (e : Ended T) (i : ℕ) :
    (l.set k (some e))[i]?.join.toList =
      l[i]?.join.toList ++ (if k = i then some e else none).toList := by
  by_cases h : k = i
  · subst h
    obtain ⟨hlt, -⟩ := List.getElem?_eq_some_iff.mp hk
    simp [hk, List.getElem?_set_self hlt]
  · rw [List.getElem?_set_ne h, if_neg h]
    simp

namespace Inv

theorem not_returned (h : c.Inv tr settled s) {k : ℕ} (hk : s.workers[k]? = some none) :
    s.returned = none := by
  by_contra hreturned
  rw [h.stopped hreturned, List.getElem?_map] at hk
  cases hl : s.joined[k]? <;> simp [hl] at hk

theorem not_returned_of_join (h : c.Inv tr settled s)
    {o : Option (Ended T)} (hk : s.workers[s.joined.length]? = some o) : s.returned = none := by
  by_contra hreturned
  rw [h.stopped hreturned] at hk
  simp at hk

/-- When the last worker of a batch is joined, the batch has ended as it was joined. -/
theorem workers_eq (h : c.Inv tr settled s) (hall : s.joined.length = (c.chunk s.base).length) :
    s.workers = s.joined.map some := by
  refine (h.joined.eq_of_length ?_).symm
  have hle := h.joined.length_le
  have hwithin := h.within
  rw [List.length_map] at hle ⊢
  omega

theorem accounts (h : c.Inv tr settled s) (hworkers : s.workers = s.joined.map some)
    (hstarted : e.started = none) (hended : ∀ i, e.endOf i = none) :
    Accounts (tr ++ [e]) (settled ++ s.joined) where
  started := by
    rw [filterMap_snoc, hstarted, h.started, hworkers, h.base]
    simp
  ended i := by
    rw [filterMap_snoc, hended, h.ended, hworkers, ← List.map_append, List.getElem?_map]
    cases (settled ++ s.joined)[i]? <;> rfl

theorem spawn (h : c.Inv tr settled s) (hreturned : s.returned = none)
    (hmore : s.workers.length < (c.chunk s.base).length) :
    c.Inv (tr ++ [.spawn (s.base + s.workers.length)]) settled
      { s with workers := s.workers ++ [none] } where
  base := h.base
  fits := h.fits
  within := by simpa [Nat.succ_le_iff] using hmore
  whole := h.whole
  joined := h.joined.trans (List.prefix_append _ _)
  clean := h.clean
  results := h.results
  silent := h.silent
  started := by
    rw [filterMap_snoc, h.started, Event.started, Option.toList_some, List.length_append,
      List.length_singleton, ← Nat.add_assoc, List.range_succ]
  ended i := by
    rw [filterMap_snoc, h.ended, ← List.append_assoc, join_getElem?_snoc_none]
    simp [Event.endOf]
  stopped hstopped := absurd hreturned hstopped
  outcome r hr := by simp [hreturned] at hr

theorem finish (h : c.Inv tr settled s) {k : ℕ} (hk : s.workers[k]? = some none) (e : Ended T) :
    c.Inv (tr ++ [.finish (s.base + k) e]) settled
      { s with workers := s.workers.set k (some e) } where
  base := h.base
  fits := h.fits
  within := by simpa using h.within
  whole := h.whole
  joined := prefix_set h.joined hk e
  clean := h.clean
  results := h.results
  silent := h.silent
  started := by
    rw [filterMap_snoc, h.started]
    simp [Event.started]
  ended i := by
    have hlen : settled.length = s.base := h.base.symm
    have hslot : (settled.map some ++ s.workers)[s.base + k]? = some none := by
      rw [List.getElem?_append_right (by simp [hlen]), List.length_map, hlen,
        Nat.add_sub_cancel_left]
      exact hk
    have hset : settled.map some ++ s.workers.set k (some e) =
        (settled.map some ++ s.workers).set (s.base + k) (some e) := by
      rw [List.set_append_right _ _ (by simp [hlen]), List.length_map, hlen,
        Nat.add_sub_cancel_left]
    rw [filterMap_snoc, h.ended, hset, join_getElem?_set hslot, Event.endOf]
  stopped hstopped := absurd (h.not_returned hk) hstopped
  outcome r hr := by simp [h.not_returned hk] at hr

theorem join (h : c.Inv tr settled s) {e : Ended T}
    (hended : s.workers[s.joined.length]? = some (some e)) :
    c.Inv (tr ++ [.join (s.base + s.joined.length)]) settled
      { s with joined := s.joined ++ [e] } where
  base := h.base
  fits := h.fits
  within := h.within
  whole := h.whole
  joined := prefix_snoc h.joined hended
  clean := h.clean
  results := h.results
  silent := h.silent
  started := by
    rw [filterMap_snoc, h.started]
    simp [Event.started]
  ended i := by
    rw [filterMap_snoc, h.ended]
    simp [Event.endOf]
  stopped hstopped := absurd (h.not_returned_of_join hended) hstopped
  outcome r hr := by simp [h.not_returned_of_join hended] at hr

/-- A batch without a failure is over. -/
theorem pass (h : c.Inv tr settled s) (hreturned : s.returned = none)
    (hchunk : c.chunk s.base ≠ []) (hall : s.joined.length = (c.chunk s.base).length)
    (hfirst : (c.gather s).firstErr = none) :
    c.Inv (tr ++ [.settle]) (settled ++ s.joined)
      { s with
        base := s.base + (c.chunk s.base).length
        workers := []
        joined := []
        results := (c.gather s).results
        log := (c.gather s).log } := by
  have hfailures : failures (c.resultsOf s.joined) = [] := by
    rw [gather_eq] at hfirst
    exact List.head?_eq_none_iff.mp hfirst
  have haccounts : Accounts (tr ++ [.settle]) (settled ++ s.joined) :=
    h.accounts (h.workers_eq hall) rfl fun _ => rfl
  have hworkers := h.workers_eq hall
  have hpos := List.length_pos_of_ne_nil hchunk
  have hlen := c.length_chunk s.base
  have hfits := h.fits
  constructor
  case base => rw [List.length_append, ← h.base, hall]
  case fits =>
    simp only
    omega
  case within => exact Nat.zero_le _
  case whole =>
    rcases h.whole with heq | hdvd
    · omega
    · rcases Nat.le_total c.width (c.jobs.length - s.base) with hle | hle
      · right
        simp only [hlen, Nat.min_eq_left hle]
        exact Nat.dvd_add hdvd (Nat.dvd_refl _)
      · left
        simp only
        omega
  case joined => exact List.nil_prefix
  case clean => rw [resultsOf_append, failures_append, h.clean, hfailures, List.append_nil]
  case results =>
    intro _
    rw [gather_eq, h.results hreturned, resultsOf_append, values_append]
  case silent =>
    intro _
    rw [gather_eq, h.silent hreturned, hfailures]
    rfl
  case started =>
    have hstarted := haccounts.started
    rwa [List.length_append, ← h.base, hall] at hstarted
  case ended =>
    intro i
    rw [haccounts.ended, List.append_nil, List.getElem?_map]
    cases (settled ++ s.joined)[i]? <;> rfl
  case stopped => exact fun hstopped => absurd hreturned hstopped
  case outcome => simp [hreturned]

/-- A call ends with nothing of it at work. -/
theorem stop (h : c.Inv tr settled s) (hworkers : s.workers = s.joined.map some) (hstarted : e.started = none)
    (hended : ∀ i, e.endOf i = none) {results : List T}
    (hover : c.Outcome (settled ++ s.joined) r log) :
    c.Inv (tr ++ [e]) settled
      { s with results := results, log := log, returned := some r } where
  base := h.base
  fits := h.fits
  within := h.within
  whole := h.whole
  joined := h.joined
  clean := h.clean
  results hnone := nomatch hnone
  silent hnone := nomatch hnone
  started := by rw [filterMap_snoc, hstarted, h.started, Option.toList_none, List.append_nil]
  ended i := by rw [filterMap_snoc, hended, h.ended, Option.toList_none, List.append_nil]
  stopped _ := hworkers
  outcome r' hr' := by
    obtain rfl := Option.some.inj hr'
    exact ⟨_, h.accounts hworkers hstarted hended, hover⟩

/-- The subtractions of the last line count the jobs that were never started. -/
theorem outcome_fail (h : c.Inv tr settled s) {e : Failure} (hreturned : s.returned = none)
    (hchunk : c.chunk s.base ≠ []) (hall : s.joined.length = (c.chunk s.base).length)
    (hfirst : (c.gather s).firstErr = some e) :
    c.Outcome (settled ++ s.joined) (.error e) ((c.gather s).log ++
      c.summary (c.chunk s.base).length (c.gather s).chunkOk (c.gather s).results.length
        (c.jobs.length - (c.gather s).results.length -
          ((c.chunk s.base).length - (c.gather s).chunkOk))) := by
  have hdvd : c.width ∣ s.base := by
    rcases h.whole with heq | hdvd
    · refine absurd (List.drop_eq_nil_of_le (Nat.le_of_eq heq.symm)) fun hnil => hchunk ?_
      rw [chunk, hnil, List.take_nil]
    · exact hdvd
  rw [gather_eq] at hfirst ⊢
  obtain ⟨others, hothers⟩ := List.head?_eq_some_iff.mp hfirst
  have hsettled := c.length_resultsOf settled
  have hjoined := c.length_resultsOf s.joined
  rw [h.clean, List.length_nil, Nat.add_zero] at hsettled
  have houtcome := Outcome.failed (c := c) h.clean (h.base ▸ hdvd) (h.base ▸ hall) hothers
  have hstarted : c.jobs.length - (settled ++ s.joined).length = c.jobs.length -
      (values (c.resultsOf settled) ++ values (c.resultsOf s.joined)).length -
        (s.joined.length - (values (c.resultsOf s.joined)).length) := by
    rw [List.length_append, List.length_append]
    omega
  rw [hstarted, resultsOf_append, values_append] at houtcome
  simp only [h.silent hreturned, h.results hreturned, hothers, ← hall]
  exact houtcome

theorem done (h : c.Inv tr settled s) (hreturned : s.returned = none)
    (hchunk : c.chunk s.base = []) :
    c.Inv (tr ++ [.done]) settled { s with returned := some (.ok s.results) } := by
  have hlen := c.length_chunk s.base
  have hwithin := h.within
  rw [hchunk, List.length_nil] at hlen hwithin
  have hwidth := c.width_pos
  have hfits := h.fits
  have hall : settled.length = c.jobs.length := by
    rw [← h.base]
    omega
  have hnone : s.workers = [] := List.eq_nil_of_length_eq_zero (Nat.le_zero.mp hwithin)
  have hjoined : s.joined = [] := by simpa [hnone] using h.joined
  have houtcome : c.Outcome (settled ++ s.joined) (.ok s.results) s.log := by
    rw [hjoined, List.append_nil, h.results hreturned, h.silent hreturned]
    exact .ok hall h.clean
  exact h.stop (by rw [hnone, hjoined]; rfl) rfl (fun _ => rfl) houtcome

theorem step (h : c.Inv tr settled s) (hstep : c.Step s e t) :
    ∃ settled', c.Inv (tr ++ [e]) settled' t := by
  cases hstep with
  | spawn hreturned hmore => exact ⟨_, h.spawn hreturned hmore⟩
  | finish hrunning => exact ⟨_, h.finish hrunning _⟩
  | join hall hended => exact ⟨_, h.join hended⟩
  | pass hreturned hchunk hall hfirst => exact ⟨_, h.pass hreturned hchunk hall hfirst⟩
  | fail hreturned hchunk hall hfirst =>
    exact ⟨_, h.stop (h.workers_eq hall) rfl (fun _ => rfl)
      (h.outcome_fail hreturned hchunk hall hfirst)⟩
  | done hreturned hchunk => exact ⟨_, h.done hreturned hchunk⟩

end Inv

theorem Run.inv (h : c.Run tr s) : ∃ settled, c.Inv tr settled s := by
  induction h with
  | nil => exact ⟨_, inv_start⟩
  | snoc _ hstep ih =>
    obtain ⟨settled, hinv⟩ := ih
    exact hinv.step hstep

/-! ### Every run -/

/-- Three jobs for two workers, of which the second fails first. -/
def exampleCall : Call ℕ := ⟨[0, 1, 2], 2, "upx", ("binary", "binaries")⟩

def exampleRun (j : ℕ) : Ended String :=
  if j = 1 then .failure ⟨[], "not packed"⟩ else .value (toString j)

def exampleTrace : List (Event String) :=
  [.spawn 0, .spawn 1, .finish 1 (exampleRun 1), .finish 0 (exampleRun 0), .join 0, .join 1,
    .settle]

theorem run_exampleTrace : ∃ s, exampleCall.Run exampleTrace s ∧
    s.returned = some (.error ⟨[], "not packed"⟩) := by
  have h₁ := (Run.nil : exampleCall.Run _ (start : State String)).snoc
    (.spawn rfl (by decide))
  have h₂ := h₁.snoc (.spawn rfl (by decide))
  have h₃ := h₂.snoc (.finish (k := 1) (e := exampleRun 1) rfl)
  have h₄ := h₃.snoc (.finish (k := 0) (e := exampleRun 0) rfl)
  have h₅ := h₄.snoc (.join (e := exampleRun 0) rfl rfl)
  have h₆ := h₅.snoc (.join (e := exampleRun 1) rfl rfl)
  exact ⟨_, h₆.snoc (.fail rfl (by decide) rfl rfl), rfl⟩

/-- A bound on the steps, from what is left to do. -/
structure Spent (c : Call J) (tr : List (Event T)) (s : State T) : Prop where
  open_ : s.returned = none → tr.length ≤
    4 * s.base + s.workers.length + s.workers.countP (·.isSome) + s.joined.length
  closed : s.returned ≠ none → tr.length ≤ 4 * c.jobs.length + 1

theorem Spent.step (h : Spent c tr s) (hinv : c.Inv tr settled s) (hstep : c.Step s e t) :
    Spent c (tr ++ [e]) t := by
  have hfits := hinv.fits
  have hlen := c.length_chunk s.base
  have hcount : s.workers.countP (·.isSome) ≤ s.workers.length := List.countP_le_length
  cases hstep with
  | spawn hreturned hmore =>
    have hopen := h.open_ hreturned
    refine ⟨fun _ => ?_, fun hne => absurd hreturned hne⟩
    simp only [List.length_append, List.countP_append, List.length_singleton]
    omega
  | @finish k e hrunning =>
    have hreturned := hinv.not_returned hrunning
    have hopen := h.open_ hreturned
    obtain ⟨hlt, hnone⟩ := List.getElem?_eq_some_iff.mp hrunning
    refine ⟨fun _ => ?_, fun hne => absurd hreturned hne⟩
    simp only [List.length_append, List.length_singleton, List.length_set,
      List.countP_set hlt, hnone, Option.isSome_none, Option.isSome_some, if_true,
      Bool.false_eq_true, if_false]
    omega
  | join hall hended =>
    have hreturned := hinv.not_returned_of_join hended
    have hopen := h.open_ hreturned
    refine ⟨fun _ => ?_, fun hne => absurd hreturned hne⟩
    simp only [List.length_append, List.length_singleton]
    omega
  | pass hreturned hchunk hall hfirst =>
    have hopen := h.open_ hreturned
    have hwithin := hinv.within
    have hpos := List.length_pos_of_ne_nil hchunk
    refine ⟨fun _ => ?_, fun hne => absurd hreturned hne⟩
    simp only [List.length_append, List.length_singleton, List.length_nil, List.countP_nil]
    omega
  | fail hreturned hchunk hall hfirst =>
    have hopen := h.open_ hreturned
    have hwithin := hinv.within
    refine ⟨nofun, fun _ => ?_⟩
    simp only [List.length_append, List.length_singleton]
    omega
  | done hreturned hchunk =>
    have hopen := h.open_ hreturned
    have hwithin := hinv.within
    rw [hchunk, List.length_nil] at hwithin hlen
    have hjoined := hinv.joined.length_le
    rw [List.length_map] at hjoined
    refine ⟨nofun, fun _ => ?_⟩
    simp only [List.length_append, List.length_singleton]
    omega

theorem Run.spent (h : c.Run tr s) : Spent c tr s := by
  induction h with
  | nil => exact ⟨fun _ => Nat.zero_le _, fun _ => Nat.zero_le _⟩
  | snoc h hstep ih =>
    obtain ⟨settled, hinv⟩ := h.inv
    exact ih.step hinv hstep

theorem Run.length_le (h : c.Run tr s) : tr.length ≤ 4 * c.jobs.length + 1 := by
  obtain ⟨settled, hinv⟩ := h.inv
  by_cases hreturned : s.returned = none
  · have hopen := h.spent.open_ hreturned
    have hcount : s.workers.countP (·.isSome) ≤ s.workers.length := List.countP_le_length
    have hwithin := hinv.within
    have hjoined := hinv.joined.length_le
    have hfits := hinv.fits
    rw [length_chunk] at hwithin
    rw [List.length_map] at hjoined
    omega
  · exact h.spent.closed hreturned

/-- A finished job ended as it does alone. -/
def Gives (c : Call J) (run : J → Ended T) : Event T → Prop
  | .finish i e => ∃ j, c.jobs[i]? = some j ∧ e = run j
  | _ => True

/-- A call that has not returned can go on. -/
theorem Run.exists_step (h : c.Run tr s) (run : J → Ended T) (hreturned : s.returned = none) :
    ∃ e t, c.Step s e t ∧ c.Gives run e := by
  obtain ⟨settled, hinv⟩ := h.inv
  have hlen := c.length_chunk s.base
  have hwithin := hinv.within
  have hjoined := hinv.joined.length_le
  rw [List.length_map] at hjoined
  by_cases hchunk : c.chunk s.base = []
  · exact ⟨_, _, .done hreturned hchunk, trivial⟩
  by_cases hmore : s.workers.length < (c.chunk s.base).length
  · exact ⟨_, _, .spawn hreturned hmore, trivial⟩
  by_cases hall : s.joined.length = (c.chunk s.base).length
  · cases hfirst : (c.gather s).firstErr with
    | none => exact ⟨_, _, .pass hreturned hchunk hall hfirst, trivial⟩
    | some e => exact ⟨_, _, .fail hreturned hchunk hall hfirst, trivial⟩
  have hnext : s.joined.length < s.workers.length := by omega
  cases hslot : s.workers[s.joined.length] with
  | none =>
    have hjob : s.base + s.joined.length < c.jobs.length := by omega
    exact ⟨_, _, .finish (List.getElem?_eq_some_iff.mpr ⟨hnext, hslot⟩), _,
      List.getElem?_eq_getElem hjob, rfl⟩
  | some e =>
    have hended : s.workers[s.joined.length]? = some (some e) :=
      List.getElem?_eq_some_iff.mpr ⟨hnext, hslot⟩
    exact ⟨_, _, .join (by omega) hended, trivial⟩

/-- Later results do not change what is returned for a failure. -/
theorem Outcome.eq_mapM {rest : List (Ended T)} (h : c.Outcome ends r log)
    (hrest : ends.length = c.jobs.length → rest = []) :
    r = (c.resultsOf (ends ++ rest)).mapM id := by
  rw [mapM_id_eq]
  cases h with
  | ok hall hvalues => rw [hrest hall, List.append_nil, hvalues]
  | failed hearlier hwhole hbatch hfirst =>
    simp only [resultsOf_append, failures_append, hearlier, hfirst, List.nil_append,
      List.cons_append]

/-- The jobs that a call started are a prefix of its jobs, and ended as each does alone. -/
theorem Accounts.prefix {run : J → Ended T} (h : Accounts tr ends)
    (hgives : ∀ e ∈ tr, c.Gives run e) : ends <+: c.jobs.map run := by
  have hends : ∀ (i : ℕ) x, ends[i]? = some x → ∃ j, c.jobs[i]? = some j ∧ x = run j := by
    intro i x hx
    have hin : x ∈ tr.filterMap (Event.endOf i) := by simp [h.ended i, hx]
    obtain ⟨e, he, hex⟩ := List.mem_filterMap.mp hin
    cases e <;> simp only [Event.endOf, reduceCtorEq, Option.ite_none_right_eq_some] at hex
    obtain ⟨rfl, heq⟩ := hex
    obtain ⟨j, hj, rfl⟩ := hgives _ he
    exact ⟨j, hj, (Option.some.inj heq).symm⟩
  rw [List.prefix_iff_getElem?]
  intro i hi
  obtain ⟨j, hj, heq⟩ := hends i ends[i] (List.getElem?_eq_getElem hi)
  rw [List.getElem?_map, hj, heq]
  rfl

/-- Where the jobs end alone as they do together, every interleaving of every batch size returns
what one job after the other returns, and it does return. -/
theorem runParallelChunks_sequential {run : J → Ended T} (h : c.Run tr s)
    (hgives : ∀ e ∈ tr, c.Gives run e) :
    tr.length ≤ 4 * c.jobs.length + 1 ∧
      (s.returned = none → ∃ e t, c.Step s e t ∧ c.Gives run e) ∧
      ∀ r, s.returned = some r → r = c.jobs.mapM fun j => (run j).toResult c.stageName := by
  refine ⟨h.length_le, h.exists_step run, fun r hr => ?_⟩
  obtain ⟨settled, hinv⟩ := h.inv
  obtain ⟨ends, haccounts, houtcome⟩ := hinv.outcome r hr
  obtain ⟨rest, hrest⟩ := haccounts.prefix hgives
  have hlen := congrArg List.length hrest
  rw [List.length_append, List.length_map] at hlen
  have hresult : r = (c.resultsOf (ends ++ rest)).mapM id :=
    houtcome.eq_mapM fun hall => List.eq_nil_of_length_eq_zero (by omega)
  rw [hresult, hrest, resultsOf, List.mapM_map, List.mapM_map]
  rfl

theorem runParallelChunks_sequential_upx :
    (Except.error ⟨[], "not packed"⟩ : Except Failure (List String)) =
      exampleCall.jobs.mapM fun j => (exampleRun j).toResult exampleCall.stageName := by
  obtain ⟨s, hrun, hr⟩ := run_exampleTrace
  have hgives : ∀ e ∈ exampleTrace, exampleCall.Gives exampleRun e := by
    intro e he
    simp only [exampleTrace, List.mem_cons, List.not_mem_nil, or_false] at he
    rcases he with rfl | rfl | rfl | rfl | rfl | rfl | rfl
    exacts [trivial, trivial, ⟨1, rfl, rfl⟩, ⟨0, rfl, rfl⟩, trivial, trivial, trivial]
  exact (runParallelChunks_sequential hrun hgives).2.2 _ hr

end Call

end Anodizer.Parallel
