import Mathlib.Data.Finset.Insert
import Mathlib.Data.List.Nodup
import Mathlib.Tactic.Common

/-! # The dispatch of announcements

Sends run on a bounded pool of detached workers. A worker pops the last provider of a shared list,
sends, and reports over a channel. One collector takes the reports until all are in or the deadline
is over, drains the channel once more, and calls the providers without a report abandoned.
-/

namespace Anodizer.Announce

/-- What a send comes to: nothing, or the text of its error chain. -/
abbrev Sent := Except String Unit

structure DispatchOutcome where
  errors : List (String × String)
  abandoned : List String
  succeeded : List String
  deriving DecidableEq, Repr

def maxAnnounceWorkers : ℕ := 8

/-- Where the collector stands: in its loop with some rounds left, in the last drain, behind the
drain with the receiver still open, or returned. -/
inductive Collector
  | receiving (left : ℕ)
  | draining
  | closing
  | closed
  deriving DecidableEq, Repr

/-- The workers, what they share with the collector, and what it has noted. -/
structure Pool where
  work : List String
  idle : ℕ
  busy : List String
  channel : List (String × Sent)
  collector : Collector
  reported : Finset String
  succeeded : List String
  errors : List (String × String)

inductive Event
  | pop (provider : String)
  | exit
  | report (provider : String) (result : Sent)
  | refuse (provider : String)
  | panic (provider : String)
  | receive
  | timeout
  | advance
  | drained

namespace Pool

def start (queue : List String) : Pool where
  work := queue
  idle := min queue.length maxAnnounceWorkers
  busy := []
  channel := []
  collector := .receiving queue.length
  reported := ∅
  succeeded := []
  errors := []

/-- The collector notes a report. -/
def note (s : Pool) : String × Sent → Pool
  | (p, .ok ()) => { s with reported := insert p s.reported, succeeded := s.succeeded ++ [p] }
  | (p, .error e) =>
    { s with reported := insert p s.reported, errors := s.errors ++ [(p, p ++ ": " ++ e)] }

/-- What is returned for a queue. -/
def outcome (queue : List String) (s : Pool) : DispatchOutcome where
  errors := s.errors
  abandoned := queue.filter (· ∉ s.reported)
  succeeded := s.succeeded

/-- One step of a worker or of the collector. -/
inductive Step : Pool → Event → Pool → Prop
  | pop {s : Pool} {ws : List String} {p : String} {n : ℕ} (hwork : s.work = ws ++ [p])
      (hidle : s.idle = n + 1) :
      Step s (.pop p) { s with work := ws, idle := n, busy := p :: s.busy }
  | exit {s : Pool} {n : ℕ} (hwork : s.work = []) (hidle : s.idle = n + 1) :
      Step s .exit { s with idle := n }
  | report {s : Pool} {p : String} {r : Sent} (hbusy : p ∈ s.busy)
      (hopen : s.collector ≠ .closed) :
      Step s (.report p r)
        { s with busy := s.busy.erase p, idle := s.idle + 1, channel := s.channel ++ [(p, r)] }
  -- the receiver is gone, and the worker stops
  | refuse {s : Pool} {p : String} (hbusy : p ∈ s.busy) (hclosed : s.collector = .closed) :
      Step s (.refuse p) { s with busy := s.busy.erase p }
  | panic {s : Pool} {p : String} (hbusy : p ∈ s.busy) :
      Step s (.panic p) { s with busy := s.busy.erase p }
  | receive {s : Pool} {m : String × Sent} {ms : List (String × Sent)} {n : ℕ}
      (hat : s.collector = .receiving (n + 1)) (hchannel : s.channel = m :: ms) :
      Step s .receive ({ s with channel := ms, collector := .receiving n }.note m)
  | timeout {s : Pool} {n : ℕ} (hat : s.collector = .receiving (n + 1)) :
      Step s .timeout { s with collector := .draining }
  -- every sender is gone
  | disconnected {s : Pool} {n : ℕ} (hat : s.collector = .receiving (n + 1))
      (hchannel : s.channel = []) (hidle : s.idle = 0) (hbusy : s.busy = []) :
      Step s .advance { s with collector := .draining }
  | all {s : Pool} (hat : s.collector = .receiving 0) :
      Step s .advance { s with collector := .draining }
  | drain {s : Pool} {m : String × Sent} {ms : List (String × Sent)}
      (hat : s.collector = .draining) (hchannel : s.channel = m :: ms) :
      Step s .receive ({ s with channel := ms }.note m)
  | drained {s : Pool} (hat : s.collector = .draining) (hchannel : s.channel = []) :
      Step s .drained { s with collector := .closing }
  | close {s : Pool} (hat : s.collector = .closing) :
      Step s .advance { s with collector := .closed }

/-- The events of a run over a queue, the last one at the end. -/
inductive Run (queue : List String) : List Event → Pool → Prop
  | nil : Run queue [] (start queue)
  | snoc {tr : List Event} {s t : Pool} {e : Event} (h : Run queue tr s) (hstep : Step s e t) :
      Run queue (tr ++ [e]) t

end Pool

open Pool

/-- The events of a run up to its return, and what it returns. Nothing is spawned for an empty
queue. -/
def RunsQueue (queue : List String) (tr : List Event) (o : DispatchOutcome) : Prop :=
  queue = [] ∧ tr = [] ∧ o = ⟨[], [], []⟩ ∨
    ∃ s, Run queue tr s ∧ s.collector = .closing ∧ o = s.outcome queue

/-- How many steps the collector still takes by itself. -/
def Collector.rank : Collector → ℕ
  | .receiving _ => 3
  | .draining => 2
  | .closing => 1
  | .closed => 0

/-- The send that an event begins. -/
def Event.begun : Event → Option String
  | .pop p => some p
  | _ => none

/-- The send that an event ends without a report. -/
def Event.lost : Event → Option String
  | .refuse p | .panic p => some p
  | _ => none

namespace Pool

variable {queue : List String} {tr : List Event} {s t : Pool} {e : Event} {m : String × Sent}
  {p : String}

/-! ### What a step keeps -/

/-- The providers whose reports the collector noted. -/
def results (s : Pool) : List String := s.succeeded ++ s.errors.map Prod.fst

theorem count_results_note (s : Pool) (m : String × Sent) (p : String) :
    (s.note m).results.count p = s.results.count p + [m.1].count p := by
  obtain ⟨q, - | -⟩ := m <;> simp only [note, results, List.count_append, List.map_append,
    List.map_cons, List.map_nil] <;> omega

theorem length_results_note (s : Pool) (m : String × Sent) :
    (s.note m).results.length = s.results.length + 1 := by
  obtain ⟨q, - | -⟩ := m <;> simp [note, results] <;> omega

theorem mem_results_note : p ∈ (s.note m).results ↔ p = m.1 ∨ p ∈ s.results := by
  obtain ⟨q, - | -⟩ := m <;> simp [note, results] <;> tauto

@[simp] theorem note_reported (s : Pool) (m : String × Sent) :
    (s.note m).reported = insert m.1 s.reported := by
  obtain ⟨q, - | -⟩ := m <;> rfl

@[simp] theorem note_work (s : Pool) (m : String × Sent) : (s.note m).work = s.work := by
  obtain ⟨q, - | -⟩ := m <;> rfl

@[simp] theorem note_idle (s : Pool) (m : String × Sent) : (s.note m).idle = s.idle := by
  obtain ⟨q, - | -⟩ := m <;> rfl

@[simp] theorem note_busy (s : Pool) (m : String × Sent) : (s.note m).busy = s.busy := by
  obtain ⟨q, - | -⟩ := m <;> rfl

@[simp] theorem note_channel (s : Pool) (m : String × Sent) : (s.note m).channel = s.channel := by
  obtain ⟨q, - | -⟩ := m <;> rfl

@[simp] theorem note_collector (s : Pool) (m : String × Sent) :
    (s.note m).collector = s.collector := by
  obtain ⟨q, - | -⟩ := m <;> rfl

/-- Every provider of the queue is somewhere. -/
structure Inv (queue : List String) (tr : List Event) (s : Pool) : Prop where
  begun : ∀ p, (tr.filterMap Event.begun).count p + s.work.count p = queue.count p
  held : ∀ p, s.busy.count p + (s.channel.map Prod.fst).count p + s.results.count p +
    (tr.filterMap Event.lost).count p = (tr.filterMap Event.begun).count p
  reported : ∀ p, p ∈ s.reported ↔ p ∈ s.results
  bounded : s.idle + s.busy.length ≤ min queue.length maxAnnounceWorkers
  rounds : ∀ n, s.collector = .receiving n → n + s.results.length = queue.length

theorem inv_start : Inv queue [] (start queue) where
  begun p := by simp [start]
  held p := by simp [start, results]
  reported p := by simp [start, results]
  bounded := by simp [start]
  rounds n h := by
    obtain rfl := Collector.receiving.inj h
    simp [start, results]

theorem count_erase_add {l : List String} {q : String} (h : q ∈ l) (p : String) :
    (l.erase q).count p + [q].count p = l.count p := by
  rw [(List.perm_cons_erase h).count_eq p, List.count_singleton, List.count_cons]

theorem filterMap_snoc (f : Event → Option String) (tr : List Event) (e : Event) :
    (tr ++ [e]).filterMap f = tr.filterMap f ++ (f e).toList := by
  cases h : f e <;> simp [h]

namespace Inv

/-- The collector moves, and no send begins or ends. -/
theorem move (h : Inv queue tr s) (hbegun : e.begun = none) (hlost : e.lost = none)
    {c : Collector} (hc : ∀ n, c = .receiving n → n + s.results.length = queue.length) :
    Inv queue (tr ++ [e]) { s with collector := c } where
  begun p := by
    rw [filterMap_snoc, hbegun, Option.toList_none, List.append_nil]
    exact h.begun p
  held p := by
    rw [filterMap_snoc, filterMap_snoc, hbegun, hlost, Option.toList_none, List.append_nil,
      List.append_nil]
    exact h.held p
  reported := h.reported
  bounded := h.bounded
  rounds := hc

/-- A send ends without a report. -/
theorem lose (h : Inv queue tr s) (hbusy : p ∈ s.busy) (hbegun : e.begun = none)
    (hlost : e.lost = some p) : Inv queue (tr ++ [e]) { s with busy := s.busy.erase p } where
  begun q := by
    rw [filterMap_snoc, hbegun, Option.toList_none, List.append_nil]
    exact h.begun q
  held q := by
    have hq := h.held q
    have herase := count_erase_add hbusy q
    rw [filterMap_snoc, filterMap_snoc, hbegun, hlost, Option.toList_none, List.append_nil,
      Option.toList_some, List.count_append]
    simp only [results] at hq ⊢
    omega
  reported := h.reported
  bounded := by
    have hlen := h.bounded
    simp only [List.length_erase_of_mem hbusy]
    omega
  rounds := h.rounds

/-- The collector notes the first report of the channel. -/
theorem take {ms : List (String × Sent)} (h : Inv queue tr s) (hchannel : s.channel = m :: ms)
    {c : Collector} (hc : ∀ n, c = .receiving n → n + (s.results.length + 1) = queue.length) :
    Inv queue (tr ++ [.receive]) ({ s with channel := ms, collector := c }.note m) where
  begun p := by
    rw [filterMap_snoc, note_work]
    simpa [Event.begun] using h.begun p
  held p := by
    have hp := h.held p
    rw [hchannel, List.map_cons, ← List.singleton_append, List.count_append] at hp
    rw [filterMap_snoc, filterMap_snoc, note_busy, note_channel, count_results_note]
    simp only [Event.begun, Event.lost, Option.toList_none, List.append_nil, results] at hp ⊢
    omega
  reported p := by
    rw [note_reported, Finset.mem_insert, mem_results_note]
    exact or_congr_right (h.reported p)
  bounded := by
    rw [note_idle, note_busy]
    exact h.bounded
  rounds n hn := by
    rw [note_collector] at hn
    rw [length_results_note]
    exact hc n hn

theorem step (h : Inv queue tr s) (hstep : Step s e t) : Inv queue (tr ++ [e]) t := by
  have hlen := h.bounded
  cases hstep with
  | @pop ws q n hwork hidle =>
    refine ⟨fun p => ?_, fun p => ?_, h.reported, ?_, h.rounds⟩
    · have hp := h.begun p
      rw [hwork, List.count_append] at hp
      rw [filterMap_snoc, Event.begun, Option.toList_some, List.count_append]
      simp only
      omega
    · have hp := h.held p
      rw [filterMap_snoc, filterMap_snoc, ← List.singleton_append, List.count_append]
      simp only [Event.begun, Event.lost, Option.toList_none, Option.toList_some,
        List.append_nil, List.count_append, results] at hp ⊢
      omega
    · simp only [List.length_cons]
      omega
  | exit hwork hidle =>
    refine ⟨fun p => ?_, fun p => ?_, h.reported, ?_, h.rounds⟩
    · rw [filterMap_snoc]
      simpa [Event.begun] using h.begun p
    · rw [filterMap_snoc, filterMap_snoc]
      simpa [Event.begun, Event.lost, results] using h.held p
    · simp only
      omega
  | @report q r hbusy hopen =>
    refine ⟨fun p => ?_, fun p => ?_, h.reported, ?_, h.rounds⟩
    · rw [filterMap_snoc]
      simpa [Event.begun] using h.begun p
    · have hp := h.held p
      have hq := count_erase_add hbusy p
      rw [filterMap_snoc, filterMap_snoc]
      simp only [Event.begun, Event.lost, Option.toList_none, List.append_nil, List.map_append,
        List.map_cons, List.map_nil, List.count_append, results] at hp ⊢
      omega
    · have hpos := List.length_pos_of_mem hbusy
      simp only [List.length_erase_of_mem hbusy]
      omega
  | refuse hbusy hclosed => exact h.lose hbusy rfl rfl
  | panic hbusy => exact h.lose hbusy rfl rfl
  | @receive m ms n hat hchannel =>
    refine h.take hchannel fun k hk => ?_
    obtain rfl := Collector.receiving.inj hk
    have hn := h.rounds _ hat
    omega
  | drain hat hchannel => exact h.take hchannel fun k hk => nomatch hat.symm.trans hk
  | timeout | disconnected | all | drained | close => exact h.move rfl rfl nofun

end Inv

theorem Run.inv (h : Run queue tr s) : Inv queue tr s := by
  induction h with
  | nil => exact inv_start
  | snoc _ hstep ih => exact ih.step hstep

/-! ### What was told is noted -/

/-- What the collector noted was reported, and what was reported is noted or on the channel. -/
structure Told (tr : List Event) (s : Pool) : Prop where
  channel : ∀ m ∈ s.channel, .report m.1 m.2 ∈ tr
  succeeded : ∀ p ∈ s.succeeded, .report p (.ok ()) ∈ tr
  errors : ∀ m ∈ s.errors, ∃ text, .report m.1 (.error text) ∈ tr ∧ m.2 = m.1 ++ ": " ++ text
  noted : ∀ p r, .report p r ∈ tr → p ∈ s.reported ∨ p ∈ s.channel.map Prod.fst

namespace Told

theorem start (queue : List String) : Told [] (start queue) := by
  constructor <;> simp [Pool.start]

/-- A step that is no report and leaves the channel and the notes alone. -/
theorem keep (h : Told tr s) (he : ∀ p r, e ≠ .report p r) (hchannel : t.channel = s.channel)
    (hreported : t.reported = s.reported) (hsucceeded : t.succeeded = s.succeeded)
    (herrors : t.errors = s.errors) : Told (tr ++ [e]) t where
  channel m hm := List.mem_append_left _ (h.channel m (hchannel ▸ hm))
  succeeded p hp := List.mem_append_left _ (h.succeeded p (hsucceeded ▸ hp))
  errors m hm := by
    obtain ⟨text, hin, htext⟩ := h.errors m (herrors ▸ hm)
    exact ⟨text, List.mem_append_left _ hin, htext⟩
  noted p r hp := by
    rw [hreported, hchannel]
    rcases List.mem_append.mp hp with hp | hp
    · exact h.noted p r hp
    · exact absurd (List.mem_singleton.mp hp).symm (he p r)

theorem take {ms : List (String × Sent)} {c : Collector} (h : Told tr s)
    (hchannel : s.channel = m :: ms) :
    Told (tr ++ [.receive]) ({ s with channel := ms, collector := c }.note m) where
  channel m' hm' := by
    rw [note_channel] at hm'
    exact List.mem_append_left _ (h.channel m' (hchannel ▸ List.mem_cons_of_mem _ hm'))
  succeeded p hp := by
    obtain ⟨q, text | _⟩ := m
    · exact List.mem_append_left _ (h.succeeded p hp)
    · have hsnoc : p ∈ s.succeeded ++ [q] := hp
      rcases List.mem_append.mp hsnoc with hp | hp
      · exact List.mem_append_left _ (h.succeeded p hp)
      · obtain rfl := List.mem_singleton.mp hp
        exact List.mem_append_left _ (h.channel (p, .ok ()) (hchannel ▸ List.mem_cons_self))
  errors m' hm' := by
    obtain ⟨q, text | _⟩ := m
    · have hsnoc : m' ∈ s.errors ++ [(q, q ++ ": " ++ text)] := hm'
      rcases List.mem_append.mp hsnoc with hm' | hm'
      · obtain ⟨text', hin, htext⟩ := h.errors m' hm'
        exact ⟨text', List.mem_append_left _ hin, htext⟩
      · obtain rfl := List.mem_singleton.mp hm'
        exact ⟨text, List.mem_append_left _
          (h.channel (q, .error text) (hchannel ▸ List.mem_cons_self)), rfl⟩
    · obtain ⟨text', hin, htext⟩ := h.errors m' hm'
      exact ⟨text', List.mem_append_left _ hin, htext⟩
  noted p r hp := by
    rw [note_reported, note_channel, Finset.mem_insert]
    rcases List.mem_append.mp hp with hp | hp
    · rcases h.noted p r hp with hp | hp
      · exact .inl (.inr hp)
      · rw [hchannel, List.map_cons, List.mem_cons] at hp
        exact hp.imp .inl id
    · cases List.mem_singleton.mp hp

theorem step (h : Told tr s) (hstep : Step s e t) : Told (tr ++ [e]) t := by
  cases hstep with
  | @report q r hbusy hopen =>
    refine ⟨fun m hm => ?_, fun p hp => List.mem_append_left _ (h.succeeded p hp),
      fun m hm => ?_, fun p r' hp => ?_⟩
    · rcases List.mem_append.mp hm with hm | hm
      · exact List.mem_append_left _ (h.channel m hm)
      · obtain rfl := List.mem_singleton.mp hm
        exact List.mem_append_right _ (List.mem_singleton_self _)
    · obtain ⟨text, hin, htext⟩ := h.errors m hm
      exact ⟨text, List.mem_append_left _ hin, htext⟩
    · rw [List.map_append, List.mem_append]
      rcases List.mem_append.mp hp with hp | hp
      · exact (h.noted p r' hp).imp_right .inl
      · cases List.mem_singleton.mp hp
        exact .inr (.inr (List.mem_singleton_self _))
  | receive hat hchannel => exact h.take hchannel
  | drain hat hchannel => exact h.take hchannel
  | pop | exit | refuse | panic | timeout | disconnected | all | drained | close =>
    exact h.keep nofun rfl rfl rfl rfl

end Told

theorem Run.told (h : Run queue tr s) : Told tr s := by
  induction h with
  | nil => exact Told.start queue
  | snoc _ hstep ih => exact ih.step hstep

theorem Step.reported_subset (h : Step s e t) : s.reported ⊆ t.reported := by
  cases h with
  | receive hat hchannel | drain hat hchannel =>
    rw [note_reported]
    exact Finset.subset_insert _ _
  | _ => exact Finset.Subset.refl _

/-- The last drain leaves no report behind. -/
theorem Run.reported_of_drained (h : Run queue tr s) {tr₁ tr₂ : List Event} {r : Sent}
    (htr : tr = tr₁ ++ .drained :: tr₂) (hp : .report p r ∈ tr₁) : p ∈ s.reported := by
  induction h generalizing tr₂ with
  | nil => simp at htr
  | @snoc tr s t e h hstep ih =>
    rcases List.eq_nil_or_concat tr₂ with rfl | ⟨tr₂, e', rfl⟩
    · obtain ⟨rfl, he⟩ := List.append_inj' htr rfl
      obtain rfl := List.singleton_inj.mp he
      cases hstep with
      | drained hat hchannel =>
        rcases h.told.noted p r hp with hp | hp
        · exact hp
        · simp [hchannel] at hp
    · rw [List.concat_eq_append, ← List.cons_append, ← List.append_assoc] at htr
      obtain ⟨rfl, -⟩ := List.append_inj' htr rfl
      exact hstep.reported_subset (ih rfl)

/-! ### Every run ends -/

/-- A bound on the steps that are left. -/
def fuel (s : Pool) : ℕ :=
  4 * s.work.length + 3 * s.busy.length + s.channel.length + s.idle + s.collector.rank

theorem Step.fuel_lt (h : Step s e t) : t.fuel < s.fuel := by
  cases h with
  | pop hwork hidle =>
    simp only [fuel, hwork, hidle, List.length_append, List.length_cons, List.length_nil]
    omega
  | exit hwork hidle =>
    simp only [fuel, hidle]
    omega
  | report hbusy hopen =>
    have hpos := List.length_pos_of_mem hbusy
    simp only [fuel, List.length_erase_of_mem hbusy, List.length_append, List.length_cons,
      List.length_nil]
    omega
  | refuse hbusy hclosed | panic hbusy =>
    have hpos := List.length_pos_of_mem hbusy
    simp only [fuel, List.length_erase_of_mem hbusy]
    omega
  | receive hat hchannel | drain hat hchannel =>
    simp only [fuel, note_work, note_busy, note_channel, note_idle, note_collector, hchannel,
      hat, Collector.rank, List.length_cons]
    omega
  | timeout hat | disconnected hat | all hat | drained hat | close hat =>
    simp only [fuel, hat, Collector.rank]
    omega

theorem Run.length_add_fuel_le (h : Run queue tr s) :
    tr.length + s.fuel ≤ (start queue).fuel := by
  induction h with
  | nil => simp
  | snoc _ hstep ih =>
    have hlt := hstep.fuel_lt
    rw [List.length_append, List.length_singleton]
    omega

/-- Where only the clock or a panic could do anything, the collector has returned and no worker is
left. -/
theorem done_of_stuck (h : ∀ e t, Step s e t → e = .timeout ∨ ∃ p, e = .panic p) :
    s.collector = .closed ∧ s.busy = [] ∧ s.idle = 0 := by
  have hbusy : s.busy = [] := by
    rw [List.eq_nil_iff_forall_not_mem]
    intro p hp
    by_cases hclosed : s.collector = .closed
    · simpa using h _ _ (.refuse hp hclosed)
    · simpa using h _ _ (.report (r := .ok ()) hp hclosed)
  have hidle : s.idle = 0 := by
    by_contra hne
    obtain ⟨n, hn⟩ := Nat.exists_eq_succ_of_ne_zero hne
    rcases List.eq_nil_or_concat s.work with hwork | ⟨ws, p, hwork⟩
    · simpa using h _ _ (.exit hwork hn)
    · simpa using h _ _ (.pop (hwork.trans (List.concat_eq_append ..)) hn)
  refine ⟨?_, hbusy, hidle⟩
  cases hat : s.collector with
  | receiving n =>
    cases n with
    | zero => simpa using h _ _ (.all hat)
    | succ n =>
      cases hchannel : s.channel with
      | nil => simpa using h _ _ (.disconnected hat hchannel hidle hbusy)
      | cons m ms => simpa using h _ _ (.receive hat hchannel)
  | draining =>
    cases hchannel : s.channel with
    | nil => simpa using h _ _ (.drained hat hchannel)
    | cons m ms => simpa using h _ _ (.drain hat hchannel)
  | closing => simpa using h _ _ (.close hat)
  | closed => rfl

/-! ### Runs in time -/

/-- The deadline is not reached, and no send panics. -/
structure Calm (tr : List Event) : Prop where
  inTime : .timeout ∉ tr
  unharmed : ∀ p, .panic p ∉ tr

theorem Calm.of_append {tr' : List Event} (h : Calm (tr ++ tr')) : Calm tr where
  inTime hin := h.inTime (List.mem_append_left _ hin)
  unharmed p hin := h.unharmed p (List.mem_append_left _ hin)

/-- Before the return no send is lost, no worker leaves while there is work, and the collector
leaves its loop with every report. -/
structure Kept (queue : List String) (tr : List Event) (s : Pool) : Prop where
  kept : s.collector ≠ .closed → tr.filterMap Event.lost = []
  manned : s.collector ≠ .closed → s.work ≠ [] →
    s.idle + s.busy.length = min queue.length maxAnnounceWorkers
  full : (∀ n, s.collector ≠ .receiving n) → s.results.length = queue.length

theorem kept_start (queue : List String) : Kept queue [] (start queue) where
  kept _ := rfl
  manned _ _ := Nat.add_zero _
  full h := absurd rfl (h queue.length)

theorem Inv.length_eq (h : Inv queue tr s) :
    s.busy.length + s.channel.length + s.results.length + (tr.filterMap Event.lost).length +
      s.work.length = queue.length := by
  have hperm : (s.busy ++ s.channel.map Prod.fst ++ s.results ++ tr.filterMap Event.lost ++
      s.work).Perm queue := by
    rw [List.perm_iff_count]
    intro p
    simp only [List.count_append]
    rw [h.held p]
    exact h.begun p
  simpa only [List.length_append, List.length_map] using hperm.length_eq

namespace Kept

/-- A step of the collector in its loop. -/
theorem move (h : Kept queue tr s) (hopen : s.collector ≠ .closed) (hlost : e.lost = none)
    {c : Collector}
    (hc : (∀ n, c ≠ .receiving n) → s.results.length = queue.length) :
    Kept queue (tr ++ [e]) { s with collector := c } where
  kept _ := by
    rw [filterMap_snoc, hlost, h.kept hopen]
    rfl
  manned _ hwork := h.manned hopen hwork
  full := hc

theorem take {ms : List (String × Sent)} {c : Collector} (h : Kept queue tr s)
    (hopen : s.collector ≠ .closed)
    (hc : (∀ n, c ≠ .receiving n) → s.results.length + 1 = queue.length) :
    Kept queue (tr ++ [.receive]) ({ s with channel := ms, collector := c }.note m) where
  kept _ := by
    rw [filterMap_snoc, h.kept hopen]
    rfl
  manned _ hwork := by
    rw [note_work] at hwork
    rw [note_idle, note_busy]
    exact h.manned hopen hwork
  full hat := by
    rw [note_collector] at hat
    rw [length_results_note]
    exact hc hat

theorem step (h : Kept queue tr s) (hinv : Inv queue tr s) (hcalm : Calm (tr ++ [e]))
    (hstep : Step s e t) : Kept queue (tr ++ [e]) t := by
  have hlen := hinv.length_eq
  cases hstep with
  | @pop ws q n hwork hidle =>
    refine ⟨fun hopen => ?_, fun hopen _ => ?_, h.full⟩
    · rw [filterMap_snoc, h.kept hopen]
      rfl
    · have hman := h.manned hopen (by simp [hwork])
      simp only [List.length_cons]
      omega
  | exit hwork hidle =>
    refine ⟨fun hopen => ?_, fun _ hne => absurd hwork hne, h.full⟩
    rw [filterMap_snoc, h.kept hopen]
    rfl
  | @report q r hbusy hopen =>
    have hpos := List.length_pos_of_mem hbusy
    refine ⟨fun _ => ?_, fun _ hwork => ?_, h.full⟩
    · rw [filterMap_snoc, h.kept hopen]
      rfl
    · have hman := h.manned hopen hwork
      simp only [List.length_erase_of_mem hbusy]
      omega
  | refuse hbusy hclosed =>
    exact ⟨fun hopen => absurd hclosed hopen, fun hopen => absurd hclosed hopen, h.full⟩
  | panic hbusy =>
    exact absurd (List.mem_append_right _ (List.mem_singleton_self _)) (hcalm.unharmed _)
  | timeout =>
    exact absurd (List.mem_append_right _ (List.mem_singleton_self _)) hcalm.inTime
  | receive hat hchannel =>
    exact h.take (by simp [hat]) fun hc => absurd rfl (hc _)
  | drain hat hchannel =>
    have hfull := h.full (by simp [hat])
    rw [hchannel, List.length_cons] at hlen
    omega
  | @disconnected n hat hchannel hidle hbusy =>
    have hopen : s.collector ≠ .closed := by simp [hat]
    have hrounds := hinv.rounds _ hat
    have hlost := h.kept hopen
    -- with no worker left there is no work left, so every report has been taken
    have hwork : s.work = [] := by
      by_contra hwork
      have hman := h.manned hopen hwork
      have hpos := List.length_pos_of_ne_nil hwork
      rw [hidle, hbusy, maxAnnounceWorkers] at hman
      simp only [List.length_nil] at hman
      omega
    rw [hbusy, hchannel, hlost, hwork] at hlen
    simp only [List.length_nil] at hlen
    omega
  | all hat =>
    exact h.move (by simp [hat]) rfl fun _ => by simpa using hinv.rounds _ hat
  | drained hat | close hat =>
    exact h.move (by simp [hat]) rfl fun _ => h.full (by simp [hat])

end Kept

theorem Run.kept (h : Run queue tr s) (hcalm : Calm tr) : Kept queue tr s := by
  induction h with
  | nil => exact kept_start queue
  | snoc h hstep ih => exact (ih hcalm.of_append).step h.inv hcalm hstep

/-- A report or the lack of one places every provider of a queue without repetitions. -/
theorem Inv.accounted (h : Inv queue tr s) (hnodup : queue.Nodup) :
    (s.results ++ (s.outcome queue).abandoned).Perm queue := by
  rw [List.perm_iff_count]
  intro p
  have hbegun := h.begun p
  have hheld := h.held p
  have hone := List.nodup_iff_count_le_one.mp hnodup p
  rw [List.count_append]
  simp only [outcome]
  by_cases hp : p ∈ s.reported
  · have hpos := List.count_pos_iff.mpr ((h.reported p).mp hp)
    have hnone : (queue.filter (· ∉ s.reported)).count p = 0 := by
      rw [List.count_eq_zero]
      intro hin
      simpa [hp] using List.of_mem_filter hin
    omega
  · have hzero := List.count_eq_zero.mpr (mt (h.reported p).mpr hp)
    rw [hzero, List.count_filter (by simpa using hp), Nat.zero_add]

end Pool

section Main

variable {queue : List String} {tr : List Event} {o : DispatchOutcome} {s : Pool}

/-- In every interleaving each provider of the queue comes back once, as a success, an error or
abandoned, what comes back was reported, and a send that ends before the last drain is not
abandoned. -/
theorem runsQueue_accounted (hnodup : queue.Nodup) (h : RunsQueue queue tr o) :
    (o.succeeded ++ o.errors.map Prod.fst ++ o.abandoned).Perm queue ∧
      (∀ p ∈ o.succeeded, .report p (.ok ()) ∈ tr) ∧
      (∀ m ∈ o.errors, ∃ text, .report m.1 (.error text) ∈ tr ∧ m.2 = m.1 ++ ": " ++ text) ∧
      ∀ (p : String) (r : Sent) (tr₁ tr₂ : List Event), tr = tr₁ ++ .drained :: tr₂ →
        .report p r ∈ tr₁ → p ∉ o.abandoned := by
  obtain ⟨rfl, rfl, rfl⟩ | ⟨s, hrun, -, rfl⟩ := h
  · simp
  refine ⟨hrun.inv.accounted hnodup, hrun.told.succeeded, hrun.told.errors, ?_⟩
  intro p r tr₁ tr₂ htr hp hin
  have hreported := hrun.reported_of_drained htr hp
  simpa [hreported] using List.of_mem_filter hin

/-- One of two sends is done in time, the other one is still under way at the deadline. -/
theorem run_discord_slack : ∃ s, Run ["discord", "slack"]
    [.pop "slack", .pop "discord", .report "slack" (.ok ()), .timeout, .receive, .drained] s ∧
      s.collector = .closing ∧ s.busy = ["discord"] ∧
      s.outcome ["discord", "slack"] = ⟨[], ["discord"], ["slack"]⟩ := by
  have h₁ := (Run.nil : Run ["discord", "slack"] _ _).snoc
    (.pop (show _ = ["discord"] ++ ["slack"] from rfl) (show _ = 1 + 1 from rfl))
  have h₂ := h₁.snoc (.pop (show _ = [] ++ ["discord"] from rfl) (show _ = 0 + 1 from rfl))
  have h₃ := h₂.snoc (.report (p := "slack") (r := .ok ()) (by decide) nofun)
  have h₄ := h₃.snoc (.timeout rfl)
  have h₅ := h₄.snoc (.drain rfl rfl)
  exact ⟨_, h₅.snoc (.drained rfl rfl), rfl, rfl, rfl⟩

theorem runsQueue_accounted_slack :
    ["slack", "discord"].Perm ["discord", "slack"] ∧ "slack" ∉ ["discord"] := by
  obtain ⟨s, hrun, hat, -, ho⟩ := run_discord_slack
  obtain ⟨hperm, -, -, hdrained⟩ :=
    runsQueue_accounted (by decide) (.inr ⟨s, hrun, hat, ho.symm⟩)
  exact ⟨hperm, hdrained "slack" (.ok ())
    [.pop "slack", .pop "discord", .report "slack" (.ok ()), .timeout, .receive] [] rfl (by simp)⟩

/-- In every interleaving each send begins at most once, a bounded number of sends is under way,
and the run ends: the steps are bounded, and where neither a worker nor the collector can go on,
the collector has returned and the workers are gone. -/
theorem run_bounded (h : Run queue tr s) :
    (tr.filterMap Event.begun ++ s.work).Perm queue ∧
      s.busy.length ≤ min queue.length maxAnnounceWorkers ∧
      tr.length ≤ 4 * queue.length + min queue.length maxAnnounceWorkers + 3 ∧
      ((∀ e t, Step s e t → e = .timeout ∨ ∃ p, e = .panic p) →
        s.collector = .closed ∧ s.busy = [] ∧ s.idle = 0) := by
  refine ⟨?_, (Nat.le_add_left ..).trans h.inv.bounded, ?_, done_of_stuck⟩
  · rw [List.perm_iff_count]
    intro p
    rw [List.count_append]
    exact h.inv.begun p
  · have hfuel := h.length_add_fuel_le
    have hstart : (start queue).fuel =
        4 * queue.length + min queue.length maxAnnounceWorkers + 3 := by
      simp [fuel, start, Collector.rank]
    omega

theorem run_bounded_discord : ["discord"].length ≤ min 2 8 := by
  obtain ⟨s, hrun, -, hbusy, -⟩ := run_discord_slack
  exact hbusy ▸ (run_bounded hrun).2.1

/-- A run that meets neither its deadline nor a panic abandons nobody. -/
theorem runsQueue_complete (h : RunsQueue queue tr o) (hcalm : Calm tr) :
    o.abandoned = [] ∧ (o.succeeded ++ o.errors.map Prod.fst).Perm queue := by
  obtain ⟨rfl, rfl, rfl⟩ | ⟨s, hrun, hat, rfl⟩ := h
  · simp
  have hinv := hrun.inv
  have hkept := hrun.kept hcalm
  have hfull := hkept.full (by simp [hat])
  have hlen := hinv.length_eq
  -- all reports are noted, so nothing is left anywhere else
  have hwork : s.work = [] := List.eq_nil_of_length_eq_zero (by omega)
  have hbusy : s.busy = [] := List.eq_nil_of_length_eq_zero (by omega)
  have hchannel : s.channel = [] := List.eq_nil_of_length_eq_zero (by omega)
  have hlost := hkept.kept (by simp [hat])
  have hperm : s.results.Perm queue := by
    rw [List.perm_iff_count]
    intro p
    have hheld := hinv.held p
    have hbegun := hinv.begun p
    rw [hbusy, hchannel, hlost] at hheld
    rw [hwork] at hbegun
    simp only [List.map_nil, List.count_nil] at hheld hbegun
    omega
  refine ⟨?_, hperm⟩
  simp only [outcome]
  rw [List.filter_eq_nil_iff]
  intro p hp
  simpa using (hinv.reported p).mpr (hperm.mem_iff.mpr hp)

theorem runsQueue_complete_slack :
    ∃ tr o, RunsQueue ["slack"] tr o ∧ o.errors = [("slack", "slack: 503")] ∧ o.abandoned = [] := by
  have h₁ := (Run.nil : Run ["slack"] _ _).snoc
    (.pop (show _ = [] ++ ["slack"] from rfl) (show _ = 0 + 1 from rfl))
  have h₂ := h₁.snoc (.report (p := "slack") (r := .error "503") (by decide) nofun)
  have h₃ := h₂.snoc (.receive (n := 0) rfl rfl)
  have h₄ := h₃.snoc (.all rfl)
  have h₅ : RunsQueue ["slack"] _ _ := .inr ⟨_, h₄.snoc (.drained rfl rfl), rfl, rfl⟩
  have hcalm : Calm [.pop "slack", .report "slack" (.error "503"), .receive, .advance,
      .drained] := by
    constructor <;> simp
  exact ⟨_, _, h₅, rfl, (runsQueue_complete h₅ hcalm).1⟩

end Main

end Anodizer.Announce
