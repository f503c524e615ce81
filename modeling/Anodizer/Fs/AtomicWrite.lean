import Mathlib.Algebra.Order.BigOperators.Group.Finset
import Mathlib.Data.Fintype.Basic
import Anodizer.Lib.CrashDirectory
import Anodizer.Lib.SplitOnce

/-! # Writes that a crash does not tear

A write fills a temporary file beside its target, syncs it, renames it over the target and syncs the
directory. Several writers may be at work in one directory, each step may fail, and a crash may come
between any two steps.
-/

namespace Anodizer.Fs

open CrashDirectory

/-- A path in a directory, as it is shown and by the name of its file. -/
structure Path where
  display : String
  fileName : Option String

inductive ErrorKind
  | invalidInput
  | other
  deriving DecidableEq, Repr

structure IoError where
  kind : ErrorKind
  text : String
  deriving DecidableEq, Repr

/-- A call behind its check of the path, with the process and the time that stamp its file. -/
structure Writer where
  name : String
  contents : List UInt8
  pid : ℕ
  nanos : ℕ

def Writer.tmpName (w : Writer) : String :=
  w.name ++ "." ++ toString w.pid ++ "." ++ toString w.nanos ++ ".tmp"

def atomicWrite (path : Path) (contents : List UInt8) (pid nanos : ℕ) : Except IoError Writer :=
  match path.fileName with
  | none => .error ⟨.invalidInput, "atomic_write: path has no file name: " ++ path.display⟩
  | some name => .ok ⟨name, contents, pid, nanos⟩

/-- Where a writer is. -/
inductive Phase
  | ready
  | writing (n : ℕ)
  | synced
  | renamed
  | cleaning (e : IoError)
  | failed (e : IoError) (removed : Bool)
  | done (flushed : Bool)

namespace Phase

/-- What the call returned. The sync of the directory does not count. -/
def result : Phase → Option (Except IoError Unit)
  | failed e _ => some (.error e)
  | done _ => some (.ok ())
  | _ => none

/-- The writer renamed its file over the target. -/
def Landed : Phase → Prop
  | renamed | done _ => True
  | _ => False

/-- The steps that are left at most. -/
def fuel (w : Writer) : Phase → ℕ
  | ready => w.contents.length + 4
  | writing n => w.contents.length - n + 3
  | synced => 2
  | renamed | cleaning _ => 1
  | failed _ _ | done _ => 0

/-- What the name of the temporary file stands for. -/
def Temp (w : Writer) : Phase → Option (File UInt8) → Prop
  | writing n, f => f = some ⟨w.contents.take n, false⟩
  | synced, f => f = some ⟨w.contents, true⟩
  | renamed, f | done _, f | failed _ true, f => f = none
  | _, _ => True

end Phase

variable {ι : Type} [DecidableEq ι]

/-- A directory with the writers at work in it. -/
structure System (ι : Type) where
  dir : Directory String UInt8
  phase : ι → Phase

def System.move (s : System ι) (i : ι) (dir : Directory String UInt8) (p : Phase) : System ι :=
  ⟨dir, Function.update s.phase i p⟩

/-- One call to the operating system by one of the writers. -/
inductive Step (ws : ι → Writer) : System ι → System ι → Prop
  | create {s : System ι} {i : ι} (hat : s.phase i = .ready) :
      Step ws s (s.move i (s.dir.create (ws i).tmpName) (.writing 0))
  | write {s : System ι} {i : ι} {n k : ℕ} (hat : s.phase i = .writing n) (hsome : 0 < k)
      (hfits : n + k ≤ (ws i).contents.length) :
      Step ws s (s.move i (s.dir.append (ws i).tmpName (((ws i).contents.drop n).take k))
        (.writing (n + k)))
  | sync {s : System ι} {i : ι} {n : ℕ} (hat : s.phase i = .writing n)
      (hall : (ws i).contents.length ≤ n) :
      Step ws s (s.move i (s.dir.sync (ws i).tmpName) .synced)
  | rename {s : System ι} {i : ι} (hat : s.phase i = .synced) :
      Step ws s (s.move i (s.dir.rename (ws i).tmpName (ws i).name) .renamed)
  -- whichever of the four fails, the temporary file is then removed
  | fail {s : System ι} {i : ι} (e : IoError)
      (hat : s.phase i = .ready ∨ (∃ n, s.phase i = .writing n) ∨ s.phase i = .synced) :
      Step ws s (s.move i s.dir (.cleaning e))
  | remove {s : System ι} {i : ι} {e : IoError} (hat : s.phase i = .cleaning e) :
      Step ws s (s.move i (s.dir.remove (ws i).tmpName) (.failed e true))
  | removeFails {s : System ι} {i : ι} {e : IoError} (hat : s.phase i = .cleaning e) :
      Step ws s (s.move i s.dir (.failed e false))
  | syncDir {s : System ι} {i : ι} (hat : s.phase i = .renamed) :
      Step ws s (s.move i s.dir.syncDir (.done true))
  | syncDirFails {s : System ι} {i : ι} (hat : s.phase i = .renamed) :
      Step ws s (s.move i s.dir (.done false))

/-- A run from a directory, with the number of its steps. -/
inductive Run (ws : ι → Writer) (d₀ : Directory String UInt8) : ℕ → System ι → Prop
  | nil : Run ws d₀ 0 ⟨d₀, fun _ => .ready⟩
  | snoc {k : ℕ} {s t : System ι} (h : Run ws d₀ k s) (hstep : Step ws s t) : Run ws d₀ (k + 1) t

/-! ### Temporary names -/

theorem toList_tmpName (w : Writer) : w.tmpName.toList =
    ((w.name.toList ++ '.' :: Nat.toDigits 10 w.pid) ++ '.' :: Nat.toDigits 10 w.nanos) ++
      '.' :: ['t', 'm', 'p'] := by
  simp [Writer.tmpName, String.toList_append]

theorem dot_notMem_toDigits (n : ℕ) : '.' ∉ Nat.toDigits 10 n := fun h =>
  absurd (Nat.isDigit_of_mem_toDigits (by decide) (by decide) h) (by decide)

theorem toDigits_inj {m n : ℕ} (h : Nat.toDigits 10 m = Nat.toDigits 10 n) : m = n := by
  rw [← Nat.ofDigitChars_ten_toDigits (n := m), h, Nat.ofDigitChars_ten_toDigits]

/-- The stamp keeps temporary names apart. -/
theorem tmpName_inj {v w : Writer} (h : v.tmpName = w.tmpName) :
    v.name = w.name ∧ v.pid = w.pid ∧ v.nanos = w.nanos := by
  have hlist := congrArg (fun s => SplitOnce.last '.' s.toList) h
  simp only [toList_tmpName] at hlist
  rw [SplitOnce.last_append (by decide), SplitOnce.last_append (by decide)] at hlist
  have hstamp := congrArg (SplitOnce.last '.') (Prod.mk.inj (Option.some.inj hlist)).1
  rw [SplitOnce.last_append (dot_notMem_toDigits _),
    SplitOnce.last_append (dot_notMem_toDigits _)] at hstamp
  obtain ⟨hrest, hnanos⟩ := Prod.mk.inj (Option.some.inj hstamp)
  have hpid := congrArg (SplitOnce.last '.') hrest
  rw [SplitOnce.last_append (dot_notMem_toDigits _),
    SplitOnce.last_append (dot_notMem_toDigits _)] at hpid
  obtain ⟨hname, hpid⟩ := Prod.mk.inj (Option.some.inj hpid)
  exact ⟨String.toList_inj.mp hname, toDigits_inj hpid, toDigits_inj hnanos⟩

theorem tmpName_ne_name (w : Writer) : w.tmpName ≠ w.name := by
  intro h
  have hlen := congrArg (fun s => s.toList.length) h
  simp only [toList_tmpName, List.length_append, List.length_cons] at hlen
  omega

/-- No two writers work on one target with one stamp, and none on the temporary file of another. -/
structure Apart (ws : ι → Writer) : Prop where
  stamped : ∀ i j, (ws i).name = (ws j).name → (ws i).pid = (ws j).pid →
    (ws i).nanos = (ws j).nanos → i = j
  targets : ∀ i j, i ≠ j → (ws i).tmpName ≠ (ws j).name

def IsTemp (ws : ι → Writer) (n : String) : Prop := ∃ i, (ws i).tmpName = n

section Invariant

variable {ws : ι → Writer} {d₀ d : Directory String UInt8} {s t : System ι} {i j : ι} {k : ℕ}
  {n : String} {f : Option (File UInt8)} {p : Phase}

omit [DecidableEq ι] in
theorem Apart.tmpName_ne (h : Apart ws) (hne : i ≠ j) : (ws i).tmpName ≠ (ws j).tmpName := by
  intro heq
  obtain ⟨hname, hpid, hnanos⟩ := tmpName_inj heq
  exact hne (h.stamped i j hname hpid hnanos)

omit [DecidableEq ι] in
theorem Apart.not_isTemp (h : Apart ws) (j : ι) : ¬IsTemp ws (ws j).name := by
  rintro ⟨i, heq⟩
  by_cases hij : i = j
  · subst hij
    exact tmpName_ne_name _ heq
  · exact h.targets i j hij heq

/-- Some writer of the name landed there, with all that it was given. -/
def Wrote (ws : ι → Writer) (s : System ι) (n : String) (f : Option (File UInt8)) : Prop :=
  ∃ i, (ws i).name = n ∧ (s.phase i).Landed ∧ f = some ⟨(ws i).contents, true⟩

/-- What holds in every run. -/
structure Inv (ws : ι → Writer) (d₀ : Directory String UInt8) (s : System ι) : Prop where
  temp : ∀ i, (s.phase i).Temp (ws i) (s.dir.now (ws i).tmpName)
  seen : ∀ n, ¬IsTemp ws n → s.dir.now n = d₀.now n ∨ Wrote ws s n (s.dir.now n)
  left : ∀ n, ¬IsTemp ws n → ∀ es ∈ s.dir.states,
    (∃ es₀ ∈ d₀.states, es n = es₀ n) ∨ Wrote ws s n (es n)
  placed : ∀ i, (s.phase i).Landed → Wrote ws s (ws i).name (s.dir.now (ws i).name)
  flushed : ∀ i, s.phase i = .done true →
    ∀ es ∈ s.dir.states, Wrote ws s (ws i).name (es (ws i).name)

@[simp] theorem phase_move_self : (s.move i d p).phase i = p := Function.update_self _ _ _

@[simp] theorem dir_move : (s.move i d p).dir = d := rfl

theorem phase_move_of_ne (h : j ≠ i) : (s.move i d p).phase j = s.phase j :=
  Function.update_of_ne h _ _

theorem Wrote.move (h : Wrote ws s n f) (hlanded : (s.phase i).Landed → p.Landed) :
    Wrote ws (s.move i d p) n f := by
  obtain ⟨j, hname, hland, hf⟩ := h
  refine ⟨j, hname, ?_, hf⟩
  by_cases hji : j = i
  · subst hji
    rw [phase_move_self]
    exact hlanded hland
  · rwa [phase_move_of_ne hji]

omit [DecidableEq ι] in
theorem inv_start : Inv ws d₀ ⟨d₀, fun _ => .ready⟩ where
  temp _ := trivial
  seen _ _ := .inl rfl
  left _ _ es hes := .inl ⟨es, hes, rfl⟩
  placed _ h := h.elim
  flushed _ h := nomatch h

namespace Inv

/-- A step that touches the temporary file of its writer only. -/
theorem move (h : Inv ws d₀ s) (hapart : Apart ws)
    (hkeeps : ∀ n, n ≠ (ws i).tmpName → s.dir.Keeps d n)
    (hlanded : (s.phase i).Landed ↔ p.Landed) (htemp : p.Temp (ws i) (d.now (ws i).tmpName))
    (hflushed : p = .done true → ∀ es ∈ d.states, Wrote ws s (ws i).name (es (ws i).name)) :
    Inv ws d₀ (s.move i d p) := by
  have hkeep : ∀ n, ¬IsTemp ws n → s.dir.Keeps d n := fun n hn =>
    hkeeps n fun heq => hn ⟨i, heq.symm⟩
  constructor
  · intro j
    by_cases hji : j = i
    · subst hji
      rw [phase_move_self]
      exact htemp
    · rw [phase_move_of_ne hji]
      exact (hkeeps _ (hapart.tmpName_ne hji)).1 ▸ h.temp j
  · intro n hn
    have hnow : d.now n = s.dir.now n := (hkeep n hn).1
    rw [dir_move, hnow]
    exact (h.seen n hn).imp_right fun hwrote => hwrote.move hlanded.mp
  · intro n hn es hes
    obtain ⟨es', hes', heq⟩ := (hkeep n hn).2 es hes
    rw [heq]
    exact (h.left n hn es' hes').imp_right fun hwrote => hwrote.move hlanded.mp
  · intro j hj
    have hold : (s.phase j).Landed := by
      by_cases hji : j = i
      · subst hji
        rw [phase_move_self] at hj
        exact hlanded.mpr hj
      · rwa [phase_move_of_ne hji] at hj
    have hnow : d.now (ws j).name = s.dir.now (ws j).name := (hkeep _ (hapart.not_isTemp j)).1
    rw [dir_move, hnow]
    exact (h.placed j hold).move hlanded.mp
  · intro j hj es hes
    by_cases hji : j = i
    · subst hji
      rw [phase_move_self] at hj
      exact (hflushed hj es hes).move hlanded.mp
    · rw [phase_move_of_ne hji] at hj
      obtain ⟨es', hes', heq⟩ := (hkeep _ (hapart.not_isTemp j)).2 es hes
      rw [heq]
      exact (h.flushed j hj es' hes').move hlanded.mp

/-- The file of a writer takes the place of its target as a whole. -/
theorem rename (h : Inv ws d₀ s) (hapart : Apart ws) (hat : s.phase i = .synced) :
    Inv ws d₀ (s.move i (s.dir.rename (ws i).tmpName (ws i).name) .renamed) := by
  have hmono : ∀ {n f}, Wrote ws s n f →
      Wrote ws (s.move i (s.dir.rename (ws i).tmpName (ws i).name) .renamed) n f :=
    fun hwrote => hwrote.move fun _ => trivial
  have hfile := h.temp i
  rw [hat] at hfile
  have hself : Wrote ws (s.move i (s.dir.rename (ws i).tmpName (ws i).name) .renamed) (ws i).name
      ((s.dir.rename (ws i).tmpName (ws i).name).now (ws i).name) := by
    refine ⟨i, rfl, by rw [phase_move_self]; trivial, ?_⟩
    rw [Directory.now_rename_target (tmpName_ne_name _).symm]
    exact hfile
  have hkeep : ∀ n, ¬IsTemp ws n → n ≠ (ws i).name →
      s.dir.Keeps (s.dir.rename (ws i).tmpName (ws i).name) n := fun n hn hne =>
    Directory.keeps_rename (fun heq => hn ⟨i, heq.symm⟩) hne
  constructor
  · intro j
    by_cases hji : j = i
    · subst hji
      rw [phase_move_self]
      exact Directory.now_rename_source
    · rw [phase_move_of_ne hji]
      have hkeeps := Directory.keeps_rename (d := s.dir) (hapart.tmpName_ne hji)
        (hapart.targets j i hji)
      exact hkeeps.1 ▸ h.temp j
  · intro n hn
    by_cases hname : n = (ws i).name
    · subst hname
      exact .inr hself
    · have hnow : (s.dir.rename (ws i).tmpName (ws i).name).now n = s.dir.now n :=
        (hkeep n hn hname).1
      rw [dir_move, hnow]
      exact (h.seen n hn).imp_right hmono
  · intro n hn es hes
    rcases List.mem_cons.mp hes with rfl | hes
    · by_cases hname : n = (ws i).name
      · subst hname
        exact .inr hself
      · obtain ⟨es', hes', heq⟩ := (hkeep n hn hname).2 _ (Directory.now_mem_states _)
        exact heq ▸ (h.left n hn es' hes').imp_right hmono
    · exact (h.left n hn es hes).imp_right hmono
  · intro j hj
    by_cases hname : (ws j).name = (ws i).name
    · rw [hname]
      exact hself
    · have hold : (s.phase j).Landed := by
        by_cases hji : j = i
        · exact absurd (congrArg (fun x => (ws x).name) hji) hname
        · rwa [phase_move_of_ne hji] at hj
      have hnow : (s.dir.rename (ws i).tmpName (ws i).name).now (ws j).name =
          s.dir.now (ws j).name := (hkeep _ (hapart.not_isTemp j) hname).1
      rw [dir_move, hnow]
      exact hmono (h.placed j hold)
  · intro j hj es hes
    have hold : s.phase j = .done true := by
      by_cases hji : j = i
      · subst hji
        rw [phase_move_self] at hj
        cases hj
      · rwa [phase_move_of_ne hji] at hj
    rcases List.mem_cons.mp hes with rfl | hes
    · by_cases hname : (ws j).name = (ws i).name
      · rw [hname]
        exact hself
      · obtain ⟨es', hes', heq⟩ :=
          (hkeep _ (hapart.not_isTemp j) hname).2 _ (Directory.now_mem_states _)
        exact heq ▸ hmono (h.flushed j hold es' hes')
    · exact hmono (h.flushed j hold es hes)

theorem step (h : Inv ws d₀ s) (hapart : Apart ws) (hstep : Step ws s t) : Inv ws d₀ t := by
  cases hstep with
  | @create i hat =>
    exact h.move hapart (fun _ hne => Directory.keeps_bind hne) (by simp [hat, Phase.Landed])
      Directory.now_create nofun
  | @write i n k hat hsome hfits =>
    have hfile := h.temp i
    rw [hat] at hfile
    refine h.move hapart (fun _ hne => Directory.keeps_put hne) (by simp [hat, Phase.Landed]) ?_
      nofun
    change (s.dir.append _ _).now _ = _
    rw [Directory.now_append hfile, List.take_add]
  | @sync i n hat hall =>
    have hfile := h.temp i
    rw [hat] at hfile
    refine h.move hapart (fun _ hne => Directory.keeps_put hne) (by simp [hat, Phase.Landed]) ?_
      nofun
    change (s.dir.sync _).now _ = _
    rw [Directory.now_sync hfile, List.take_of_length_le hall]
  | rename hat => exact h.rename hapart hat
  | @fail i e hat =>
    refine h.move hapart (fun _ _ => .refl) ?_ trivial nofun
    obtain hat | ⟨n, hat⟩ | hat := hat <;> simp [hat, Phase.Landed]
  | @remove i e hat =>
    exact h.move hapart (fun _ hne => Directory.keeps_bind hne) (by simp [hat, Phase.Landed])
      Directory.now_remove nofun
  | @removeFails i e hat =>
    exact h.move hapart (fun _ _ => .refl) (by simp [hat, Phase.Landed]) trivial nofun
  | @syncDir i hat =>
    have hfile := h.temp i
    have hplaced := h.placed i (by rw [hat]; trivial)
    rw [hat] at hfile
    refine h.move hapart (fun _ _ => Directory.keeps_syncDir) (by simp [hat, Phase.Landed]) hfile ?_
    intro _ es hes
    rw [List.mem_singleton.mp hes]
    exact hplaced
  | @syncDirFails i hat =>
    have hfile := h.temp i
    rw [hat] at hfile
    exact h.move hapart (fun _ _ => .refl) (by simp [hat, Phase.Landed]) hfile (by simp)

end Inv

theorem Run.inv (h : Run ws d₀ k s) (hapart : Apart ws) : Inv ws d₀ s := by
  induction h with
  | nil => exact inv_start
  | snoc _ hstep ih => exact ih.step hapart hstep

end Invariant

/-! ### Every run -/

section Main

variable {ws : ι → Writer} {d₀ : Directory String UInt8} {s t : System ι} {k : ℕ}

/-- At every moment of every run, a name that is not temporary is seen as before the run or with
all that one of its writers was given, and a crash leaves no other bytes there. -/
theorem atomicWrite_untorn (hapart : Apart ws) (h : Run ws d₀ k s) (n : String)
    (hn : ∀ i, (ws i).tmpName ≠ n) :
    (s.dir.now n = d₀.now n ∨ ∃ i, (ws i).name = n ∧ (s.phase i).Landed ∧
      s.dir.now n = some ⟨(ws i).contents, true⟩) ∧
    ∀ r, s.dir.AfterCrash n r → d₀.AfterCrash n r ∨
      ∃ i, (ws i).name = n ∧ (s.phase i).Landed ∧ r = some (ws i).contents := by
  have hinv := h.inv hapart
  have htemp : ¬IsTemp ws n := fun ⟨i, heq⟩ => hn i heq
  refine ⟨hinv.seen n htemp, fun r hr => ?_⟩
  obtain ⟨es, hes, hrem⟩ := hr
  obtain ⟨es₀, hes₀, heq⟩ | ⟨i, hname, hland, hf⟩ := hinv.left n htemp es hes
  · exact .inl ⟨es₀, hes₀, heq ▸ hrem⟩
  · rw [hf, remains_synced] at hrem
    exact .inr ⟨i, hname, hland, hrem⟩

/-- Two writers of one file within one process. -/
def pair (b : Bool) : Writer :=
  ⟨"summary.json", if b then [91, 93] else [123, 125], 7, if b then 2 else 1⟩

theorem apart_pair : Apart pair where
  stamped := by decide
  targets _ _ _ := tmpName_ne_name _

/-- One writer has renamed its file, and the other one has created its own. -/
theorem run_pair : ∃ s, Run pair ⟨fun _ => none, []⟩ 5 s ∧ s.phase true = .renamed ∧
    s.phase false = .writing 0 := by
  have h₁ := (Run.nil : Run pair ⟨fun _ => none, []⟩ 0 _).snoc (.create (i := true) rfl)
  have h₂ := h₁.snoc (.write (i := true) (k := 2) rfl (by decide) (by decide))
  have h₃ := h₂.snoc (.sync (i := true) rfl (by decide))
  have h₄ := h₃.snoc (.rename (i := true) rfl)
  exact ⟨_, h₄.snoc (.create (i := false) rfl), rfl, rfl⟩

theorem atomicWrite_untorn_pair : ∃ s, Run pair ⟨fun _ => none, []⟩ 5 s ∧
    ∀ r, s.dir.AfterCrash "summary.json" r → r = none ∨ r = some [91, 93] := by
  obtain ⟨s, hrun, -, hfalse⟩ := run_pair
  refine ⟨s, hrun, fun r hr => ?_⟩
  obtain ⟨-, hcrash⟩ := atomicWrite_untorn apart_pair hrun "summary.json" fun _ => tmpName_ne_name _
  obtain ⟨es, hes, hrem⟩ | ⟨i, -, hland, rfl⟩ := hcrash r hr
  · obtain rfl := List.mem_singleton.mp hes
    exact .inl hrem
  · cases i with
    | false => exact absurd hland (by rw [hfalse]; exact id)
    | true => exact .inr rfl

/-- A call that returned has left no temporary file, unless its removal failed, and behind a call
that succeeded its name holds all that one of its writers was given, in every crash too once the
directory is synced. -/
theorem atomicWrite_returned (hapart : Apart ws) (h : Run ws d₀ k s) (i : ι) :
    (∀ e, s.phase i = .failed e true → s.dir.now (ws i).tmpName = none) ∧
    ((s.phase i).result = some (.ok ()) → s.dir.now (ws i).tmpName = none ∧
      ∃ j, (ws j).name = (ws i).name ∧ (s.phase j).Landed ∧
        s.dir.now (ws i).name = some ⟨(ws j).contents, true⟩) ∧
    (s.phase i = .done true → ∀ r, s.dir.AfterCrash (ws i).name r →
      ∃ j, (ws j).name = (ws i).name ∧ (s.phase j).Landed ∧ r = some (ws j).contents) := by
  have hinv := h.inv hapart
  have htemp := hinv.temp i
  refine ⟨fun e hat => by rw [hat] at htemp; exact htemp, fun hok => ?_, fun hat r hr => ?_⟩
  · cases hat : s.phase i <;> simp [hat, Phase.result] at hok
    rw [hat] at htemp
    exact ⟨htemp, hinv.placed i (by rw [hat]; trivial)⟩
  · obtain ⟨es, hes, hrem⟩ := hr
    obtain ⟨j, hname, hland, hf⟩ := hinv.flushed i hat es hes
    rw [hf, remains_synced] at hrem
    exact ⟨j, hname, hland, hrem⟩

theorem atomicWrite_returned_pair : ∃ s, Run pair ⟨fun _ => none, []⟩ 6 s ∧
    ∀ r, s.dir.AfterCrash "summary.json" r → r = some [91, 93] := by
  obtain ⟨s, hrun, htrue, hfalse⟩ := run_pair
  have hrun' := hrun.snoc (.syncDir htrue)
  refine ⟨_, hrun', fun r hr => ?_⟩
  obtain ⟨-, -, hcrash⟩ := atomicWrite_returned apart_pair hrun' true
  obtain ⟨i, -, hland, rfl⟩ := hcrash phase_move_self r hr
  cases i with
  | false => exact absurd hland (by rw [phase_move_of_ne (by decide), hfalse]; exact id)
  | true => rfl

/-- A step belongs to one writer, and takes something of what is left to it. -/
theorem Step.fuel_lt (h : Step ws s t) :
    ∃ i d p, t = s.move i d p ∧ p.fuel (ws i) < (s.phase i).fuel (ws i) := by
  cases h with
  | create hat => exact ⟨_, _, _, rfl, by simp [hat, Phase.fuel]⟩
  | write hat hsome hfits => exact ⟨_, _, _, rfl, by simp only [hat, Phase.fuel]; omega⟩
  | sync hat hall => exact ⟨_, _, _, rfl, by simp only [hat, Phase.fuel]; omega⟩
  | rename hat => exact ⟨_, _, _, rfl, by simp [hat, Phase.fuel]⟩
  | fail e hat =>
    refine ⟨_, _, _, rfl, ?_⟩
    obtain hat | ⟨n, hat⟩ | hat := hat <;> simp only [hat, Phase.fuel] <;> omega
  | remove hat => exact ⟨_, _, _, rfl, by simp [hat, Phase.fuel]⟩
  | removeFails hat => exact ⟨_, _, _, rfl, by simp [hat, Phase.fuel]⟩
  | syncDir hat => exact ⟨_, _, _, rfl, by simp [hat, Phase.fuel]⟩
  | syncDirFails hat => exact ⟨_, _, _, rfl, by simp [hat, Phase.fuel]⟩

theorem Run.add_fuel_le [Fintype ι] (h : Run ws d₀ k s) :
    k + ∑ i, (s.phase i).fuel (ws i) ≤ ∑ i, ((ws i).contents.length + 4) := by
  induction h with
  | nil => exact (Nat.zero_add _).le
  | @snoc k s t h hstep ih =>
    obtain ⟨i, d, p, rfl, hlt⟩ := hstep.fuel_lt
    have hself : ((s.move i d p).phase i).fuel (ws i) < (s.phase i).fuel (ws i) := by
      rwa [phase_move_self]
    have hless : ∑ j, ((s.move i d p).phase j).fuel (ws j) < ∑ j, (s.phase j).fuel (ws j) := by
      refine Finset.sum_lt_sum (fun j _ => ?_) ⟨i, Finset.mem_univ i, hself⟩
      by_cases hji : j = i
      · exact hji ▸ hself.le
      · rw [phase_move_of_ne hji]
    omega

/-- Where no writer can go on, all of them have returned. -/
theorem returned_of_stuck (h : ∀ t, ¬Step ws s t) (i : ι) : ((s.phase i).result).isSome := by
  cases hat : s.phase i with
  | ready => exact absurd (.create hat) (h _)
  | writing n =>
    by_cases hall : (ws i).contents.length ≤ n
    · exact absurd (.sync hat hall) (h _)
    · exact absurd (.write hat Nat.one_pos (Nat.lt_of_not_le hall)) (h _)
  | synced => exact absurd (.rename hat) (h _)
  | renamed => exact absurd (.syncDir hat) (h _)
  | cleaning e => exact absurd (.remove hat) (h _)
  | failed e removed => rfl
  | done flushed => rfl

/-- The steps of a run are bounded by what the writers were given, and a run that cannot go on has
returned from every call. -/
theorem atomicWrite_ends [Fintype ι] (h : Run ws d₀ k s) :
    k ≤ ∑ i, ((ws i).contents.length + 4) ∧
      ((∀ t, ¬Step ws s t) → ∀ i, ((s.phase i).result).isSome) :=
  ⟨(Nat.le_add_right _ _).trans h.add_fuel_le, returned_of_stuck⟩

theorem atomicWrite_ends_pair : 5 ≤ ∑ i, ((pair i).contents.length + 4) := by
  obtain ⟨s, hrun, -, -⟩ := run_pair
  exact (atomicWrite_ends hrun).1

end Main

end Anodizer.Fs
