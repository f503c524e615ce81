import Mathlib.Data.List.Basic
import Mathlib.Logic.Function.Basic

/-! # A directory and what a crash leaves of it

A process sees the last state of a directory. A crash leaves each name in some state that it had
since the directory was last synced, and the bytes of a file that was not synced are then anything.
-/

namespace CrashDirectory

variable {N B : Type}

structure File (B : Type) where
  data : List B
  synced : Bool
  deriving DecidableEq, Repr

abbrev Entries (N B : Type) := N → Option (File B)

structure Directory (N B : Type) where
  now : Entries N B
  /-- The states before the last one, since the directory was synced. -/
  past : List (Entries N B)

/-- What a crash may leave of a name in one of its states. -/
def Remains : Option (File B) → Option (List B) → Prop
  | none, r => r = none
  | some f, r => ∃ bytes, r = some bytes ∧ (f.synced = true → bytes = f.data)

@[simp] theorem remains_synced {bytes : List B} {r : Option (List B)} :
    Remains (some ⟨bytes, true⟩) r ↔ r = some bytes := by
  constructor
  · rintro ⟨_, rfl, h⟩
    rw [h rfl]
  · rintro rfl
    exact ⟨_, rfl, fun _ => rfl⟩

namespace Directory

def states (d : Directory N B) : List (Entries N B) := d.now :: d.past

def AfterCrash (d : Directory N B) (n : N) (r : Option (List B)) : Prop :=
  ∃ es ∈ d.states, Remains (es n) r

def syncDir (d : Directory N B) : Directory N B := { d with past := [] }

/-- A name has no other states than it had before, and is seen as before. -/
def Keeps (d d' : Directory N B) (n : N) : Prop :=
  d'.now n = d.now n ∧ ∀ es' ∈ d'.states, ∃ es ∈ d.states, es' n = es n

variable {d d' : Directory N B} {n m : N}

theorem now_mem_states (d : Directory N B) : d.now ∈ d.states := List.mem_cons_self

theorem Keeps.refl : Keeps d d n := ⟨rfl, fun es hes => ⟨es, hes, rfl⟩⟩

theorem Keeps.trans {d'' : Directory N B} (h : Keeps d d' n) (h' : Keeps d' d'' n) :
    Keeps d d'' n := by
  refine ⟨h'.1.trans h.1, fun es hes => ?_⟩
  obtain ⟨es', hes', heq'⟩ := h'.2 es hes
  obtain ⟨es'', hes'', heq''⟩ := h.2 es' hes'
  exact ⟨es'', hes'', heq'.trans heq''⟩

theorem keeps_syncDir : Keeps d d.syncDir n := by
  refine ⟨rfl, fun es hes => ⟨es, ?_, rfl⟩⟩
  rw [List.mem_singleton.mp hes]
  exact d.now_mem_states

variable [DecidableEq N]

/-- A file is changed in place. -/
def put (d : Directory N B) (n : N) (f : Option (File B)) : Directory N B :=
  { d with now := Function.update d.now n f }

/-- A name is bound anew, and the state before may come back. -/
def bind (d : Directory N B) (n : N) (f : Option (File B)) : Directory N B :=
  { now := Function.update d.now n f, past := d.states }

def create (d : Directory N B) (n : N) : Directory N B := d.bind n (some ⟨[], false⟩)

def append (d : Directory N B) (n : N) (bytes : List B) : Directory N B :=
  d.put n ((d.now n).map fun f => ⟨f.data ++ bytes, false⟩)

def sync (d : Directory N B) (n : N) : Directory N B :=
  d.put n ((d.now n).map fun f => ⟨f.data, true⟩)

def remove (d : Directory N B) (n : N) : Directory N B := d.bind n none

/-- The file of one name takes the place of another in one change. -/
def rename (d : Directory N B) (a b : N) : Directory N B := (d.bind b (d.now a)).put a none

variable {f : Option (File B)} {bytes : List B}

theorem keeps_put (h : m ≠ n) : Keeps d (d.put n f) m := by
  refine ⟨Function.update_of_ne h _ _, fun es hes => ?_⟩
  rcases List.mem_cons.mp hes with rfl | hes
  · exact ⟨d.now, d.now_mem_states, Function.update_of_ne h _ _⟩
  · exact ⟨es, List.mem_cons_of_mem _ hes, rfl⟩

theorem keeps_bind (h : m ≠ n) : Keeps d (d.bind n f) m := by
  refine ⟨Function.update_of_ne h _ _, fun es hes => ?_⟩
  rcases List.mem_cons.mp hes with rfl | hes
  · exact ⟨d.now, d.now_mem_states, Function.update_of_ne h _ _⟩
  · exact ⟨es, hes, rfl⟩

theorem keeps_rename {a b : N} (ha : m ≠ a) (hb : m ≠ b) : Keeps d (d.rename a b) m :=
  (keeps_bind hb).trans (keeps_put ha)

@[simp] theorem now_put : (d.put n f).now n = f := Function.update_self _ _ _

@[simp] theorem now_bind : (d.bind n f).now n = f := Function.update_self _ _ _

@[simp] theorem now_create : (d.create n).now n = some ⟨[], false⟩ := now_bind

@[simp] theorem now_remove : (d.remove n).now n = none := now_bind

theorem now_append {f : File B} (h : d.now n = some f) :
    (d.append n bytes).now n = some ⟨f.data ++ bytes, false⟩ := by
  rw [append, now_put, h]
  rfl

theorem now_sync {f : File B} (h : d.now n = some f) :
    (d.sync n).now n = some ⟨f.data, true⟩ := by
  rw [sync, now_put, h]
  rfl

@[simp] theorem now_rename_source {a b : N} : (d.rename a b).now a = none := now_put

theorem now_rename_target {a b : N} (h : b ≠ a) : (d.rename a b).now b = d.now a := by
  rw [rename, (keeps_put h).1, now_bind]

end Directory

end CrashDirectory
