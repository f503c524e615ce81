import Anodizer.Git.SemVer
import Anodizer.Lib.Assign

/-! # Template variables

A variable holds a text or a structured value. The setters of one kind evict
the value of the other kind, so the two maps of the source never share a name
and are one map here.
-/

namespace Anodizer.CrateScope

open Template (Text)
open Assign

variable {J : Type}

inductive Value (J : Type)
  | text (t : Text)
  | bool (b : Bool)
  | number (n : ℕ)
  | json (j : J)
  deriving DecidableEq, Repr

/-- The text of a variable. The other values are invisible to the reader of texts. -/
def Value.text? : Value J → Option Text
  | .text t => some t
  | _ => none

abbrev TemplateVars (J : Type) := Text → Option (Value J)

def targetVar : Text := "Target".toList

def abiVar : Text := "Abi".toList

/-- The fourth component of a target triple, without the version of its libc. -/
def abiFromTarget (triple : Text) : Text :=
  (((triple.splitOn '-')[3]?).bind fun abi => (abi.splitOn '.').head?).getD []

namespace TemplateVars

/-- Set a text. The ABI follows the target. -/
def set (v : TemplateVars J) (key value : Text) : TemplateVars J :=
  let v := Function.update v key (some (.text value))
  if key = targetVar then Function.update v abiVar (some (.text (abiFromTarget value))) else v

def unset (v : TemplateVars J) (key : Text) : TemplateVars J :=
  let v := if key = targetVar then Function.update v abiVar none else v
  Function.update v key none

def setStructured (v : TemplateVars J) (key : Text) (value : Value J) : TemplateVars J :=
  Function.update v key (some value)

def setBool (v : TemplateVars J) (key : Text) (value : Bool) : TemplateVars J :=
  v.setStructured key (.bool value)

def get (v : TemplateVars J) (key : Text) : Option Text := (v key).bind Value.text?

/-- Set a text, or unset a variable without one. -/
def put (v : TemplateVars J) (key : Text) : Option Text → TemplateVars J
  | some value => v.set key value
  | none => v.unset key

/-- Write a value with the setter of its kind. -/
def write (v : TemplateVars J) (key : Text) : Value J → TemplateVars J
  | .text t => v.set key t
  | value => v.setStructured key value

def setAll (v : TemplateVars J) (entries : List (Text × Text)) : TemplateVars J :=
  entries.foldl (fun v e => v.set e.1 e.2) v

def putAll (v : TemplateVars J) (entries : List (Text × Option Text)) : TemplateVars J :=
  entries.foldl (fun v e => v.put e.1 e.2) v

def writeAll (v : TemplateVars J) (entries : List (Text × Value J)) : TemplateVars J :=
  entries.foldl (fun v e => v.write e.1 e.2) v

variable {v : TemplateVars J} {key value : Text}

theorem set_eq (h : key ≠ targetVar) : v.set key value = Function.update v key (some (.text value)) :=
  if_neg h

theorem put_eq (h : key ≠ targetVar) (o : Option Text) :
    v.put key o = Function.update v key (o.map .text) := by
  cases o with
  | none => rw [put, unset, if_neg h]; rfl
  | some value => exact set_eq h

theorem write_eq (h : key ≠ targetVar) (value : Value J) :
    v.write key value = Function.update v key (some value) := by
  cases value with
  | text t => exact set_eq h
  | bool | number | json => rfl

/-! Where no target is written, the setters are sequences of assignments. -/

theorem ne_targetVar {β : Type} {entries : List (Text × β)}
    (h : targetVar ∉ entries.map Prod.fst) {e : Text × β} (he : e ∈ entries) :
    e.1 ≠ targetVar := by
  rintro heq
  exact h (heq ▸ List.mem_map_of_mem he)

theorem setAll_eq {entries : List (Text × Text)} (h : targetVar ∉ entries.map Prod.fst) :
    v.setAll entries = assignAll v (entries.map fun e => (e.1, some (.text e.2))) :=
  foldl_eq_assignAll fun _ he _ => set_eq (ne_targetVar h he)

theorem putAll_eq {entries : List (Text × Option Text)} (h : targetVar ∉ entries.map Prod.fst) :
    v.putAll entries = assignAll v (entries.map fun e => (e.1, e.2.map .text)) :=
  foldl_eq_assignAll fun _ he _ => put_eq (ne_targetVar h he) _

theorem writeAll_eq {entries : List (Text × Value J)} (h : targetVar ∉ entries.map Prod.fst) :
    v.writeAll entries = assignAll v (entries.map fun e => (e.1, some e.2)) :=
  foldl_eq_assignAll fun _ he _ => write_eq (ne_targetVar h he) _

theorem map_fst_values {β : Type} (entries : List (Text × β)) (f : β → Option (Value J)) :
    (entries.map fun e => (e.1, f e.2)).map Prod.fst = entries.map Prod.fst := by
  rw [List.map_map]
  rfl

theorem setAll_of_mem {entries : List (Text × Text)} (keys : List Text)
    (hkeys : entries.map Prod.fst = keys) (htarget : targetVar ∉ keys) (hnodup : keys.Nodup)
    {e : Text × Text} (h : e ∈ entries) : v.setAll entries e.1 = some (.text e.2) := by
  subst hkeys
  rw [setAll_eq htarget]
  refine assignAll_of_mem ?_ (List.mem_map.mpr ⟨e, h, rfl⟩)
  rwa [map_fst_values entries fun t => some (.text t)]

theorem setAll_of_notMem {entries : List (Text × Text)} (htarget : targetVar ∉ entries.map Prod.fst)
    (h : key ∉ entries.map Prod.fst) : v.setAll entries key = v key := by
  rw [setAll_eq htarget]
  refine assignAll_of_notMem ?_
  rwa [map_fst_values entries fun t => some (.text t)]

theorem writeAll_of_notMem {entries : List (Text × Value J)}
    (htarget : targetVar ∉ entries.map Prod.fst) (h : key ∉ entries.map Prod.fst) :
    v.writeAll entries key = v key := by
  rw [writeAll_eq htarget]
  refine assignAll_of_notMem ?_
  rwa [map_fst_values entries some]

end TemplateVars

end Anodizer.CrateScope
