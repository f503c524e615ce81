import Anodizer.Lib.Json

/-! # Readers of JSON documents

A reader that goes over a document as it is written refuses a struct that names a field
twice; read through its value the same document only shows the last one. Every reader
carries the documents that repeat nothing: on those the two agree, on the others only the
second can succeed.
-/

/-- A reader with the documents it takes as they are written. -/
structure Reader (α : Type) where
  decode : Json → Option α
  plain : Json → Bool
  decode_eq : ∀ j, decode j = if plain j then decode j.value else none

/-- A reader of the members of a struct, or of its positional form. -/
structure Members (α : Type) where
  names : List String
  arity : Nat
  read : Json.Fields → Option α
  readAt : Nat → List Json → Option α
  plain : Json.Fields → Bool
  plainAt : Nat → List Json → Bool
  read_eq : ∀ fields, read fields = if plain fields then read (Json.valueFields fields) else none
  readAt_eq : ∀ i items,
    readAt i items = if plainAt i items then readAt i (items.map Json.value) else none

namespace Reader

variable {α β : Type}

theorem decode_iff (r : Reader α) {j : Json} {a : α} :
    r.decode j = some a ↔ r.plain j ∧ r.decode j.value = some a := by
  rw [r.decode_eq]
  split
  · next h => simp [h]
  · next h => simp [h]

theorem decode_value (r : Reader α) {j : Json} {a : α} (h : r.decode j = some a) :
    r.decode j.value = some a := (r.decode_iff.mp h).2

def str : Reader String where
  decode
    | .str s => some s
    | _ => none
  plain _ := true
  decode_eq j := by cases j <;> simp [Json.value]

def bool : Reader Bool where
  decode
    | .bool b => some b
    | _ => none
  plain _ := true
  decode_eq j := by cases j <;> simp [Json.value]

/-- An unsigned integer of the given width. -/
def uint (width : Nat) : Reader Nat where
  decode
    | .num (.posInt n) => if n < 2 ^ width then some n else none
    | _ => none
  plain _ := true
  decode_eq j := by cases j <;> simp [Json.value]

def number : Reader Number where
  decode
    | .num n => some n
    | _ => none
  plain _ := true
  decode_eq j := by cases j <;> simp [Json.value]

/-- What a function makes of the value of a document. -/
def ofValue (f : Json → Option α) : Reader α where
  decode j := f j.value
  plain _ := true
  decode_eq j := by simp [Json.value_value]

/-- A unit variant: its name, alone or as the one member of an object. -/
def variant (named : String → Option α) : Reader α where
  decode
    | .str s => named s
    | .obj [(s, .null)] => named s
    | _ => none
  plain
    | .obj fields => fields.length ≤ 1
    | _ => true
  decode_eq j := by
    cases j with
    | obj fields =>
      match fields with
      | [] => rfl
      | [(k, v)] => cases v <;> simp [Json.value, Json.valueFields, Json.keys, Json.insert]
      | _ :: _ :: _ => simp
    | _ => simp [Json.value]

def option (r : Reader α) : Reader (Option α) where
  decode j := if j = .null then some none else (r.decode j).map some
  plain j := j = .null || r.plain j
  decode_eq j := by
    simp only [Json.value_eq_null]
    by_cases h : j = .null
    · simp [h]
    · rw [if_neg h, if_neg h, r.decode_eq]
      cases r.plain j <;> simp [h]

theorem mapM_value (r : Reader α) (items : List Json) : items.mapM r.decode =
    if items.all r.plain then (items.map Json.value).mapM r.decode else none := by
  induction items with
  | nil => rfl
  | cons item items ih =>
    rw [List.mapM_cons, ih, r.decode_eq, List.all_cons, List.map_cons, List.mapM_cons]
    cases r.plain item <;> cases items.all r.plain <;> simp

def list (r : Reader α) : Reader (List α) where
  decode
    | .arr items => items.mapM r.decode
    | _ => none
  plain
    | .arr items => items.all r.plain
    | _ => true
  decode_eq j := by
    cases j with
    | arr items => simpa using r.mapM_value items
    | _ => simp [Json.value]

def decodeMember (r : Reader α) (f : String × Json) : Option (String × α) :=
  (r.decode f.2).map fun a => (f.1, a)

theorem keys_mapM {r : Reader α} {fields : Json.Fields} {members : List (String × α)}
    (h : fields.mapM r.decodeMember = some members) : Json.keys members = Json.keys fields := by
  induction fields generalizing members with
  | nil =>
    cases h
    rfl
  | cons f fields ih =>
    simp only [List.mapM_cons, Option.bind_eq_bind, Option.bind_eq_some_iff, decodeMember,
      Option.map_eq_some_iff, Option.pure_def, Option.some.injEq] at h
    obtain ⟨_, ⟨a, -, rfl⟩, rest, hrest, rfl⟩ := h
    have := ih hrest
    simp only [Json.keys, List.map_cons] at this ⊢
    rw [this]

theorem mapM_insert {r : Reader α} {key : String} {item : Json} {a : α}
    (hitem : r.decode item = some a) {fields : Json.Fields} {members : List (String × α)}
    (h : fields.mapM r.decodeMember = some members) :
    (Json.insert key item fields).mapM r.decodeMember = some (Json.insert key a members) := by
  induction fields generalizing members with
  | nil =>
    cases h
    simp [Json.insert, decodeMember, hitem]
  | cons f fields ih =>
    obtain ⟨k, v⟩ := f
    have h' := h
    simp only [List.mapM_cons, Option.bind_eq_bind, Option.bind_eq_some_iff, decodeMember,
      Option.map_eq_some_iff, Option.pure_def, Option.some.injEq] at h
    obtain ⟨_, ⟨b, hb, rfl⟩, rest, hrest, rfl⟩ := h
    unfold Json.insert
    split
    · rw [List.mapM_cons, h']
      simp [decodeMember, hitem]
    · rw [List.mapM_cons, ih hrest]
      simp [decodeMember, hb]

/-- The members of a map read one by one denote what the members of its value are read as. -/
theorem mapM_valueFields {r : Reader α} {fields : Json.Fields} {members : List (String × α)}
    (h : fields.mapM r.decodeMember = some members) :
    (Json.valueFields fields).mapM r.decodeMember = some (Json.collect members) := by
  induction fields generalizing members with
  | nil =>
    cases h
    rfl
  | cons f fields ih =>
    obtain ⟨k, v⟩ := f
    simp only [List.mapM_cons, Option.bind_eq_bind, Option.bind_eq_some_iff, decodeMember,
      Option.map_eq_some_iff, Option.pure_def, Option.some.injEq] at h
    obtain ⟨_, ⟨a, ha, rfl⟩, rest, hrest, rfl⟩ := h
    have hkeys := keys_mapM (ih hrest)
    simp only [Json.valueFields, Json.collect, hkeys]
    split
    · exact ih hrest
    · exact mapM_insert (r.decode_value ha) (ih hrest)

/-- A map from strings: a key may be repeated, its last item counts. Every item is read. -/
def map (r : Reader α) : Reader (List (String × α)) where
  decode
    | .obj fields => (fields.mapM r.decodeMember).map Json.collect
    | _ => none
  plain
    | .obj fields => (fields.mapM r.decodeMember).isSome
    | _ => true
  decode_eq j := by
    cases j with
    | obj fields =>
      cases h : fields.mapM r.decodeMember with
      | none => simp [h]
      | some members =>
        have hsorted : Json.collect (Json.collect members) = Json.collect members :=
          Json.collect_of_sorted (Json.sorted_collect members)
        simp [h, mapM_valueFields h, hsorted]
    | _ => simp [Json.value]

/-- A struct: every member is one of its fields, or every item stands at the place of one. -/
def struct (m : Members α) : Reader α where
  decode
    | .obj fields => if ∀ k ∈ Json.keys fields, k ∈ m.names then m.read fields else none
    | .arr items => if items.length ≤ m.arity then m.readAt 0 items else none
    | _ => none
  plain
    | .obj fields => m.plain fields
    | .arr items => m.plainAt 0 items
    | _ => true
  decode_eq j := by
    cases j with
    | obj fields =>
      simp only [Json.value_obj, Json.mem_keys_valueFields]
      rw [m.read_eq]
      split <;> split <;> rfl
    | arr items =>
      simp only [Json.value_arr, List.length_map]
      rw [m.readAt_eq]
      split <;> split <;> rfl
    | _ => simp [Json.value]

/-- A struct that passes over the members it does not name. -/
def openStruct (m : Members α) : Reader α where
  decode
    | .obj fields => m.read fields
    | .arr items => if items.length ≤ m.arity then m.readAt 0 items else none
    | _ => none
  plain
    | .obj fields => m.plain fields
    | .arr items => m.plainAt 0 items
    | _ => true
  decode_eq j := by
    cases j with
    | obj fields => exact m.read_eq fields
    | arr items =>
      simp only [Json.value_arr, List.length_map]
      rw [m.readAt_eq]
      split <;> split <;> rfl
    | _ => simp [Json.value]

/-- What a partial function makes of what is read. -/
def refine (r : Reader α) (f : α → Option β) : Reader β where
  decode j := (r.decode j).bind f
  plain := r.plain
  decode_eq j := by
    rw [r.decode_eq]
    split <;> rfl

/-- A struct read from an object names every member of it. -/
theorem names_of_struct {m : Members α} {fields : Json.Fields} {a : α}
    (h : (struct m).decode (.obj fields) = some a) : ∀ k ∈ Json.keys fields, k ∈ m.names := by
  simp only [struct] at h
  split at h
  · assumption
  · cases h

end Reader

namespace Members

variable {α β : Type}

def pure (a : α) : Members α where
  names := []
  arity := 0
  read _ := some a
  readAt _ _ := some a
  plain _ := true
  plainAt _ _ := true
  read_eq _ := by simp
  readAt_eq _ _ := by simp

/-- One field, by its names; what stands for it when the object, or the array, has none. -/
def field (names : List String) (r : Reader α) (absent absentAt : Option α) : Members α where
  names := names
  arity := 1
  read fields :=
    match Json.itemsOf names fields with
    | [] => absent
    | [item] => r.decode item
    | _ :: _ :: _ => none
  readAt i items :=
    match items[i]? with
    | none => absentAt
    | some item => r.decode item
  plain fields :=
    match Json.itemsOf names fields with
    | [] => true
    | [item] => r.plain item
    | _ :: _ :: _ => false
  plainAt i items :=
    match items[i]? with
    | none => true
    | some item => r.plain item
  read_eq fields := by
    match h : Json.itemsOf names fields with
    | [] => simp [Json.itemsOf_value_nil h]
    | [item] =>
      simp only [Json.itemsOf_value_singleton h]
      exact r.decode_eq item
    | _ :: _ :: _ => simp
  readAt_eq i items := by
    cases h : items[i]? with
    | none => simp [h]
    | some item =>
      simp only [List.getElem?_map, h, Option.map_some]
      exact r.decode_eq item

/-- The fields of both, in their order. -/
def seq (f : Members (α → β)) (x : Members α) : Members β where
  names := f.names ++ x.names
  arity := f.arity + x.arity
  read fields := (f.read fields).bind fun g => (x.read fields).map g
  readAt i items := (f.readAt i items).bind fun g => (x.readAt (i + f.arity) items).map g
  plain fields := f.plain fields && x.plain fields
  plainAt i items := f.plainAt i items && x.plainAt (i + f.arity) items
  read_eq fields := by
    rw [f.read_eq, x.read_eq]
    cases f.plain fields <;> cases x.plain fields <;> simp
  readAt_eq i items := by
    rw [f.readAt_eq, x.readAt_eq]
    cases f.plainAt i items <;> cases x.plainAt (i + f.arity) items <;> simp

instance : Functor Members where
  map f x := (pure f).seq x

instance : Seq Members where
  seq f x := f.seq (x ())

/-- A field that must be there. -/
def required (name : String) (r : Reader α) : Members α := field [name] r none none

/-- An optional value: an object may leave it out, an array may not. -/
def optional (name : String) (r : Reader α) : Members (Option α) :=
  field [name] r.option (some none) none

/-- A field with a default. -/
def withDefault (name : String) (r : Reader α) (fallback : α) : Members α :=
  field [name] r (some fallback) (some fallback)

section Read

variable {name : String} {fields : Json.Fields} {item : Json}

theorem read_map (g : α → β) (x : Members α) : (g <$> x).read fields = (x.read fields).map g := rfl

theorem read_seq (f : Members (α → β)) (x : Members α) :
    (f <*> x).read fields = (f.read fields).bind fun g => (x.read fields).map g := rfl

theorem read_required (r : Reader α) (h : Json.itemsOf [name] fields = [item]) :
    (required name r).read fields = r.decode item := by
  simp only [required, field, h]

theorem read_withDefault (r : Reader α) (a : α) (h : Json.itemsOf [name] fields = [item]) :
    (withDefault name r a).read fields = r.decode item := by
  simp only [withDefault, field, h]

theorem read_absent (r : Reader α) (a : α) (h : Json.itemsOf [name] fields = []) :
    (withDefault name r a).read fields = some a := by
  simp only [withDefault, field, h]

end Read

end Members
