import Mathlib.Data.String.Basic
import Mathlib.Data.List.Sort

/-! # JSON documents

A document as it is written keeps the members of an object in order and may repeat a key.
Its value keeps the last member of each key, sorted: two documents have one value when a
reader that goes through a map cannot tell them apart.
-/

/-- A number as the reader classifies it; the text of a float is not interpreted. -/
inductive Number
  | posInt (n : Nat)
  | negInt (n : Nat)
  | float (text : String)
  deriving DecidableEq, Repr

inductive Json
  | null
  | bool (b : Bool)
  | num (n : Number)
  | str (s : String)
  | arr (items : List Json)
  | obj (fields : List (String × Json))
  deriving Repr

namespace Json

abbrev Fields := List (String × Json)

mutual

def decEq : (a b : Json) → Decidable (a = b)
  | .null, b =>
    match b with
    | .null => isTrue rfl
    | .bool _ | .num _ | .str _ | .arr _ | .obj _ => isFalse (by simp)
  | .bool x, b =>
    match b with
    | .bool y => decidable_of_iff (x = y) (by simp)
    | .null | .num _ | .str _ | .arr _ | .obj _ => isFalse (by simp)
  | .num x, b =>
    match b with
    | .num y => decidable_of_iff (x = y) (by simp)
    | .null | .bool _ | .str _ | .arr _ | .obj _ => isFalse (by simp)
  | .str x, b =>
    match b with
    | .str y => decidable_of_iff (x = y) (by simp)
    | .null | .bool _ | .num _ | .arr _ | .obj _ => isFalse (by simp)
  | .arr x, b =>
    match b with
    | .arr y => @decidable_of_iff _ (x = y) (by simp) (decEqItems x y)
    | .null | .bool _ | .num _ | .str _ | .obj _ => isFalse (by simp)
  | .obj x, b =>
    match b with
    | .obj y => @decidable_of_iff _ (x = y) (by simp) (decEqFields x y)
    | .null | .bool _ | .num _ | .str _ | .arr _ => isFalse (by simp)

def decEqItems : (a b : List Json) → Decidable (a = b)
  | [], [] => isTrue rfl
  | [], _ :: _ => isFalse (by simp)
  | _ :: _, [] => isFalse (by simp)
  | x :: xs, y :: ys =>
    @decidable_of_iff _ (x = y ∧ xs = ys) (by simp)
      (@instDecidableAnd _ _ (decEq x y) (decEqItems xs ys))

def decEqFields : (a b : Fields) → Decidable (a = b)
  | [], [] => isTrue rfl
  | [], _ :: _ => isFalse (by simp)
  | _ :: _, [] => isFalse (by simp)
  | (k, x) :: xs, (l, y) :: ys =>
    @decidable_of_iff _ ((k = l ∧ x = y) ∧ xs = ys) (by simp)
      (@instDecidableAnd _ _ (@instDecidableAnd _ _ _ (decEq x y)) (decEqFields xs ys))

end

instance : DecidableEq Json := decEq

section Members

variable {β : Type}

def keys (fields : List (String × β)) : List String := fields.map Prod.fst

/-- Puts a member at its place among sorted members. -/
@[grind =] def insert (key : String) (item : β) : List (String × β) → List (String × β)
  | [] => [(key, item)]
  | (k, v) :: fields =>
    if key < k then (key, item) :: (k, v) :: fields else (k, v) :: insert key item fields

/-- The map that members denote: sorted, the last one of each key. -/
@[grind =] def collect : List (String × β) → List (String × β)
  | [] => []
  | (key, item) :: fields =>
    let later := collect fields
    if key ∈ keys later then later else insert key item later

theorem insert_perm (key : String) (item : β) (fields : List (String × β)) :
    (insert key item fields).Perm ((key, item) :: fields) := by
  induction fields with
  | nil => exact .refl _
  | cons f fields ih =>
    unfold insert
    split
    · exact .refl _
    · exact (ih.cons f).trans (.swap ..)

theorem mem_keys_insert {key k : String} {item : β} {fields : List (String × β)} :
    k ∈ keys (insert key item fields) ↔ k = key ∨ k ∈ keys fields := by
  have hperm := (insert_perm key item fields).map Prod.fst
  rw [keys, hperm.mem_iff, List.map_cons, List.mem_cons, keys]

theorem mem_keys_collect {fields : List (String × β)} {key : String} :
    key ∈ keys (collect fields) ↔ key ∈ keys fields := by
  induction fields generalizing key with
  | nil => rfl
  | cons f fields ih =>
    obtain ⟨k, v⟩ := f
    simp only [collect]
    split
    · next hin =>
      rw [ih] at hin ⊢
      simp only [keys, List.map_cons, List.mem_cons] at hin ⊢
      constructor
      · exact .inr
      · rintro (rfl | h)
        · exact hin
        · exact h
    · rw [mem_keys_insert, ih]
      simp [keys]

theorem sorted_insert {key : String} {item : β} {fields : List (String × β)}
    (hs : (keys fields).Pairwise (· < ·)) (hk : key ∉ keys fields) :
    (keys (insert key item fields)).Pairwise (· < ·) := by
  induction fields with
  | nil => simp [insert, keys]
  | cons f fields ih =>
    obtain ⟨k, v⟩ := f
    simp only [keys, List.map_cons, List.mem_cons, not_or] at hk hs
    rw [List.pairwise_cons] at hs
    unfold insert
    split
    · next hlt =>
      simp only [keys, List.map_cons, List.pairwise_cons, List.mem_cons]
      refine ⟨?_, hs.1, hs.2⟩
      rintro k' (rfl | hk')
      · exact hlt
      · exact hlt.trans (hs.1 k' hk')
    · next hge =>
      have hkey : k < key := lt_of_le_of_ne (not_lt.mp hge) (Ne.symm hk.1)
      have htail := ih hs.2 hk.2
      change (k :: keys (insert key item fields)).Pairwise (· < ·)
      rw [List.pairwise_cons]
      refine ⟨?_, htail⟩
      intro k' hk'
      rcases mem_keys_insert.mp hk' with rfl | hk'
      · exact hkey
      · exact hs.1 k' hk'

theorem sorted_collect (fields : List (String × β)) :
    (keys (collect fields)).Pairwise (· < ·) := by
  induction fields with
  | nil => exact .nil
  | cons f fields ih =>
    obtain ⟨k, v⟩ := f
    simp only [collect]
    split
    · exact ih
    · next hnot => exact sorted_insert ih hnot

/-- Members that are sorted and do not repeat a key denote themselves. -/
theorem collect_of_sorted {fields : List (String × β)} (hs : (keys fields).Pairwise (· < ·)) :
    collect fields = fields := by
  induction fields with
  | nil => rfl
  | cons f fields ih =>
    obtain ⟨k, v⟩ := f
    simp only [keys, List.map_cons, List.pairwise_cons] at hs
    have hnot : k ∉ keys fields := fun h => lt_irrefl k (hs.1 k h)
    simp only [collect, mem_keys_collect]
    rw [if_neg hnot, ih hs.2]
    cases fields with
    | nil => rfl
    | cons f' fields =>
      have hlt : k < f'.1 := hs.1 f'.1 (by simp)
      rw [insert, if_pos hlt]

end Members

mutual

/-- The value of a document: of the members with one key the last stays, keys are sorted. -/
@[grind =] def value : Json → Json
  | .arr items => .arr (valueItems items)
  | .obj fields => .obj (valueFields fields)
  | .null => .null
  | .bool b => .bool b
  | .num n => .num n
  | .str s => .str s

@[grind =] def valueItems : List Json → List Json
  | [] => []
  | item :: items => value item :: valueItems items

@[grind =] def valueFields : Fields → Fields
  | [] => []
  | (key, item) :: fields =>
    let later := valueFields fields
    if key ∈ keys later then later else insert key (value item) later

end

/-- The items of the members whose key is one of the names. -/
def itemsOf (names : List String) (fields : Fields) : List Json :=
  (fields.filter (·.1 ∈ names)).map Prod.snd

theorem valueItems_eq (items : List Json) : valueItems items = items.map value := by
  induction items with
  | nil => rfl
  | cons item items ih => rw [valueItems, ih, List.map_cons]

@[simp] theorem value_arr (items : List Json) : value (.arr items) = .arr (items.map value) := by
  rw [value, valueItems_eq]

@[simp] theorem value_obj (fields : Fields) : value (.obj fields) = .obj (valueFields fields) := by
  rw [value]

@[simp] theorem value_str (s : String) : value (.str s) = .str s := by
  rw [value]

@[simp] theorem value_null : value .null = .null := by
  rw [value]

@[simp] theorem value_eq_null {j : Json} : value j = .null ↔ j = .null := by
  cases j <;> simp [value]

/-! ### The members of a value -/

theorem valueFields_eq (fields : Fields) :
    valueFields fields = collect (fields.map fun f => (f.1, value f.2)) := by
  induction fields with
  | nil => rfl
  | cons f fields ih =>
    obtain ⟨k, v⟩ := f
    rw [valueFields, List.map_cons, collect, ih]

theorem mem_keys_valueFields {fields : Fields} {key : String} :
    key ∈ keys (valueFields fields) ↔ key ∈ keys fields := by
  rw [valueFields_eq, mem_keys_collect]
  simp [keys]

theorem sorted_valueFields (fields : Fields) :
    (keys (valueFields fields)).Pairwise (· < ·) := by
  rw [valueFields_eq]
  exact sorted_collect _

/-- On members that are sorted and do not repeat a key only the items change. -/
theorem valueFields_of_sorted {fields : Fields} (hs : (keys fields).Pairwise (· < ·)) :
    valueFields fields = fields.map fun f => (f.1, value f.2) := by
  rw [valueFields_eq]
  apply collect_of_sorted
  simpa [keys, Function.comp_def] using hs

mutual

theorem value_value : (j : Json) → value (value j) = value j
  | .null | .bool _ | .num _ | .str _ => by simp [value]
  | .arr items => by rw [value, value, valueItems_valueItems items]
  | .obj fields => by
    have hmap : (valueFields fields).map (fun f => (f.1, value f.2)) = valueFields fields := by
      conv_rhs => rw [← List.map_id (valueFields fields)]
      exact List.map_congr_left fun f hf => by rw [value_of_mem fields f hf, id]
    rw [value, value, valueFields_of_sorted (sorted_valueFields fields), hmap]

theorem valueItems_valueItems : (items : List Json) →
    valueItems (valueItems items) = valueItems items
  | [] => rfl
  | item :: items => by
    rw [valueItems, valueItems, value_value item, valueItems_valueItems items]

theorem value_of_mem : (fields : Fields) → ∀ f ∈ valueFields fields, value f.2 = f.2
  | [] => by simp [valueFields]
  | (k, v) :: fields => by
    intro f hf
    simp only [valueFields] at hf
    split at hf
    · exact value_of_mem fields f hf
    · rw [(insert_perm ..).mem_iff, List.mem_cons] at hf
      rcases hf with rfl | hf
      · exact value_value v
      · exact value_of_mem fields f hf

end

/-! ### The items of a name -/

section ItemsOf

variable {names : List String}

theorem itemsOf_cons_mem {k : String} {v : Json} {fields : Fields} (h : k ∈ names) :
    itemsOf names ((k, v) :: fields) = v :: itemsOf names fields := by
  simp [itemsOf, h]

theorem itemsOf_cons_notMem {k : String} {v : Json} {fields : Fields} (h : k ∉ names) :
    itemsOf names ((k, v) :: fields) = itemsOf names fields := by
  simp [itemsOf, h]

theorem itemsOf_append (xs ys : Fields) :
    itemsOf names (xs ++ ys) = itemsOf names xs ++ itemsOf names ys := by
  simp only [itemsOf, List.filter_append, List.map_append]

theorem itemsOf_eq_nil_iff {fields : Fields} :
    itemsOf names fields = [] ↔ ∀ k ∈ names, k ∉ keys fields := by
  simp only [itemsOf, List.map_eq_nil_iff, List.filter_eq_nil_iff, decide_eq_true_eq, keys,
    List.mem_map, not_exists, not_and]
  constructor
  · rintro h k hk f hf rfl
    exact h f hf hk
  · intro h f hf hk
    exact h f.1 hk f hf rfl

theorem itemsOf_insert_notMem {k : String} {v : Json} {fields : Fields} (h : k ∉ names) :
    itemsOf names (insert k v fields) = itemsOf names fields := by
  induction fields with
  | nil => simp [insert, itemsOf, h]
  | cons f fields ih =>
    obtain ⟨k', v'⟩ := f
    unfold insert
    split
    · exact itemsOf_cons_notMem h
    · by_cases hk : k' ∈ names
      · rw [itemsOf_cons_mem hk, itemsOf_cons_mem hk, ih]
      · rw [itemsOf_cons_notMem hk, itemsOf_cons_notMem hk, ih]

theorem itemsOf_insert_mem {k : String} {v : Json} {fields : Fields} (h : k ∈ names)
    (hnil : itemsOf names fields = []) : itemsOf names (insert k v fields) = [v] := by
  have hperm : (itemsOf names (insert k v fields)).Perm (itemsOf names ((k, v) :: fields)) :=
    ((insert_perm k v fields).filter _).map _
  rw [itemsOf_cons_mem h, hnil] at hperm
  exact List.perm_singleton.mp hperm

theorem itemsOf_value_nil {fields : Fields} (h : itemsOf names fields = []) :
    itemsOf names (valueFields fields) = [] := by
  rw [itemsOf_eq_nil_iff] at h ⊢
  intro k hk
  rw [mem_keys_valueFields]
  exact h k hk

/-- A member whose name is not repeated keeps its item in the value. -/
theorem itemsOf_value_singleton {fields : Fields} {v : Json} (h : itemsOf names fields = [v]) :
    itemsOf names (valueFields fields) = [value v] := by
  induction fields with
  | nil => simp [itemsOf] at h
  | cons f fields ih =>
    obtain ⟨k, item⟩ := f
    simp only [valueFields]
    by_cases hk : k ∈ names
    · rw [itemsOf_cons_mem hk] at h
      obtain ⟨rfl, hnil⟩ := List.cons.inj h
      have hnot : k ∉ keys (valueFields fields) := by
        rw [mem_keys_valueFields]
        exact itemsOf_eq_nil_iff.mp hnil k hk
      rw [if_neg hnot]
      exact itemsOf_insert_mem hk (itemsOf_value_nil hnil)
    · rw [itemsOf_cons_notMem hk] at h
      split
      · exact ih h
      · rw [itemsOf_insert_notMem hk]
        exact ih h

end ItemsOf

end Json
