import Anodizer.Bump.Requirement

/-! # Healing dependency minimums

A dependency on a member of the workspace that asks for less than the member's version is raised to
it. A second run over the healed entries writes nothing.
-/

namespace Anodizer.Bump

open Template (Text)

/-! ### Dependency tables -/

inductive Field
  | str (t : Text)
  | other
  deriving DecidableEq

def Field.asStr : Field → Option Text
  | str t => some t
  | other => none

/-- A dependency: its requirement alone, or a table, inline or on its own. -/
inductive Item
  | string (s : Text)
  | table (inline : Bool) (package path version : Option Field)
  | other
  deriving DecidableEq

namespace Item

def package : Item → Option Field
  | table _ package _ _ => package
  | _ => none

def path : Item → Option Field
  | table _ _ path _ => path
  | _ => none

def version : Item → Option Field
  | table _ _ _ version => version
  | _ => none

end Item

/-- A table has one entry of each key. -/
structure DepTable where
  entries : List (Text × Item)
  nodup : (entries.map Prod.fst).Nodup

def depVersionSpec : Item → Option Text
  | .string s => some s
  | item => item.version.bind Field.asStr

/-- The item with a new requirement, where it has one. -/
def rewriteItem : Item → Text → Option Item
  | .string _, new => some (.string new)
  | .table inline package path (some _), new => some (.table inline package path (some (.str new)))
  | _, _ => none

def rewriteAt (key new : Text) (e : Text × Item) : Text × Item :=
  if e.1 = key then (e.1, (rewriteItem e.2 new).getD e.2) else e

/-- The table with a new requirement at the key, and whether there was one to rewrite. -/
def rewriteDepEntry (tbl : DepTable) (depName newVer : Text) : DepTable × Bool :=
  (⟨tbl.entries.map (rewriteAt depName newVer), by
      have hkeys : Prod.fst ∘ rewriteAt depName newVer = Prod.fst := by
        funext e
        simp only [Function.comp_apply, rewriteAt]
        split <;> rfl
      rw [List.map_map, hkeys]
      exact tbl.nodup⟩,
    (tbl.entries.lookup depName).any fun item => (rewriteItem item newVer).isSome)

/-! ### Healing -/

/-- The versions and directories of the workspace, and where a path of the manifest leads. -/
structure HealScope (Dir : Type) where
  resolved : Text → Option Version
  dirs : Text → Option Dir
  propagated : Text → Bool
  canonicalize : Text → Option Dir

section Heal

variable {Dir : Type} [DecidableEq Dir] (crate : SemverCrate) (scope : HealScope Dir)
  (propagatedHere : Bool)

/-- The requirement that an entry is healed to, if it is a stale one of a member. -/
def healWrite (key : Text) (item : Item) : Option Text :=
  if propagatedHere && scope.propagated key then none
  else do
    let depName := (item.package.bind Field.asStr).getD key
    let want ← scope.resolved depName
    let dir ← scope.dirs depName
    let path ← item.path.bind Field.asStr
    if scope.canonicalize path ≠ some dir then none
    else
      let spec ← depVersionSpec item
      healRequirement crate spec want

/-- All decisions are made before the first entry is rewritten. -/
def healDepTable (tbl : DepTable) : DepTable × Bool :=
  let writes := tbl.entries.filterMap fun e =>
    (healWrite crate scope propagatedHere e.1 e.2).map fun next => (e.1, next)
  writes.foldl (fun s w =>
    let out := rewriteDepEntry s.1 w.1 w.2
    (out.1, s.2 || out.2)) (tbl, false)

/-- The item once it is healed. -/
def healItem (key : Text) (item : Item) : Item :=
  match healWrite crate scope propagatedHere key item with
  | none => item
  | some next => (rewriteItem item next).getD item

end Heal

/-! ### One entry -/

variable {Dir : Type} [DecidableEq Dir] {crate : SemverCrate} {scope : HealScope Dir} {here : Bool}
  {spec next key : Text} {item : Item} {v : Version}

/-- A healed requirement is not stale for the same version. -/
theorem healRequirement_healed (hdoc : crate.Documented)
    (h : healRequirement crate spec v = some next) : healRequirement crate next v = none := by
  have hagain : restyleRequirement crate next v = some next := by
    rw [healRequirement] at h
    split at h
    · cases h
    · next op minimum hmin =>
      obtain ⟨c, hparse, -, hop⟩ := requirementMinimum_some hmin
      split at h
      · cases h
      · obtain ⟨hrestyle, -⟩ := Option.filter_eq_some_iff.mp h
        obtain ⟨next', hnext⟩ := exists_restyled hdoc hparse hop v
        obtain rfl := Option.some.inj (hnext.restyle.symm.trans hrestyle)
        exact hnext.again
  rw [healRequirement]
  split
  · rfl
  · split
    · rfl
    · rw [hagain]
      simp

/-- An entry that is healed is a table with a path and a requirement. -/
theorem exists_of_healWrite (h : healWrite crate scope here key item = some next) :
    ∃ inline package path spec, item = .table inline package path (some (.str spec)) ∧
      ∀ spec', healWrite crate scope here key (.table inline package path (some (.str spec'))) =
        (scope.resolved ((package.bind Field.asStr).getD key)).bind fun want =>
          healRequirement crate spec' want := by
  rw [healWrite] at h
  split at h
  · cases h
  · next hhere =>
    simp only [Option.bind_eq_bind, Option.bind_eq_some_iff] at h
    obtain ⟨want, hwant, dir, hdir, target, ⟨field, hpath, htarget⟩, h⟩ := h
    split at h
    · cases h
    · next hcanon =>
      obtain ⟨spec, hspec, -⟩ := Option.bind_eq_some_iff.mp h
      cases item with
      | string s => cases hpath
      | other => cases hpath
      | table inline package path version =>
        obtain ⟨versionField, rfl, hversion⟩ := Option.bind_eq_some_iff.mp hspec
        obtain rfl : versionField = .str spec := by
          cases versionField with
          | str t => exact congrArg _ (Option.some.inj hversion)
          | other => cases hversion
        obtain rfl : path = some field := hpath
        refine ⟨inline, package, some field, spec, rfl, fun spec' => ?_⟩
        rw [healWrite, if_neg hhere]
        simp only [Item.package, Item.path, Option.bind_eq_bind] at hdir ⊢
        simp only [hdir, htarget, hcanon, Option.bind_some, if_false]
        rfl

/-- The decision about a healed entry is to leave it. -/
theorem healWrite_healItem (hdoc : crate.Documented) :
    healWrite crate scope here key (healItem crate scope here key item) = none := by
  cases hwrite : healWrite crate scope here key item with
  | none => rwa [healItem, hwrite]
  | some next =>
    obtain ⟨inline, package, path, spec, rfl, hspec⟩ := exists_of_healWrite hwrite
    rw [healItem, hwrite]
    change healWrite crate scope here key (.table inline package path (some (.str next))) = none
    rw [hspec] at hwrite ⊢
    obtain ⟨want, hwant, hheal⟩ := Option.bind_eq_some_iff.mp hwrite
    rw [hwant, Option.bind_some, healRequirement_healed hdoc hheal]

/-! ### The table -/

theorem rewriteAt_of_ne {new : Text} {e : Text × Item} (h : e.1 ≠ key) :
    rewriteAt key new e = e := if_neg h

theorem foldl_rewriteAt_of_ne {e : Text × Item} {ws : List (Text × Text)}
    (h : ∀ w ∈ ws, e.1 ≠ w.1) : ws.foldl (fun e w => rewriteAt w.1 w.2 e) e = e := by
  induction ws with
  | nil => rfl
  | cons w ws ih =>
    rw [List.foldl_cons, rewriteAt_of_ne (h w List.mem_cons_self)]
    exact ih fun w' hw' => h w' (List.mem_cons_of_mem _ hw')

section Table

variable (crate scope here)

/-- The write that an entry asks for. -/
def writeOf (e : Text × Item) : Option (Text × Text) :=
  (healWrite crate scope here e.1 e.2).map fun next => (e.1, next)

/-- The entry once it is healed. -/
def healed (e : Text × Item) : Text × Item := (e.1, healItem crate scope here e.1 e.2)

variable {crate scope here}

theorem writeOf_fst {e : Text × Item} {w : Text × Text} (h : writeOf crate scope here e = some w) :
    w.1 = e.1 := by
  obtain ⟨next, -, rfl⟩ := Option.map_eq_some_iff.mp h
  rfl

theorem rewriteAt_writeOf {e : Text × Item} {w : Text × Text}
    (h : writeOf crate scope here e = some w) :
    rewriteAt w.1 w.2 e = healed crate scope here e := by
  obtain ⟨next, hnext, rfl⟩ := Option.map_eq_some_iff.mp h
  rw [rewriteAt, if_pos rfl, healed, healItem, hnext]

theorem healed_of_writeOf_none {e : Text × Item} (h : writeOf crate scope here e = none) :
    healed crate scope here e = e := by
  rw [healed, healItem, Option.map_eq_none_iff.mp h]

/-- Of the writes of a table, an entry gets its own. -/
theorem foldl_writes {l : List (Text × Item)} (hnodup : (l.map Prod.fst).Nodup) {e : Text × Item}
    (he : e ∈ l) : (l.filterMap (writeOf crate scope here)).foldl
      (fun e w => rewriteAt w.1 w.2 e) e = healed crate scope here e := by
  induction l with
  | nil => exact absurd he List.not_mem_nil
  | cons x l ih =>
    obtain ⟨hx, hl⟩ := List.nodup_cons.mp hnodup
    rcases List.mem_cons.mp he with rfl | he
    · have hrest : ∀ w ∈ l.filterMap (writeOf crate scope here), e.1 ≠ w.1 := by
        intro w hw heq
        obtain ⟨y, hy, hyw⟩ := List.mem_filterMap.mp hw
        rw [writeOf_fst hyw] at heq
        exact hx (heq ▸ List.mem_map_of_mem hy)
      cases hw : writeOf crate scope here e with
      | none =>
        rw [List.filterMap_cons_none hw, foldl_rewriteAt_of_ne hrest, healed_of_writeOf_none hw]
      | some w =>
        rw [List.filterMap_cons_some hw, List.foldl_cons, rewriteAt_writeOf hw]
        exact foldl_rewriteAt_of_ne hrest
    · cases hw : writeOf crate scope here x with
      | none => rw [List.filterMap_cons_none hw, ih hl he]
      | some w =>
        have hne : e.1 ≠ w.1 := by
          rw [writeOf_fst hw]
          exact fun heq => hx (heq ▸ List.mem_map_of_mem he)
        rw [List.filterMap_cons_some hw, List.foldl_cons, rewriteAt_of_ne hne, ih hl he]

theorem healDepTable_entries (tbl : DepTable) :
    (healDepTable crate scope here tbl).1.entries = tbl.entries.map (healed crate scope here) := by
  have hfold : ∀ (ws : List (Text × Text)) (t : DepTable) (b : Bool),
      (ws.foldl (fun s w =>
        let out := rewriteDepEntry s.1 w.1 w.2
        (out.1, s.2 || out.2)) (t, b)).1.entries =
        t.entries.map fun e => ws.foldl (fun e w => rewriteAt w.1 w.2 e) e := by
    intro ws
    induction ws with
    | nil => exact fun t _ => (List.map_id _).symm
    | cons w ws ih =>
      intro t b
      rw [List.foldl_cons, ih, rewriteDepEntry, List.map_map]
      rfl
  rw [healDepTable, hfold]
  exact List.map_congr_left fun e he => foldl_writes tbl.nodup he

/-- A second run over a healed table writes nothing. -/
theorem healDepTable_idempotent (hdoc : crate.Documented) (tbl : DepTable) :
    healDepTable crate scope here (healDepTable crate scope here tbl).1 =
      ((healDepTable crate scope here tbl).1, false) := by
  have hnone : (healDepTable crate scope here tbl).1.entries.filterMap
      (writeOf crate scope here) = [] := by
    rw [healDepTable_entries, List.filterMap_eq_nil_iff]
    rintro e he
    obtain ⟨e', -, rfl⟩ := List.mem_map.mp he
    exact Option.map_eq_none_iff.mpr (healWrite_healItem hdoc)
  rw [healDepTable]
  exact congrArg (List.foldl _ _) hnone

end Table

/-! ### A sound restyling -/

/-- A release is written with the components that the comparator has. -/
theorem restyled_components (c : Comparator) (hparts : c.patch.isSome → c.minor.isSome)
    (hpre : v.pre.1 = []) (op : Op) :
    ((restyled c v).comparator op).minor.isSome = c.minor.isSome ∧
      ((restyled c v).comparator op).patch.isSome = c.patch.isSome := by
  rcases hminor : c.minor with - | b
  · have hpatch : c.patch = none := by
      rw [hminor] at hparts
      simpa using hparts
    simp [restyled, hpre, hminor, hpatch, Partial.comparator]
  · rcases hpatch : c.patch with - | p <;>
      simp [restyled, hpre, hminor, hpatch, Partial.comparator]

/-- The requirement, restyled at the version, is one comparator that admits it. It keeps the
operator, and at a release the number of components. What is healed once is not healed again,
neither the requirement nor an entry of a table. -/
structure SoundlyRestyled (crate : SemverCrate) (spec : Text) (v : Version) : Prop where
  restyled : ∃ c next c', crate.parse spec = some [c] ∧
    restyleRequirement crate spec v = some next ∧ crate.parse next = some [c'] ∧
    crate.admits [c'] v ∧ c'.op = keptOp c.op ∧
    (v.pre.1 = [] → c'.minor.isSome = c.minor.isSome ∧ c'.patch.isSome = c.patch.isSome)
  healed : healRequirement crate ((healRequirement crate spec v).getD spec) v = none
  entries : ∀ (Dir : Type) [DecidableEq Dir] (scope : HealScope Dir) here key item,
    healWrite crate scope here key (healItem crate scope here key item) = none

end Anodizer.Bump
