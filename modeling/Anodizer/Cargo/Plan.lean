import Anodizer.Cargo.Manifest
import Anodizer.Lib.Kahn
import Anodizer.Lib.Loop

/-! # The cargo publish plan

The plan selects the crates a run publishes and orders them by their derived
`depends_on`. An order that breaks an edge is refused before anything is published.
-/

namespace Anodizer

structure WaitForWorkspaceDepsConfig where
  enabled : Option Bool := none
  deriving DecidableEq, Repr

def WaitForWorkspaceDepsConfig.resolvedEnabled (cfg : WaitForWorkspaceDepsConfig) : Bool :=
  cfg.enabled.getD false

/-- The `publish.cargo` block of a crate. -/
structure CargoPublishConfig where
  registry : Option String := none
  index : Option String := none
  indexTimeout : Option Nat := none
  waitForWorkspaceDeps : Option WaitForWorkspaceDepsConfig := none
  skip : Option String := none
  ifCondition : Option String := none
  deriving DecidableEq, Repr

structure BinstallConfig where
  enabled : Option Bool := none
  deriving DecidableEq, Repr

structure CrateConfig where
  name : String
  path : String
  dependsOn : Option (List String) := none
  cargo : Option CargoPublishConfig := none
  binstall : Option BinstallConfig := none
  deriving DecidableEq, Repr

/-- The crates of the configuration and of its workspaces; two packages of one workspace
never share a name. -/
structure Config where
  crates : List CrateConfig
  workspaces : List (List CrateConfig) := []
  distinct : (crates.map (·.name)).Nodup

/-- Adds a crate unless an earlier entry has its name. -/
def addCrate (out : List CrateConfig) (c : CrateConfig) : List CrateConfig :=
  if out.any (·.name = c.name) then out else out ++ [c]

def Config.crateUniverse (config : Config) : List CrateConfig :=
  config.workspaces.flatten.foldl addCrate config.crates

def fillDependsOn (derived : List (String × List String)) (c : CrateConfig) : CrateConfig :=
  match c.dependsOn with
  | some _ => c
  | none => { c with dependsOn := Kahn.collect derived c.name }

@[simp] theorem fillDependsOn_name (derived : List (String × List String)) (c : CrateConfig) :
    (fillDependsOn derived c).name = c.name := by
  unfold fillDependsOn
  split <;> rfl

/-- Derives `depends_on` for every crate that omits it, against the members found on disk. -/
def Config.populateDerivedDependsOn (config : Config) (disk : Disk) (memberNames : List String) :
    Config :=
  if memberNames = [] then config else
    let derived := (config.crateUniverse.filter (·.dependsOn.isNone)).map fun c =>
      (c.name, deriveDependsOnFromCargoToml (disk.manifest c.path) memberNames)
    { crates := config.crates.map (fillDependsOn derived)
      workspaces := config.workspaces.map (·.map (fillDependsOn derived))
      distinct := by simpa [Function.comp_def] using config.distinct }

/-! ### The selection -/

/-- Follows `depends_on` from the names on the stack; names outside the map are passed over. -/
def expandLoop (nameToDeps : List (String × List String)) (stack out : List String) :
    List String :=
  match stack with
  | [] => out
  | name :: stack =>
    match _h : Kahn.collect nameToDeps name with
    | none => expandLoop nameToDeps stack out
    | some deps =>
      if _hin : name ∈ out then expandLoop nameToDeps stack out
      else
        expandLoop nameToDeps
          ((deps.filter (· ∉ out ++ [name])).reverse ++ stack) (out ++ [name])
termination_by (((Kahn.names nameToDeps).filter (· ∉ out)).length, stack.length)
decreasing_by
  · apply Prod.Lex.right
    simp
  · apply Prod.Lex.right
    simp
  · apply Prod.Lex.left
    have hname := List.mem_map_of_mem (f := Prod.fst) (Kahn.mem_of_collect _h)
    rw [Kahn.length_filter_notMem _ _hin]
    exact Nat.lt_add_of_pos_right (List.count_pos_iff.mpr hname)

def expandWithTransitiveDeps (allCrates : List CrateConfig) (seed : List String) : List String :=
  expandLoop (allCrates.map fun c => (c.name, c.dependsOn.getD [])) seed.reverse []

/-- How the `skip` and `if` templates of a `publish.cargo` block evaluate. -/
structure Templates where
  skip : String → Except String Bool
  ifCondition : Option String → Except String Bool

def withContext {α : Type} (context : String) : Except String α → Except String α
  | .ok a => .ok a
  | .error e => .error s!"{context}: {e}"

/-- The `publish.cargo` block of a crate, none when there is none or it is turned off. -/
def eligible (templates : Templates) (c : CrateConfig) :
    Except String (Option CargoPublishConfig) :=
  match c.cargo with
  | none => .ok none
  | some cfg => do
    let off ← match cfg.skip with
      | none => .ok false
      | some d => withContext s!"cargo: render skip template for '{c.name}'" (templates.skip d)
    if off then .ok none else
      let proceed ← templates.ifCondition cfg.ifCondition
      .ok (if proceed then some cfg else none)

def cargoConfigs (templates : Templates) :
    List CrateConfig → Except String (List (String × CargoPublishConfig))
  | [] => .ok []
  | c :: cs => do
    let cfg ← eligible templates c
    let rest ← cargoConfigs templates cs
    .ok ((cfg.toList.map fun cfg => (c.name, cfg)) ++ rest)

/-! ### The order -/

/-- The edges a crate is ordered by: its `depends_on`, derived from its manifest when absent. -/
def publishDeps (disk : Disk) (allCrates : List CrateConfig) (c : CrateConfig) : List String :=
  match c.dependsOn with
  | some deps => deps
  | none =>
    (deriveDependsOnFromCargoToml (disk.manifest c.path) (allCrates.map (·.name))).filter
      (· ≠ c.name)

def publishable (disk : Disk) (allCrates : List CrateConfig) (selection : Option (List String))
    (cfgs : List (String × CargoPublishConfig)) : Kahn.Graph String :=
  (allCrates.filter fun c =>
    (match selection with
      | none => true
      | some names => c.name ∈ names) && (Kahn.collect cfgs c.name).isSome).map
    fun c => (c.name, publishDeps disk allCrates c)

def topologicalSort (items : Kahn.Graph String) : List String := Kahn.sort items

/-- The position of a crate in the order. -/
def position (order : List String) (name : String) : Option Nat :=
  Kahn.collect order.zipIdx name

def orderBroken (name dep : String) (depPos here : Nat) : String :=
  s!"cargo publish order is broken: '{name}' depends on workspace crate '{dep}', but '{dep}' is " ++
    s!"scheduled at position {depPos} (at or after '{name}' at position {here}). Refusing to " ++
    s!"publish out of order — crates.io would reject '{name}' for an unresolvable '{dep}' " ++
    "dependency. This usually means a dependency cycle among the co-published crates."

def validateDep (order : List String) (name : String) (here : Nat) (dep : String) :
    Except String Unit :=
  match position order dep with
  | none => .ok ()
  | some depPos =>
    if depPos ≥ here then .error (orderBroken name dep depPos here) else .ok ()

def validatePublishOrder (order : List String) (graph : Kahn.Graph String) :
    Except String Unit :=
  graph.forM fun e =>
    match position order e.1 with
    | none => .ok ()
    | some here => e.2.forM (validateDep order e.1 here)

structure CargoPublishPlan where
  order : List String
  cfgs : List (String × CargoPublishConfig)
  versions : List (String × String)
  allCrates : List CrateConfig
  deps : List (String × List String)

/-- What the plan reads from its surroundings. -/
structure PlanContext where
  templates : Templates
  disk : Disk
  plannedCrateVersions : String → Option String
  readCargoTomlVersion : String → Option String

def expandedSelection (allCrates : List CrateConfig) (selected : List String) :
    Option (List String) :=
  if selected.isEmpty then none else some (expandWithTransitiveDeps allCrates selected)

def cargoPublishPlan (ctx : PlanContext) (config : Config) (selected : List String) :
    Except String CargoPublishPlan := do
  let allCrates := config.crateUniverse
  let cfgs ← cargoConfigs ctx.templates allCrates
  let graph := publishable ctx.disk allCrates (expandedSelection allCrates selected) cfgs
  let order := topologicalSort graph
  validatePublishOrder order graph
  .ok {
    order, cfgs, allCrates, deps := graph
    versions := (allCrates.filter (·.name ∈ order)).map fun c =>
      (c.name, (ctx.plannedCrateVersions c.name <|> ctx.readCargoTomlVersion c.path).getD "") }

/-! ### What a plan guarantees -/

theorem addCrate_nodup {out : List CrateConfig} (c : CrateConfig)
    (h : (out.map (·.name)).Nodup) : ((addCrate out c).map (·.name)).Nodup := by
  unfold addCrate
  split
  · exact h
  · next hany =>
    rw [List.map_append, List.nodup_append]
    refine ⟨h, by simp, ?_⟩
    rintro a ha b hb rfl
    simp at hany hb
    obtain ⟨x, hx, rfl⟩ := List.mem_map.mp ha
    exact hany x hx hb

theorem crateUniverse_nodup (config : Config) :
    (config.crateUniverse.map (·.name)).Nodup := by
  have hrun : ∀ (cs out : List CrateConfig), (out.map (·.name)).Nodup →
      ((cs.foldl addCrate out).map (·.name)).Nodup := by
    intro cs
    induction cs with
    | nil => exact fun _ h => h
    | cons c cs ih => exact fun out h => ih _ (addCrate_nodup c h)
  exact hrun _ _ config.distinct

theorem names_publishable (disk : Disk) (allCrates : List CrateConfig)
    (selection : Option (List String)) (cfgs : List (String × CargoPublishConfig)) :
    (Kahn.names (publishable disk allCrates selection cfgs)).Sublist (allCrates.map (·.name)) := by
  simp only [Kahn.names, publishable, List.map_map]
  exact List.filter_sublist.map _

theorem zipIdx_position {order : List String} (hn : order.Nodup) {name : String}
    (h : name ∈ order) : position order name = some (order.idxOf name) := by
  apply Kahn.collect_of_mem
  · simpa using hn
  · rw [List.mem_zipIdx_iff_getElem?]
    exact List.getElem?_eq_some_iff.mpr
      ⟨List.idxOf_lt_length_of_mem h, List.getElem_idxOf _⟩

theorem position_eq_none {order : List String} {name : String} (h : name ∉ order) :
    position order name = none := by
  cases hp : position order name with
  | none => rfl
  | some i =>
    have hm := List.mem_map_of_mem (f := Prod.fst) (Kahn.mem_of_collect hp)
    rw [List.zipIdx_map_fst] at hm
    exact absurd hm h

theorem validateDep_ok_iff {order : List String} (hn : order.Nodup) {name dep : String}
    {here : Nat} : validateDep order name here dep = .ok () ↔
      (dep ∈ order → order.idxOf dep < here) := by
  unfold validateDep
  by_cases h : dep ∈ order
  · rw [zipIdx_position hn h]
    simp only [h, forall_const]
    split
    · simp
      omega
    · simp
      omega
  · simp [position_eq_none h, h]

/-- The validated order puts every co-published dependency before its dependents. -/
theorem validatePublishOrder_ok_iff {order : List String} (hn : order.Nodup)
    (graph : Kahn.Graph String) : validatePublishOrder order graph = .ok () ↔
      ∀ e ∈ graph, e.1 ∈ order → ∀ dep ∈ e.2, dep ∈ order →
        order.idxOf dep < order.idxOf e.1 := by
  rw [validatePublishOrder, Loop.forM_ok_iff]
  refine forall₂_congr fun e _ => ?_
  by_cases h : e.1 ∈ order
  · rw [zipIdx_position hn h]
    simp only [h, forall_const, Loop.forM_ok_iff, validateDep_ok_iff hn]
  · simp [position_eq_none h, h]

/-- What a resolved plan is made of. -/
theorem cargoPublishPlan_spec {ctx : PlanContext} {config : Config} {selected : List String}
    {plan : CargoPublishPlan} (h : cargoPublishPlan ctx config selected = .ok plan) :
    plan.allCrates = config.crateUniverse ∧
      cargoConfigs ctx.templates config.crateUniverse = .ok plan.cfgs ∧
      plan.deps = publishable ctx.disk plan.allCrates
        (expandedSelection plan.allCrates selected) plan.cfgs ∧
      plan.order = topologicalSort plan.deps ∧
      validatePublishOrder plan.order plan.deps = .ok () := by
  simp only [cargoPublishPlan] at h
  cases hc : cargoConfigs ctx.templates config.crateUniverse with
  | error e => simp [hc, bind, Except.bind] at h
  | ok cfgs =>
    rw [hc] at h
    simp only [bind, Except.bind] at h
    split at h
    · cases h
    · next hv =>
      cases h
      exact ⟨rfl, rfl, rfl, rfl, hv⟩

end Anodizer
