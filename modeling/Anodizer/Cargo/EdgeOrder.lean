import Anodizer.Cargo.Plan

/-! # The order and the completeness guard

The completeness guard lets a dependency pass when it is published in the same run and
leaves its place in the order to the derived `depends_on`. A dependency that the
derivation does not see is ordered by the chains of the crates alone.
-/

namespace Anodizer

inductive DepIndexState
  | present
  | absent
  | unknown
  deriving DecidableEq, Repr

def cratePath (allCrates : List CrateConfig) (name : String) : String :=
  (Kahn.collect (allCrates.map fun c => (c.name, c.path)) name).getD "."

/-- The non-dev workspace dependencies the guard finds in the manifest of a crate. -/
def requiredDeps (disk : Disk) (allCrates : List CrateConfig) (name : String) :
    List WorkspaceDepEntry :=
  publishRequiredWorkspaceDeps disk (cratePath allCrates name) (allCrates.map (·.name))

def aliasNote (dep : WorkspaceDepEntry) : String :=
  if dep.key ≠ dep.package then s!" (declared as '{dep.key}' via package rename)" else ""

def depMissing (publishing : String) (dep : WorkspaceDepEntry) (probeVersion : String) :
    String :=
  s!"publish dep-guard: crate '{publishing}' depends on workspace crate " ++
    s!"'{dep.package}'{aliasNote dep} (version {probeVersion}) which is neither in the cargo publish " ++
    s!"set nor already on crates.io; `cargo publish -p {publishing}` would fail with `no matching " ++
    s!"package named '{dep.package}' found` because cargo strips path deps and resolves the version " ++
    "against the crates.io index.\nRemediation:\n" ++
    s!"1. Add '{dep.package}' to the crates: publish set (give it a publish.cargo block).\n" ++
    s!"2. If '{dep.package}' was intentionally excluded via `skip: true` or an `if:` condition, " ++
    "verify that the required version was published in a prior release and is live on " ++
    "crates.io.\n" ++
    "3. Make the dependency non-publish (feature-gate it or use an external crate)."

/-- The version to look for: the declared one, else the one the dependent is published at. -/
def probeVersion (versions : List (String × String)) (publishing : String)
    (dep : WorkspaceDepEntry) : String :=
  if dep.version = "" then (Kahn.collect versions publishing).getD "" else dep.version

def checkDep (order : List String) (versions : List (String × String))
    (indexProbe : String → String → DepIndexState) (publishing : String)
    (dep : WorkspaceDepEntry) : Except String Unit :=
  if dep.package ∈ order then .ok ()
  else
    let version := probeVersion versions publishing dep
    if version = "" then .ok ()
    else
      match indexProbe dep.package version with
      | .present => .ok ()
      | .absent => .error (depMissing publishing dep version)
      | .unknown => .ok ()

def checkPublishSetCompleteness (disk : Disk) (order : List String)
    (allCrates : List CrateConfig) (versions : List (String × String))
    (indexProbe : String → String → DepIndexState) : Except String Unit :=
  order.forM fun publishing =>
    (requiredDeps disk allCrates publishing).forM (checkDep order versions indexProbe publishing)

/-- The guard passes when no dependency is both outside the set and known to be absent. -/
theorem checkPublishSetCompleteness_ok_iff {disk : Disk} {order : List String}
    {allCrates : List CrateConfig} {versions : List (String × String)}
    {indexProbe : String → String → DepIndexState} :
    checkPublishSetCompleteness disk order allCrates versions indexProbe = .ok () ↔
      ∀ publishing ∈ order, ∀ dep ∈ requiredDeps disk allCrates publishing,
        dep.package ∈ order ∨ probeVersion versions publishing dep = "" ∨
          indexProbe dep.package (probeVersion versions publishing dep) ≠ .absent := by
  simp only [checkPublishSetCompleteness, Loop.forM_ok_iff]
  refine forall₂_congr fun publishing _ => forall₂_congr fun dep _ => ?_
  simp only [checkDep]
  split
  · simp [*]
  · next hin =>
    split
    · simp [*]
    · next hv =>
      split <;> simp [*]

/-! ### The edges the order honours -/

/-- Every co-published dependency the guard finds is scheduled before its dependent. -/
def HonoursEdges (disk : Disk) (plan : CargoPublishPlan) : Prop :=
  ∀ c ∈ plan.order, ∀ dep ∈ requiredDeps disk plan.allCrates c, dep.package ∈ plan.order →
    plan.order.idxOf dep.package < plan.order.idxOf c

/-- The graph a run would order, from its configuration and the manifests. -/
def publishGraph (ctx : PlanContext) (config : Config) (selected : List String) :
    Kahn.Graph String :=
  match cargoConfigs ctx.templates config.crateUniverse with
  | .error _ => []
  | .ok cfgs =>
    publishable ctx.disk config.crateUniverse (expandedSelection config.crateUniverse selected)
      cfgs

/-- Every co-published dependency the guard finds has a smaller chain of derived
dependencies than its dependent. -/
def ChainsHonourEdges (ctx : PlanContext) (config : Config) (selected : List String) : Prop :=
  ∀ c ∈ Kahn.names (publishGraph ctx config selected),
    ∀ dep ∈ requiredDeps ctx.disk config.crateUniverse c,
      dep.package ∈ Kahn.names (publishGraph ctx config selected) →
        Kahn.Before (publishGraph ctx config selected) dep.package c

variable {ctx : PlanContext} {config : Config} {selected : List String}
  {plan : CargoPublishPlan}

theorem publishGraph_nodup (ctx : PlanContext) (config : Config) (selected : List String) :
    (Kahn.names (publishGraph ctx config selected)).Nodup := by
  unfold publishGraph
  split
  · exact List.nodup_nil
  · exact (names_publishable ..).nodup (crateUniverse_nodup config)

theorem plan_graph (h : cargoPublishPlan ctx config selected = .ok plan) :
    plan.allCrates = config.crateUniverse ∧ plan.deps = publishGraph ctx config selected ∧
      plan.order = Kahn.sort (publishGraph ctx config selected) ∧
      Kahn.Respects (publishGraph ctx config selected) plan.order := by
  obtain ⟨hall, hcfgs, hdeps, horder, hvalid⟩ := cargoPublishPlan_spec h
  have hgraph : plan.deps = publishGraph ctx config selected := by
    rw [publishGraph, hcfgs, hdeps, hall]
  rw [hgraph] at horder hvalid
  refine ⟨hall, hgraph, horder, ?_⟩
  have hn := publishGraph_nodup ctx config selected
  have hmem : ∀ {n}, n ∈ plan.order ↔ n ∈ Kahn.names (publishGraph ctx config selected) := by
    intro n
    rw [horder]
    exact Kahn.mem_sort hn
  have hno : plan.order.Nodup := by
    rw [horder]
    exact (Kahn.sort_perm hn).nodup_iff.mpr hn
  intro n hname d hd
  obtain ⟨ds, hds⟩ := Kahn.exists_entry hname
  have hdin : d ∈ ds := by
    rw [Kahn.depsOf, Kahn.collect_of_mem hn hds] at hd
    exact (List.mem_filter.mp hd).1
  exact (validatePublishOrder_ok_iff hno _).mp hvalid _ hds (hmem.mpr hname) d hdin
    (hmem.mpr (Kahn.depsOf_subset hd))

theorem honoursEdges_iff (h : cargoPublishPlan ctx config selected = .ok plan) :
    HonoursEdges ctx.disk plan ↔ ChainsHonourEdges ctx config selected := by
  obtain ⟨hall, -, horder, hr⟩ := plan_graph h
  have hn := publishGraph_nodup ctx config selected
  simp only [HonoursEdges, ChainsHonourEdges, hall]
  rw [horder] at hr ⊢
  simp only [Kahn.mem_sort hn]
  constructor
  · intro hhon c hc dep hdep hin
    exact (Kahn.idxOf_lt_iff_before hn hr hin hc).mp (hhon c hc dep hdep hin)
  · intro hchain c hc dep hdep hin
    exact (Kahn.idxOf_lt_iff_before hn hr hin hc).mpr (hchain c hc dep hdep hin)

/-- With `depends_on` derived from the manifests, the validated order honours the guard's
edges exactly when the chains of the derived dependencies do. -/
theorem publish_order_honours_iff (ctx : PlanContext) (config : Config)
    (memberNames selected : List String) {plan : CargoPublishPlan}
    (h : cargoPublishPlan ctx (config.populateDerivedDependsOn ctx.disk memberNames) selected =
      .ok plan) :
    HonoursEdges ctx.disk plan ↔
      ChainsHonourEdges ctx (config.populateDerivedDependsOn ctx.disk memberNames) selected :=
  honoursEdges_iff h

/-! ### Plainly declared dependencies -/

theorem addCrate_map {f : CrateConfig → CrateConfig} (hf : ∀ c, (f c).name = c.name)
    (out : List CrateConfig) (c : CrateConfig) :
    addCrate (out.map f) (f c) = (addCrate out c).map f := by
  simp only [addCrate, List.any_map, Function.comp_def, hf]
  split
  · rfl
  · rw [List.map_append, List.map_singleton]

theorem crateUniverse_map {f : CrateConfig → CrateConfig} (hf : ∀ c, (f c).name = c.name)
    (cs out : List CrateConfig) :
    (cs.map f).foldl addCrate (out.map f) = (cs.foldl addCrate out).map f := by
  induction cs generalizing out with
  | nil => rfl
  | cons c cs ih => rw [List.map_cons, List.foldl_cons, addCrate_map hf, ih, List.foldl_cons]

/-- What the derivation at load time records for each crate that omits `depends_on`. -/
def derivedDependsOn (disk : Disk) (memberNames : List String) (config : Config) :
    List (String × List String) :=
  (config.crateUniverse.filter (·.dependsOn.isNone)).map fun c =>
    (c.name, deriveDependsOnFromCargoToml (disk.manifest c.path) memberNames)

theorem crateUniverse_populate {disk : Disk} {memberNames : List String}
    (hm : memberNames ≠ []) (config : Config) :
    (config.populateDerivedDependsOn disk memberNames).crateUniverse =
      config.crateUniverse.map (fillDependsOn (derivedDependsOn disk memberNames config)) := by
  rw [Config.populateDerivedDependsOn, if_neg hm]
  simp only [Config.crateUniverse, ← List.map_flatten]
  exact crateUniverse_map (fillDependsOn_name _) _ _

theorem fillDependsOn_eq {disk : Disk} {memberNames : List String} {config : Config}
    {c : CrateConfig} (hc : c ∈ config.crateUniverse) (hnone : c.dependsOn = none) :
    fillDependsOn (derivedDependsOn disk memberNames config) c =
      { c with
        dependsOn :=
          some (deriveDependsOnFromCargoToml (disk.manifest c.path) memberNames) } := by
  unfold fillDependsOn
  rw [hnone]
  simp only
  have hn : ((derivedDependsOn disk memberNames config).map Prod.fst).Nodup := by
    rw [derivedDependsOn, List.map_map]
    exact (crateUniverse_nodup config).sublist (List.filter_sublist.map _)
  have hmem : (c.name, deriveDependsOnFromCargoToml (disk.manifest c.path) memberNames) ∈
      derivedDependsOn disk memberNames config := by
    apply List.mem_map_of_mem (f := fun c : CrateConfig =>
      (c.name, deriveDependsOnFromCargoToml (disk.manifest c.path) memberNames))
    simp [hc, hnone]
  rw [Kahn.collect_of_mem hn hmem]

/-- A workspace whose crates leave `depends_on` to the derivation and declare each other plainly. -/
structure PlainWorkspace (disk : Disk) (memberNames : List String) (config : Config) : Prop where
  omitted : ∀ c ∈ config.crateUniverse, c.dependsOn = none
  members : ∀ c ∈ config.crateUniverse, c.name ∈ memberNames
  named : ∀ c ∈ config.crateUniverse, ∃ doc,
    disk.manifest c.path = some doc ∧ packageName doc = some c.name
  plain : ∀ c ∈ config.crateUniverse, ∀ doc, disk.manifest c.path = some doc →
    ∀ dep ∈ publishRequiredWorkspaceDeps disk c.path (config.crateUniverse.map (·.name)),
      dep.package ≠ c.name ∧
        DeclaredPlainly (workspaceDependencyEntries (disk.workspaceRoot c.path)) doc dep.package

theorem cratePath_of_mem {config : Config} {c : CrateConfig} (hc : c ∈ config.crateUniverse) :
    cratePath config.crateUniverse c.name = c.path := by
  have hmem := List.mem_map_of_mem (f := fun c : CrateConfig => (c.name, c.path)) hc
  rw [cratePath, Kahn.collect_of_mem _ hmem]
  · rfl
  · simpa [Function.comp_def] using crateUniverse_nodup config

theorem mem_publishGraph {c : String}
    (h : c ∈ Kahn.names (publishGraph ctx config selected)) :
    ∃ k ∈ config.crateUniverse, k.name = c ∧
      (c, publishDeps ctx.disk config.crateUniverse k) ∈ publishGraph ctx config selected := by
  obtain ⟨e, he, rfl⟩ := List.mem_map.mp h
  unfold publishGraph at he ⊢
  split at he
  · simp at he
  · have hg := he
    obtain ⟨k, hk, rfl⟩ := List.mem_map.mp he
    exact ⟨k, List.mem_of_mem_filter hk, rfl, hg⟩

/-- Where every workspace dependency is declared plainly, the order honours the guard's edges. -/
theorem plain_edges_honoured {memberNames : List String}
    (hw : PlainWorkspace ctx.disk memberNames config)
    (h : cargoPublishPlan ctx (config.populateDerivedDependsOn ctx.disk memberNames) selected =
      .ok plan) :
    HonoursEdges ctx.disk plan := by
  rw [honoursEdges_iff h]
  obtain ⟨-, -, horder, hr⟩ := plan_graph h
  rw [horder] at hr
  intro c hc dep hdep hin
  obtain ⟨k, hk, rfl, hg⟩ := mem_publishGraph hc
  have hn := publishGraph_nodup ctx (config.populateDerivedDependsOn ctx.disk memberNames) selected
  have hm : memberNames ≠ [] := by
    rintro rfl
    rw [Config.populateDerivedDependsOn, if_pos rfl] at hk
    simpa using hw.members k hk
  have huniv := @crateUniverse_populate ctx.disk _ hm config
  have hk' := hk
  rw [huniv] at hk'
  obtain ⟨k₀, hk₀, rfl⟩ := List.mem_map.mp hk'
  rw [fillDependsOn_eq hk₀ (hw.omitted k₀ hk₀)] at hk hg hdep hc ⊢
  rw [requiredDeps, cratePath_of_mem hk, huniv] at hdep
  simp only [List.map_map, Function.comp_def, fillDependsOn_name] at hdep
  obtain ⟨doc, hdoc, hname⟩ := hw.named k₀ hk₀
  obtain ⟨hself, hplain⟩ := hw.plain k₀ hk₀ doc hdoc dep hdep
  have hmember : dep.package ∈ memberNames := by
    obtain ⟨k₁, hk₁, heq, -⟩ := mem_publishGraph hin
    rw [huniv] at hk₁
    obtain ⟨k₂, hk₂, rfl⟩ := List.mem_map.mp hk₁
    rw [fillDependsOn_name] at heq
    exact heq ▸ hw.members k₂ hk₂
  have hderived := derived_of_required hdoc hdep hplain hmember (by simpa [hname] using hself.symm)
  apply Kahn.before_of_dep hn hr hc
  rw [Kahn.depsOf, Kahn.collect_of_mem hn hg]
  simp only [publishDeps, hdoc, Option.getD_some, List.mem_filter, decide_eq_true_eq]
  exact ⟨hderived, hin⟩

/-! ### A renamed dependency -/

/-- Two crates, the first of which declares the second as `b` with the rename given. -/
def renameDisk (entry : List (String × Toml)) : Disk where
  manifest := fun path =>
    [("crates/a-app", Toml.table [
        ("package", .table [("name", .string "a-app"), ("version", .string "1.0.0")]),
        ("dependencies", .table entry)]),
      ("crates/b-lib", Toml.table [
        ("package", .table [("name", .string "b-lib"), ("version", .string "1.0.0")])])].lookup path
  workspaceRoot := fun _ => none

def renameContext (entry : List (String × Toml)) : PlanContext where
  templates := { skip := fun _ => .ok false, ifCondition := fun _ => .ok true }
  disk := renameDisk entry
  plannedCrateVersions := fun _ => none
  readCargoTomlVersion := fun _ => some "1.0.0"

def renameConfig : Config where
  crates := [
    { name := "a-app", path := "crates/a-app", cargo := some {} },
    { name := "b-lib", path := "crates/b-lib", cargo := some {} }]
  distinct := by decide

/-- `b = { package = "b-lib", path = "../b-lib", version = "1.0.0" }` -/
def renamedEntry : List (String × Toml) :=
  [("b", .table [("package", .string "b-lib"), ("path", .string "../b-lib"),
    ("version", .string "1.0.0")])]

/-- `b-lib = { path = "../b-lib", version = "1.0.0" }` -/
def plainEntry : List (String × Toml) :=
  [("b-lib", .table [("path", .string "../b-lib"), ("version", .string "1.0.0")])]

def renamePlan (entry : List (String × Toml)) : Except String CargoPublishPlan :=
  cargoPublishPlan (renameContext entry)
    (renameConfig.populateDerivedDependsOn (renameDisk entry) ["a-app", "b-lib"]) []

example : (renamePlan renamedEntry).map (·.order) = .ok ["a-app", "b-lib"] := by decide

example : (renamePlan plainEntry).map (·.order) = .ok ["b-lib", "a-app"] := by decide

/-- The guard passes and the renamed dependency is still scheduled after its dependent. -/
theorem renamed_dependency_late :
    ¬ ∀ (ctx : PlanContext) (config : Config) (memberNames selected : List String)
        (plan : CargoPublishPlan) (indexProbe : String → String → DepIndexState),
      cargoPublishPlan ctx (config.populateDerivedDependsOn ctx.disk memberNames) selected =
        .ok plan →
      checkPublishSetCompleteness ctx.disk plan.order plan.allCrates plan.versions indexProbe =
        .ok () →
      HonoursEdges ctx.disk plan := by
  intro h
  have hlate : ∃ plan, renamePlan renamedEntry = .ok plan ∧
      checkPublishSetCompleteness (renameDisk renamedEntry) plan.order plan.allCrates
        plan.versions (fun _ _ => .absent) = .ok () ∧
      (∃ dep ∈ requiredDeps (renameDisk renamedEntry) plan.allCrates "a-app",
        dep.package ∈ plan.order ∧ ¬ plan.order.idxOf dep.package < plan.order.idxOf "a-app") ∧
      "a-app" ∈ plan.order := by
    refine ⟨_, rfl, ?_⟩
    decide
  obtain ⟨plan, hplan, hguard, ⟨dep, hdep, hin, hnot⟩, hmem⟩ := hlate
  exact hnot (h (renameContext renamedEntry) renameConfig ["a-app", "b-lib"] [] plan
    (fun _ _ => .absent) hplan hguard "a-app" hmem dep hdep hin)

theorem publish_order_honours_plain : ∃ plan, renamePlan plainEntry = .ok plan ∧
    (HonoursEdges (renameDisk plainEntry) plan ↔
      ChainsHonourEdges (renameContext plainEntry)
        (renameConfig.populateDerivedDependsOn (renameDisk plainEntry) ["a-app", "b-lib"]) []) :=
  ⟨_, rfl, publish_order_honours_iff (renameContext plainEntry) renameConfig ["a-app", "b-lib"]
    [] rfl⟩

end Anodizer
