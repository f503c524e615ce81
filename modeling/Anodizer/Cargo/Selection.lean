import Anodizer.Cargo.Plan
import Mathlib.Logic.Relation

/-! # What a selection expands to

The worklist may hold a name many times and names no crate has. What it collects is
closed under the configured dependencies and reached from the seed by them.
-/

namespace Anodizer

/-- A configured crate lists another configured crate in its `depends_on`. -/
def Follows (allCrates : List CrateConfig) (name dep : String) : Prop :=
  ∃ c ∈ allCrates, c.name = name ∧ dep ∈ c.dependsOn.getD [] ∧ dep ∈ allCrates.map (·.name)

section Worklist

variable (nameToDeps : List (String × List String))

/-- A name in the map leads to the names in the map that it lists. -/
def Leads (name dep : String) : Prop :=
  ∃ deps, Kahn.collect nameToDeps name = some deps ∧ dep ∈ deps ∧
    (Kahn.collect nameToDeps dep).isSome

/-- A known name that some known name on the stack leads to. -/
def FromStack (stack : List String) (n : String) : Prop :=
  ∃ s ∈ stack, (Kahn.collect nameToDeps s).isSome ∧ Relation.ReflTransGen (Leads nameToDeps) s n

variable {nameToDeps} {stack out : List String}

theorem FromStack.cons {name n : String} (h : FromStack nameToDeps stack n) :
    FromStack nameToDeps (name :: stack) n := by
  obtain ⟨s, hs, hknown, hpath⟩ := h
  exact ⟨s, List.mem_cons_of_mem _ hs, hknown, hpath⟩

/-- What the dependencies of a popped name lead to, the name leads to. -/
theorem FromStack.of_pushed {name n : String} {deps : List String}
    (hdeps : Kahn.collect nameToDeps name = some deps)
    (h : FromStack nameToDeps ((deps.filter (· ∉ out ++ [name])).reverse ++ stack) n) :
    FromStack nameToDeps (name :: stack) n := by
  obtain ⟨s, hs, hknown, hpath⟩ := h
  rcases List.mem_append.mp hs with hpushed | hstack
  · rw [List.mem_reverse, List.mem_filter] at hpushed
    refine ⟨name, by simp, by simp [hdeps], ?_⟩
    exact .head ⟨deps, hdeps, hpushed.1, hknown⟩ hpath
  · exact ⟨s, List.mem_cons_of_mem _ hstack, hknown, hpath⟩

/-- What is collected is new only where the stack leads. -/
theorem expandLoop_sound {n : String} (h : n ∈ expandLoop nameToDeps stack out) :
    n ∈ out ∨ FromStack nameToDeps stack n := by
  fun_induction expandLoop nameToDeps stack out with
  | case1 out => exact .inl h
  | case2 out name stack hnone ih => exact (ih h).imp_right .cons
  | case3 out name stack deps hdeps hin ih => exact (ih h).imp_right .cons
  | case4 out name stack deps hdeps hin ih =>
    rcases ih h with hout | hfrom
    · rcases List.mem_append.mp hout with hold | hnew
      · exact .inl hold
      · right
        exact ⟨name, by simp, by simp [hdeps], by rw [List.mem_singleton.mp hnew]⟩
    · exact .inr (hfrom.of_pushed hdeps)

theorem out_subset_expandLoop {n : String} (h : n ∈ out) : n ∈ expandLoop nameToDeps stack out := by
  fun_induction expandLoop nameToDeps stack out with
  | case1 out => exact h
  | case2 out name stack hnone ih => exact ih h
  | case3 out name stack deps hdeps hin ih => exact ih h
  | case4 out name stack deps hdeps hin ih => exact ih (List.mem_append_left _ h)

/-- Every known name on the stack is collected. -/
theorem stack_subset_expandLoop {n : String} (h : n ∈ stack)
    (hknown : (Kahn.collect nameToDeps n).isSome) : n ∈ expandLoop nameToDeps stack out := by
  fun_induction expandLoop nameToDeps stack out with
  | case1 out => simp at h
  | case2 out name stack hnone ih =>
    rcases List.mem_cons.mp h with rfl | h
    · simp [hnone] at hknown
    · exact ih h
  | case3 out name stack deps hdeps hin ih =>
    rcases List.mem_cons.mp h with rfl | h
    · exact out_subset_expandLoop hin
    · exact ih h
  | case4 out name stack deps hdeps hin ih =>
    rcases List.mem_cons.mp h with rfl | h
    · exact out_subset_expandLoop (by simp)
    · exact ih (List.mem_append_right _ h)

/-- What a collected name leads to is collected or still on the stack. -/
def Pending (nameToDeps : List (String × List String)) (stack out : List String) : Prop :=
  ∀ name ∈ out, ∀ dep, Leads nameToDeps name dep → dep ∈ out ∨ dep ∈ stack

theorem Pending.pop {name : String} (hp : Pending nameToDeps (name :: stack) out)
    (h : Kahn.collect nameToDeps name = none ∨ name ∈ out) : Pending nameToDeps stack out := by
  intro m hm dep hdep
  rcases hp m hm dep hdep with hout | hstack
  · exact .inl hout
  · rcases List.mem_cons.mp hstack with rfl | hstack
    · obtain ⟨-, -, -, hknown⟩ := hdep
      rcases h with hnone | hin
      · simp [hnone] at hknown
      · exact .inl hin
    · exact .inr hstack

theorem Pending.push {name : String} {deps : List String}
    (hp : Pending nameToDeps (name :: stack) out)
    (hdeps : Kahn.collect nameToDeps name = some deps) :
    Pending nameToDeps ((deps.filter (· ∉ out ++ [name])).reverse ++ stack) (out ++ [name]) := by
  intro m hm dep hdep
  rw [or_iff_not_imp_left]
  intro hnew
  rw [List.mem_append, List.mem_reverse, List.mem_filter]
  rcases List.mem_append.mp hm with hold | hname
  · right
    rcases hp m hold dep hdep with hout | hstack
    · exact absurd (List.mem_append_left _ hout) hnew
    · rcases List.mem_cons.mp hstack with rfl | hstack
      · exact absurd (by simp) hnew
      · exact hstack
  · left
    rw [List.mem_singleton.mp hname] at hdep
    obtain ⟨deps', hdeps', hin, -⟩ := hdep
    rw [hdeps] at hdeps'
    cases hdeps'
    exact ⟨hin, by simpa using hnew⟩

/-- The collected names are closed under the edges. -/
theorem expandLoop_closed (hp : Pending nameToDeps stack out) {name dep : String}
    (h : name ∈ expandLoop nameToDeps stack out) (hdep : Leads nameToDeps name dep) :
    dep ∈ expandLoop nameToDeps stack out := by
  fun_induction expandLoop nameToDeps stack out with
  | case1 out => simpa using hp name h dep hdep
  | case2 out popped stack hnone ih => exact ih (hp.pop (.inl hnone)) h
  | case3 out popped stack deps hdeps hin ih => exact ih (hp.pop (.inr hin)) h
  | case4 out popped stack deps hdeps hin ih => exact ih (hp.push hdeps) h

theorem expandLoop_nodup (hn : out.Nodup) : (expandLoop nameToDeps stack out).Nodup := by
  fun_induction expandLoop nameToDeps stack out with
  | case1 out => exact hn
  | case2 out name stack hnone ih => exact ih hn
  | case3 out name stack deps hdeps hin ih => exact ih hn
  | case4 out name stack deps hdeps hin ih =>
    apply ih
    rw [← List.concat_eq_append]
    exact hn.concat hin

/-- From an empty result the worklist collects exactly what the stack leads to. -/
theorem mem_expandLoop {n : String} :
    n ∈ expandLoop nameToDeps stack [] ↔ FromStack nameToDeps stack n := by
  constructor
  · intro h
    exact (expandLoop_sound h).resolve_left (by simp)
  · rintro ⟨s, hs, hknown, hpath⟩
    induction hpath with
    | refl => exact stack_subset_expandLoop hs hknown
    | tail _ hedge ih => exact expandLoop_closed (by simp [Pending]) ih hedge

end Worklist

variable {allCrates : List CrateConfig}

theorem collect_dependsOn (hn : (allCrates.map (·.name)).Nodup) {name : String}
    {deps : List String} :
    Kahn.collect (allCrates.map fun c => (c.name, c.dependsOn.getD [])) name = some deps ↔
      ∃ c ∈ allCrates, c.name = name ∧ c.dependsOn.getD [] = deps := by
  constructor
  · intro h
    simpa using Kahn.mem_of_collect h
  · rintro ⟨c, hc, rfl, rfl⟩
    apply Kahn.collect_of_mem
    · simpa [Function.comp_def] using hn
    · exact List.mem_map.mpr ⟨c, hc, rfl⟩

theorem collect_isSome (hn : (allCrates.map (·.name)).Nodup) {name : String} :
    (Kahn.collect (allCrates.map fun c => (c.name, c.dependsOn.getD [])) name).isSome ↔
      name ∈ allCrates.map (·.name) := by
  simp only [Option.isSome_iff_exists, collect_dependsOn hn, List.mem_map]
  constructor
  · rintro ⟨_, c, hc, rfl, rfl⟩
    exact ⟨c, hc, rfl⟩
  · rintro ⟨c, hc, rfl⟩
    exact ⟨_, c, hc, rfl, rfl⟩

theorem leads_iff_follows (hn : (allCrates.map (·.name)).Nodup) :
    Leads (allCrates.map fun c => (c.name, c.dependsOn.getD [])) = Follows allCrates := by
  ext name dep
  simp only [Leads, Follows, collect_isSome hn, collect_dependsOn hn]
  constructor
  · rintro ⟨_, ⟨c, hc, hname, rfl⟩, hdep, hknown⟩
    exact ⟨c, hc, hname, hdep, hknown⟩
  · rintro ⟨c, hc, hname, hdep, hknown⟩
    exact ⟨_, ⟨c, hc, hname, rfl⟩, hdep, hknown⟩

theorem mem_expandWithTransitiveDeps (hn : (allCrates.map (·.name)).Nodup) {seed : List String}
    {n : String} : n ∈ expandWithTransitiveDeps allCrates seed ↔
      ∃ s ∈ seed, s ∈ allCrates.map (·.name) ∧
        Relation.ReflTransGen (Follows allCrates) s n := by
  rw [expandWithTransitiveDeps, mem_expandLoop]
  simp only [FromStack, collect_isSome hn, leads_iff_follows hn, List.mem_reverse]

/-- With a selection the plan orders the eligible crates among what it reaches. -/
theorem mem_publishable {disk : Disk} {config : Config} {selected : List String}
    (hsel : selected ≠ []) {cfgs : List (String × CargoPublishConfig)} {n : String} :
    n ∈ Kahn.names (publishable disk config.crateUniverse
        (expandedSelection config.crateUniverse selected) cfgs) ↔
      n ∈ config.crateUniverse.map (·.name) ∧ (Kahn.collect cfgs n).isSome ∧
        ∃ s ∈ selected, s ∈ config.crateUniverse.map (·.name) ∧
          Relation.ReflTransGen (Follows config.crateUniverse) s n := by
  have hexp : expandedSelection config.crateUniverse selected =
      some (expandWithTransitiveDeps config.crateUniverse selected) := by
    rw [expandedSelection, if_neg (by simpa using hsel)]
  rw [← mem_expandWithTransitiveDeps (crateUniverse_nodup config), hexp]
  simp only [Kahn.names, publishable, List.map_map, List.mem_map, List.mem_filter,
    Bool.and_eq_true, decide_eq_true_eq, Function.comp_apply]
  constructor
  · rintro ⟨c, ⟨hc, hin, hcfg⟩, rfl⟩
    exact ⟨⟨c, hc, rfl⟩, hcfg, hin⟩
  · rintro ⟨⟨c, hc, rfl⟩, hcfg, hin⟩
    exact ⟨c, ⟨hc, hin, hcfg⟩, rfl⟩

/-- The expansion lists once every configured crate that a configured seed reaches through
configured crates, and nothing else. -/
theorem expand_exact (allCrates : List CrateConfig) (hn : (allCrates.map (·.name)).Nodup)
    (seed : List String) :
    (expandWithTransitiveDeps allCrates seed).Nodup ∧
      ∀ n, n ∈ expandWithTransitiveDeps allCrates seed ↔
        ∃ s ∈ seed, s ∈ allCrates.map (·.name) ∧
          Relation.ReflTransGen (Follows allCrates) s n := by
  constructor
  · exact expandLoop_nodup List.nodup_nil
  · exact fun n => mem_expandWithTransitiveDeps hn

/-- Two crates that depend on each other and on a crate outside the configuration. -/
theorem expand_exact_cycle :
    "b" ∈ expandWithTransitiveDeps
        [{ name := "a", path := "a", dependsOn := some ["serde", "b", "b"] },
          { name := "b", path := "b", dependsOn := some ["a"] }] ["ghost", "a", "a"] ↔
      ∃ s ∈ ["ghost", "a", "a"], s ∈ ["a", "b"] ∧
        Relation.ReflTransGen (Follows
          [{ name := "a", path := "a", dependsOn := some ["serde", "b", "b"] },
            { name := "b", path := "b", dependsOn := some ["a"] }]) s "b" :=
  (expand_exact
    [{ name := "a", path := "a", dependsOn := some ["serde", "b", "b"] },
      { name := "b", path := "b", dependsOn := some ["a"] }] (by decide)
    ["ghost", "a", "a"]).2 "b"

end Anodizer
