import Anodizer.DefaultsMerge.Folds

/-! # Folding the defaults into a whole configuration

What a fold keeps of every crate, and when a second fold of the configuration
changes nothing more.
-/

namespace Anodizer.DefaultsMerge

open Template (Text)
open Overlay (Doc)

variable {accepts : BlockKind → Json → Bool} {d : Defaults} {c c' : CrateConfig} {config : Config}

/-! ### What is said of a crate -/

def ArchivesConfig.entries : ArchivesConfig → Option (List Json)
  | .disabled => none
  | .configs list => some list

namespace CrateConfig

def publisher (c : CrateConfig) (p : Publisher) : Option Json := c.publish.bind (·.publishers p)

def onError (c : CrateConfig) : Option (List Json) := c.publish.bind (·.onError)

def onRollback (c : CrateConfig) : Option (List Json) := c.publish.bind (·.onRollback)

end CrateConfig

/-- The values that the crate sets outside its tag template are set after the fold. -/
structure Wins (c c' : CrateConfig) : Prop where
  cross : ∀ v ∈ c.cross, c'.cross = some v
  versionFiles : ∀ v ∈ c.versionFiles, c'.versionFiles = some v
  checksum : KeptBlock c.checksum c'.checksum
  disabled : c.archives = .disabled → c'.archives = .disabled
  archives : KeptList c.archives.entries c'.archives.entries
  lists : ∀ f, KeptList (c.lists f) (c'.lists f)
  builds : KeptList c.builds c'.builds
  publishers : ∀ p, KeptBlock (c.publisher p) (c'.publisher p)
  onError : KeptList c.onError c'.onError
  onRollback : KeptList c.onRollback c'.onRollback

/-- A skipped entry keeps the entry of its identity from being appended. -/
def NoSecond (idf : Json → Option Text) (default : Option Json) (l l' : Option (List Json)) : Prop :=
  ∀ es ∈ l, ∀ d ∈ default, (∃ e ∈ es, isSkipped e ∧ identityMatches (idf e) (idf d)) →
    (l'.getD []).length = es.length

/-- A skipped block or entry takes nothing, builds apart. -/
structure Suppressed (d : Defaults) (c c' : CrateConfig) : Prop where
  checksum : UntouchedBlock c.checksum c'.checksum
  publishers : ∀ p, UntouchedBlock (c.publisher p) (c'.publisher p)
  archives : UntouchedList c.archives.entries c'.archives.entries
  lists : ∀ f, UntouchedList (c.lists f) (c'.lists f)
  oneArchive : NoSecond archiveIdentity d.archives c.archives.entries c'.archives.entries
  oneEntry : ∀ f, NoSecond (identity f) (d.lists f) (c.lists f) (c'.lists f)

/-- The lists that are merged grow by one entry at most. -/
structure Short (c c' : CrateConfig) : Prop where
  archives : AtMostOneMore c.archives.entries c'.archives.entries
  lists : ∀ f, AtMostOneMore (c.lists f) (c'.lists f)
  builds : AtMostOneMore c.builds c'.builds

def Config.allCrates (config : Config) : List CrateConfig :=
  config.crates ++ (config.workspaces.getD []).flatMap (·.crates)

/-- The fold as it is described: a second one changes nothing, the crate wins, a skipped block or
entry takes nothing, and every list of a crate grows by one entry at most. -/
structure FoldsDefaults (accepts : BlockKind → Json → Bool) (config : Config) : Prop where
  idempotent : applyDefaults accepts (applyDefaults accepts config) = applyDefaults accepts config
  wins : List.Forall₂ (fun c c' => Wins c c' ∧ ∀ v ∈ c.tagTemplate, c'.tagTemplate = some v)
    config.allCrates (applyDefaults accepts config).allCrates
  suppressed : ∀ d ∈ config.defaults, List.Forall₂ (fun c c' => Suppressed d c c' ∧
    UntouchedList c.builds c'.builds) config.allCrates (applyDefaults accepts config).allCrates
  short : List.Forall₂ (fun c c' => Short c c' ∧ AtMostOneMore c.versionFiles c'.versionFiles ∧
    AtMostOneMore c.onError c'.onError ∧ AtMostOneMore c.onRollback c'.onRollback)
    config.allCrates (applyDefaults accepts config).allCrates

/-- The defaults entries have identities, and no hooks are appended. -/
structure Defaults.Keyed (d : Defaults) : Prop where
  archives : ∀ a ∈ d.archives, (archiveIdentity a).isSome
  lists : ∀ f, ∀ e ∈ d.lists f, (identity f e).isSome
  hooks : ∀ p ∈ d.publish, p.onError.getD [] = [] ∧ p.onRollback.getD [] = []

/-- The hooks of the defaults come after those of the crate. -/
def Appended (default l l' : Option (List Json)) : Prop :=
  l'.getD [] = l.getD [] ++ default.getD []

/-- The fold as the code has it. -/
structure FoldsByDesign (accepts : BlockKind → Json → Bool) (config : Config) : Prop where
  unchanged : config.defaults = none → applyDefaults accepts config = config
  idempotent : (∀ d ∈ config.defaults, d.Keyed) →
    applyDefaults accepts (applyDefaults accepts config) = applyDefaults accepts config
  wins : List.Forall₂ (fun c c' => Wins c c' ∧
    ∀ v ∈ c.tagTemplate, v ≠ [] → c'.tagTemplate = some v)
    config.allCrates (applyDefaults accepts config).allCrates
  suppressed : ∀ d ∈ config.defaults, List.Forall₂ (Suppressed d)
    config.allCrates (applyDefaults accepts config).allCrates
  short : List.Forall₂ Short config.allCrates (applyDefaults accepts config).allCrates
  appended : ∀ d ∈ config.defaults, List.Forall₂ (fun c c' =>
    Appended (d.publish.bind (·.onError)) c.onError c'.onError ∧
      Appended (d.publish.bind (·.onRollback)) c.onRollback c'.onRollback)
    config.allCrates (applyDefaults accepts config).allCrates
  blocks : ∀ b, KeptBlock (config.blocks b) ((applyDefaults accepts config).blocks b) ∧
    UntouchedBlock (config.blocks b) ((applyDefaults accepts config).blocks b)
  topLists : ∀ f, ∀ l ∈ config.topLists f, l ≠ [] → (applyDefaults accepts config).topLists f = some l

/-! ### One crate -/

theorem kept_refl (l : Option (List Json)) : KeptList l l :=
  fun es hes => ⟨es, [], by rw [List.append_nil]; exact hes, forall₂_same es⟩

theorem untouched_refl (l : Option (List Json)) : UntouchedList l l :=
  fun es hes => ⟨es, hes, fun _ _ h _ => h⟩

theorem keptBlock_refl (b : Option Json) : KeptBlock b b := fun t ht => ⟨t, ht, .same t⟩

theorem kept_mergeAppendList (target defaults : Option (List Json)) :
    KeptList target (mergeAppendList target defaults) := by
  rintro es ⟨⟩
  cases defaults with
  | none => exact kept_refl (some es) es rfl
  | some items => exact ⟨es, items, rfl, forall₂_same es⟩

theorem kept_mergeBuilds (target : Option (List Json)) (defaults : Option Json) :
    KeptList target (mergeBuilds accepts target defaults) := by
  rintro es ⟨⟩
  cases defaults with
  | none => exact kept_refl (some es) es rfl
  | some tpl =>
    cases es with
    | nil => exact ⟨[], [tpl], rfl, .nil⟩
    | cons e es =>
      refine ⟨_, [], by rw [List.append_nil]; rfl, ?_⟩
      rw [List.forall₂_map_right_iff]
      exact List.forall₂_same.mpr fun e _ => sets_deepMergeStructInplace e tpl

theorem length_mergeBuilds (target : Option (List Json)) (defaults : Option Json) :
    AtMostOneMore target (mergeBuilds accepts target defaults) := by
  cases defaults with
  | none => exact Nat.le_succ _
  | some tpl =>
    rw [AtMostOneMore, mergeBuilds]
    cases htarget : target.getD [] with
    | nil => simp
    | cons e es => simp

theorem entries_mergeArchives (target : ArchivesConfig) (defaults : Option Json) :
    (mergeArchives accepts target defaults).entries =
      target.entries.map fun list => defaults.elim list
        (mergeOneIntoList accepts .archive archiveIdentity list) := by
  cases defaults <;> cases target <;> rfl

theorem kept_mergeArchives (target : ArchivesConfig) (defaults : Option Json) :
    KeptList target.entries (mergeArchives accepts target defaults).entries ∧
      UntouchedList target.entries (mergeArchives accepts target defaults).entries ∧
      AtMostOneMore target.entries (mergeArchives accepts target defaults).entries ∧
      NoSecond archiveIdentity defaults target.entries
        (mergeArchives accepts target defaults).entries := by
  rw [entries_mergeArchives]
  cases target with
  | disabled =>
    exact ⟨kept_refl none, untouched_refl none, Nat.le_succ _, fun _ h => by cases h⟩
  | configs list =>
    cases defaults with
    | none =>
      exact ⟨kept_refl _, untouched_refl _, Nat.le_succ _, fun _ _ _ h => by cases h⟩
    | some entry =>
      refine ⟨kept_mergeOneIntoList list, untouched_mergeOneIntoList list,
        length_mergeOneIntoList list, ?_⟩
      rintro _ ⟨⟩ _ ⟨⟩ ⟨e, he, -, hmatch⟩
      exact length_of_match he hmatch

theorem kept_mergeListByIdentity (f : ListField) (target : Option (List Json))
    (defaults : Option Json) :
    KeptList target (mergeListByIdentity accepts f target defaults) ∧
      UntouchedList target (mergeListByIdentity accepts f target defaults) ∧
      AtMostOneMore target (mergeListByIdentity accepts f target defaults) ∧
      NoSecond (identity f) defaults target (mergeListByIdentity accepts f target defaults) := by
  cases defaults with
  | none => exact ⟨kept_refl _, untouched_refl _, Nat.le_succ _, fun _ _ _ h => by cases h⟩
  | some entry =>
    cases target with
    | none =>
      refine ⟨?_, ?_, le_refl 1, ?_⟩ <;> exact fun _ h => by cases h
    | some list =>
      refine ⟨kept_mergeOneIntoList list, untouched_mergeOneIntoList list,
        length_mergeOneIntoList list, ?_⟩
      rintro _ ⟨⟩ _ ⟨⟩ ⟨e, he, -, hmatch⟩
      exact length_of_match he hmatch

theorem or_keeps {α : Type*} {a b : Option α} : ∀ v ∈ a, a.or b = some v := by
  rintro v ⟨⟩
  rfl

theorem publisher_applyToCrate (d : Defaults) (c : CrateConfig) (p : Publisher) :
    (applyToCrate accepts d c).publisher p =
      deepMergeOption accepts (.publisher p) (c.publisher p) (d.publish.bind (·.publishers p)) := by
  rw [CrateConfig.publisher, CrateConfig.publisher, applyToCrate]
  cases d.publish with
  | none => rfl
  | some pubd => cases c.publish <;> rfl

theorem hooks_applyToCrate (d : Defaults) (c : CrateConfig) :
    (applyToCrate accepts d c).onError =
        mergeAppendList c.onError (d.publish.bind (·.onError)) ∧
      (applyToCrate accepts d c).onRollback =
        mergeAppendList c.onRollback (d.publish.bind (·.onRollback)) := by
  rw [CrateConfig.onError, CrateConfig.onError, CrateConfig.onRollback, CrateConfig.onRollback,
    applyToCrate]
  cases d.publish with
  | none => exact ⟨rfl, rfl⟩
  | some pubd => cases c.publish <;> exact ⟨rfl, rfl⟩

theorem wins_applyToCrate (d : Defaults) (c : CrateConfig) :
    Wins c (applyToCrate accepts d c) where
  cross := or_keeps
  versionFiles := or_keeps
  checksum := kept_deepMergeOption _ _
  disabled h := by
    rw [applyToCrate, h]
    cases d.archives <;> rfl
  archives := (kept_mergeArchives _ _).1
  lists f := (kept_mergeListByIdentity f _ _).1
  builds := kept_mergeBuilds _ _
  publishers p := by
    rw [publisher_applyToCrate]
    exact kept_deepMergeOption _ _
  onError := by
    rw [(hooks_applyToCrate d c).1]
    exact kept_mergeAppendList _ _
  onRollback := by
    rw [(hooks_applyToCrate d c).2]
    exact kept_mergeAppendList _ _

theorem suppressed_applyToCrate (d : Defaults) (c : CrateConfig) :
    Suppressed d c (applyToCrate accepts d c) where
  checksum := untouched_deepMergeOption _ _
  publishers p := by
    rw [publisher_applyToCrate]
    exact untouched_deepMergeOption _ _
  archives := (kept_mergeArchives _ _).2.1
  lists f := (kept_mergeListByIdentity f _ _).2.1
  oneArchive := (kept_mergeArchives _ _).2.2.2
  oneEntry f := (kept_mergeListByIdentity f _ _).2.2.2

theorem short_applyToCrate (d : Defaults) (c : CrateConfig) :
    Short c (applyToCrate accepts d c) where
  archives := (kept_mergeArchives _ _).2.2.1
  lists f := (kept_mergeListByIdentity f _ _).2.2.1
  builds := length_mergeBuilds _ _

theorem fillTagTemplate_nonempty {target defaults : Option Text} :
    ∀ v ∈ target, v ≠ [] → fillTagTemplate target defaults = some v := by
  rintro v ⟨⟩ hv
  exact if_neg hv

/-! ### A second fold -/

theorem mergeArchives_idem (hkey : ∀ a ∈ d.archives, (archiveIdentity a).isSome)
    (target : ArchivesConfig) :
    mergeArchives accepts (mergeArchives accepts target d.archives) d.archives =
      mergeArchives accepts target d.archives := by
  cases h : d.archives with
  | none => rfl
  | some a =>
    cases target with
    | disabled => rfl
    | configs list =>
      exact congrArg ArchivesConfig.configs
        (mergeOneIntoList_idem stable_archiveIdentity (hkey a h) list)

theorem mergeListByIdentity_idem {f : ListField} {entry : Option Json}
    (hkey : ∀ e ∈ entry, (identity f e).isSome) (target : Option (List Json)) :
    mergeListByIdentity accepts f (mergeListByIdentity accepts f target entry) entry =
      mergeListByIdentity accepts f target entry := by
  cases entry with
  | none => rfl
  | some e =>
    cases target with
    | none =>
      exact congrArg some (mergeOneIntoList_idem (stable_identity f) (hkey e rfl) [])
    | some list => exact congrArg some (mergeOneIntoList_idem (stable_identity f) (hkey e rfl) list)

theorem mergeBuilds_idem (target : Option (List Json)) (defaults : Option Json) :
    mergeBuilds accepts (mergeBuilds accepts target defaults) defaults =
      mergeBuilds accepts target defaults := by
  cases defaults with
  | none => rfl
  | some tpl =>
    cases htarget : target.getD [] with
    | nil => simp [mergeBuilds, htarget, deepMergeStructInplace_self]
    | cons e es => simp [mergeBuilds, htarget, deepMergeStructInplace_idem]

theorem mergeAppendList_idem {defaults : Option (List Json)} (h : defaults.getD [] = [])
    (target : Option (List Json)) :
    mergeAppendList (mergeAppendList target defaults) defaults =
      mergeAppendList target defaults := by
  cases defaults with
  | none => rfl
  | some items =>
    obtain rfl : items = [] := h
    cases target <;> simp [mergeAppendList]

theorem fillTagTemplate_idem (target defaults : Option Text) :
    fillTagTemplate (fillTagTemplate target defaults) defaults = fillTagTemplate target defaults := by
  by_cases h : target.getD [] = []
  · cases defaults with
    | none => simp [fillTagTemplate, h]
    | some t => simp [fillTagTemplate, h]
  · simp [fillTagTemplate, h]

theorem mergePublishDefaults_idem {pubd : PublishDefaults}
    (h : pubd.onError.getD [] = [] ∧ pubd.onRollback.getD [] = []) (target : PublishConfig) :
    mergePublishDefaults accepts (mergePublishDefaults accepts target pubd) pubd =
      mergePublishDefaults accepts target pubd := by
  simp only [mergePublishDefaults, deepMergeOption_idem, mergeAppendList_idem h.1,
    mergeAppendList_idem h.2]

theorem applyToCrate_idem (h : d.Keyed) (c : CrateConfig) :
    applyToCrate accepts d (applyToCrate accepts d c) = applyToCrate accepts d c := by
  have hor : ∀ {α : Type} (a b : Option α), (a.or b).or b = a.or b := by
    intro α a b
    cases a <;> cases b <;> rfl
  have hpublish : (applyToCrate accepts d (applyToCrate accepts d c)).publish =
      (applyToCrate accepts d c).publish := by
    cases hp : d.publish with
    | none => simp only [applyToCrate, hp]
    | some pubd =>
      simp only [applyToCrate, hp, Option.getD_some, mergePublishDefaults_idem (h.hooks pubd hp)]
  have hlists : (applyToCrate accepts d (applyToCrate accepts d c)).lists =
      (applyToCrate accepts d c).lists := funext fun f => mergeListByIdentity_idem (h.lists f) _
  rw [CrateConfig.ext_iff]
  exact ⟨hor .., fillTagTemplate_idem .., hor .., deepMergeOption_idem ..,
    mergeArchives_idem h.archives _, hlists, mergeBuilds_idem .., hpublish⟩

/-! ### A whole configuration -/

theorem applyDefaults_none (h : config.defaults = none) : applyDefaults accepts config = config := by
  rw [applyDefaults, h]

variable (accepts) in
theorem applyDefaults_fields (h : config.defaults = some d) :
    (applyDefaults accepts config).defaults = some d ∧
      (applyDefaults accepts config).crates = config.crates.map (applyToCrate accepts d) ∧
      (applyDefaults accepts config).workspaces = config.workspaces.map (fun list =>
        list.map fun ws => ⟨ws.crates.map (applyToCrate accepts d)⟩) ∧
      (applyDefaults accepts config).blocks =
        (fun b => deepMergeOption accepts (.top b) (config.blocks b) (d.blocks b)) ∧
      (applyDefaults accepts config).topLists =
        (fun f => fillTopList (config.topLists f) (d.topLists f)) ∧
      (applyDefaults accepts config).filledFromDefaults = (fun f => config.filledFromDefaults f ||
        f.isSignSlice && ((config.topLists f).getD []).isEmpty && (d.topLists f).isSome) := by
  obtain ⟨defaults, crates, workspaces, blocks, topLists, filled⟩ := config
  obtain rfl : defaults = some d := h
  exact ⟨rfl, rfl, rfl, rfl, rfl, rfl⟩

theorem allCrates_applyDefaults (h : config.defaults = some d) :
    (applyDefaults accepts config).allCrates = config.allCrates.map (applyToCrate accepts d) := by
  obtain ⟨-, hcrates, hworkspaces, -⟩ := applyDefaults_fields accepts h
  rw [Config.allCrates, Config.allCrates, hcrates, hworkspaces, List.map_append]
  congr 1
  cases config.workspaces with
  | none => rfl
  | some list =>
    rw [Option.map_some, Option.getD_some, Option.getD_some, List.flatMap_map, List.map_flatMap]

/-- What holds of one folded crate holds of all. -/
theorem forall₂_allCrates {P : CrateConfig → CrateConfig → Prop} (hrefl : ∀ c, P c c)
    (h : ∀ d ∈ config.defaults, ∀ c, P c (applyToCrate accepts d c)) :
    List.Forall₂ P config.allCrates (applyDefaults accepts config).allCrates := by
  cases hd : config.defaults with
  | none =>
    rw [applyDefaults_none hd]
    exact List.forall₂_same.mpr fun c _ => hrefl c
  | some d =>
    rw [allCrates_applyDefaults hd, List.forall₂_map_right_iff]
    exact List.forall₂_same.mpr fun c _ => h d hd c

theorem fillTopList_idem (l : Option (List Json)) (entry : Option Json) :
    fillTopList (fillTopList l entry) entry = fillTopList l entry ∧
      (((fillTopList l entry).getD []).isEmpty && entry.isSome) = false := by
  cases entry with
  | none => exact ⟨rfl, Bool.and_false _⟩
  | some e =>
    by_cases h : (l.getD []).isEmpty
    · simp [fillTopList, h]
    · simp [fillTopList, h]

/-- A second fold of keyed defaults changes nothing. -/
theorem applyDefaults_idem (h : ∀ d ∈ config.defaults, d.Keyed) :
    applyDefaults accepts (applyDefaults accepts config) = applyDefaults accepts config := by
  cases hd : config.defaults with
  | none => rw [applyDefaults_none hd, applyDefaults_none hd]
  | some d =>
    obtain ⟨hd', hcrates, hworkspaces, hblocks, htops, hfilled⟩ :=
      applyDefaults_fields accepts hd
    obtain ⟨hd'', hcrates', hworkspaces', hblocks', htops', hfilled'⟩ :=
      applyDefaults_fields accepts hd'
    have hidem : applyToCrate accepts d ∘ applyToCrate accepts d = applyToCrate accepts d :=
      funext fun c => applyToCrate_idem (h d hd) c
    have hmap : ∀ crates : List CrateConfig, (crates.map (applyToCrate accepts d)).map
        (applyToCrate accepts d) = crates.map (applyToCrate accepts d) := by
      intro crates
      rw [List.map_map, hidem]
    rw [Config.ext_iff]
    refine ⟨hd''.trans hd'.symm, ?_, ?_, ?_, ?_, ?_⟩
    · rw [hcrates', hcrates, hmap]
    · rw [hworkspaces', hworkspaces]
      cases config.workspaces with
      | none => rfl
      | some list => simp only [Option.map_some, List.map_map, Function.comp_def, hmap]
    · rw [hblocks', hblocks]
      exact funext fun b => deepMergeOption_idem ..
    · rw [htops', htops]
      exact funext fun f => (fillTopList_idem ..).1
    · rw [hfilled', hfilled, htops]
      funext f
      rw [Bool.and_assoc (TopList.isSignSlice f), (fillTopList_idem ..).2, Bool.and_false,
        Bool.or_false]

theorem fillTopList_of_ne {l : List Json} (h : l ≠ []) (entry : Option Json) :
    fillTopList (some l) entry = some l := by
  cases entry with
  | none => rfl
  | some e =>
    rw [fillTopList, Option.getD_some, if_neg]
    simpa using h

def licenseEntry : Json :=
  .node fun key => if key = "license".toList then .leaf (.string "MIT".toList) else .unset

def noDefaults : Defaults :=
  ⟨none, none, none, none, none, fun _ => none, none, none, fun _ => none, fun _ => none⟩

def plainCrate : CrateConfig := ⟨none, none, none, none, .configs [], fun _ => none, none, none⟩

/-- The defaults for packages name no package. -/
def unkeyedConfig : Config where
  defaults := some { noDefaults with
    lists := fun f => if f = .nfpms then some licenseEntry else none }
  crates := [plainCrate]
  workspaces := none
  blocks _ := none
  topLists _ := some []
  filledFromDefaults _ := false

end Anodizer.DefaultsMerge
