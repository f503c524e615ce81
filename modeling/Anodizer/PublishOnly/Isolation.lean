import Anodizer.PublishOnly.PerCrate

/-! # Isolation of the visits

What a visit starts with is independent of the visits before it, except for
the tags they leave: those stay unless the crate is known and its own tag
resolves.
-/

namespace Anodizer.PublishOnly

open Template (Text CharTables)
open Git Tag
open ScopedLoop (Exit Outcome Allowed)

variable {C S H A R V : Type}

/-- The contexts agree on the variables that the loop does not manage. -/
def SameRest (c c' : Context C S H A R V) : Prop := ∀ key ∉ managedVars, c.vars key = c'.vars key

theorem sameRest_equivalence : Equivalence (SameRest (C := C) (S := S) (H := H) (A := A) (R := R)
    (V := V)) where
  refl _ _ _ := rfl
  symm h key hkey := (h key hkey).symm
  trans h h' key hkey := (h key hkey).trans (h' key hkey)

/-- The tag and the previous tag that a context is left with. -/
abbrev Tags := Option Text × Option Text

def Context.withTags (c : Context C S H A R V) (tags : Tags) : Context C S H A R V :=
  { c with vars := (c.vars.rewind tagVar tags.1).rewind previousTagVar tags.2 }

def Context.tags (c : Context C S H A R V) : Tags := (c.vars tagVar, c.vars previousTagVar)

variable {env : Env} {config : OverlayFields C S H} {c c₀ : Context C S H A R V} {k key : Text}
  {tags tags' : Tags} {v w : Vars}

/-! ### Variables -/

theorem rewind_foldl_apply {l : List Text} {f : Text → Option Text} :
    ((l.map fun key => (key, f key)).foldl (fun v saved => Vars.rewind v saved.1 saved.2) v) key =
      if key ∈ l then f key else v key := by
  induction l generalizing v with
  | nil => rfl
  | cons a l ih =>
    rw [List.map_cons, List.foldl_cons, ih, Vars.rewind_apply]
    by_cases hl : key ∈ l
    · simp [hl]
    · by_cases ha : key = a
      · simp [ha]
      · simp [hl, ha]

theorem rewindVersionVars_apply : (PerCrateOverlayGuard.capture c₀).rewindVersionVars v key =
    if key ∈ versionTemplateVars then c₀.vars key else v key :=
  rewind_foldl_apply

theorem set_foldl_congr {l : List (Text × Text)} (h : v key = w key) :
    (l.foldl (fun v entry => Vars.set v entry.1 entry.2) v) key =
      (l.foldl (fun v entry => Vars.set v entry.1 entry.2) w) key := by
  induction l generalizing v w with
  | nil => exact h
  | cons a l ih =>
    refine ih ?_
    simp only [Vars.set_apply, h]

theorem set_foldl_of_notMem {l : List (Text × Text)} (h : key ∉ l.map Prod.fst) :
    (l.foldl (fun v entry => Vars.set v entry.1 entry.2) v) key = v key := by
  induction l generalizing v with
  | nil => rfl
  | cons a l ih =>
    rw [List.map_cons, List.mem_cons, not_or] at h
    rw [List.foldl_cons, ih h.2, Vars.set_apply, if_neg h.1]

/-- A variable after the version is anchored depends on nothing but itself. -/
theorem applyPerCrateVersion_congr {dist : Text} (h : v key = w key) :
    env.applyPerCrateVersion dist v key = env.applyPerCrateVersion dist w key := by
  unfold Env.applyPerCrateVersion
  cases (env.peekPreservedVersion dist).bind (parseSemver env.tables) with
  | none => exact h
  | some semver => exact set_foldl_congr h

theorem applyPerCrateVersion_of_notMem {dist : Text} (h : key ∉ versionTemplateVars) :
    env.applyPerCrateVersion dist v key = v key := by
  unfold Env.applyPerCrateVersion
  cases (env.peekPreservedVersion dist).bind (parseSemver env.tables) with
  | none => rfl
  | some semver => exact set_foldl_of_notMem h

theorem tagVar_notMem : tagVar ∉ versionTemplateVars := by decide

theorem previousTagVar_notMem : previousTagVar ∉ versionTemplateVars := by decide

/-! ### One visit -/

/-- Of what the earlier visits did, the scope of a crate keeps the tags. -/
theorem scope_eq (h : SameRest c c₀) :
    env.scope config (.capture c₀) k c =
      (env.scope config (.capture c₀) k c₀).withTags c.tags := by
  have hvars : (env.scope config (.capture c₀) k c).vars =
      ((env.scope config (.capture c₀) k c₀).withTags c.tags).vars := by
    ext key : 1
    simp only [Env.scope, Context.withTags, Vars.rewind_apply, Context.tags]
    split
    · next hprev =>
      subst hprev
      rw [applyPerCrateVersion_of_notMem previousTagVar_notMem]
      simp only [PerCrateOverlayGuard.resetReleaseUrl, PerCrateOverlayGuard.resetVersionVars,
        PerCrateOverlayGuard.resetOverlayFields, Vars.rewind_apply, rewindVersionVars_apply]
      rw [if_neg (by decide), if_neg previousTagVar_notMem]
    · next hprev =>
      split
      · next htag =>
        subst htag
        rw [applyPerCrateVersion_of_notMem tagVar_notMem]
        simp only [PerCrateOverlayGuard.resetReleaseUrl, PerCrateOverlayGuard.resetVersionVars,
          PerCrateOverlayGuard.resetOverlayFields, Vars.rewind_apply, rewindVersionVars_apply]
        rw [if_neg (by decide), if_neg tagVar_notMem]
      · next htag =>
        refine applyPerCrateVersion_congr ?_
        simp only [PerCrateOverlayGuard.resetReleaseUrl, PerCrateOverlayGuard.resetVersionVars,
          PerCrateOverlayGuard.resetOverlayFields, Vars.rewind_apply, rewindVersionVars_apply]
        split
        · rfl
        split
        · rfl
        · next hurl hversion =>
          refine h key ?_
          simp only [managedVars, List.mem_cons, not_or]
          exact ⟨htag, hprev, hurl, hversion⟩
  simp only [Env.scope, Context.withTags] at hvars ⊢
  rw [← hvars]
  rfl

/-- The tag and the previous tag that the crate resolves to, if it does. -/
def Env.crateTags (env : Env) (crateCfg : ReleaseCrate) (c : Context C S H A R V) :
    Option (Text × Option Text) :=
  match (env.releaseContext c).resolveReleaseTag crateCfg.toCrateConfig crateCfg.releaseTag with
  | .ok tag => some (tag, env.previousTag c crateCfg.toCrateConfig tag)
  | .error _ => none

/-- The tags that the crate is left with. -/
def Env.resolvedTags (env : Env) (crateCfg : ReleaseCrate) (c : Context C S H A R V) : Tags :=
  ((env.crateTags crateCfg c).map fun tags => (some tags.1, tags.2)).getD c.tags

@[simp]
theorem withTags_tags : (c.withTags tags).tags = tags := by
  have hne : tagVar ≠ previousTagVar := by decide
  simp [Context.withTags, Context.tags, hne]

@[simp]
theorem withTags_self : c.withTags c.tags = c := by
  have hvars : (c.withTags c.tags).vars = c.vars := by
    ext key : 1
    simp only [Context.withTags, Context.tags, Vars.rewind_apply]
    split
    · next h => rw [h]
    split
    · next h => rw [h]
    · rfl
  simp only [Context.withTags] at hvars ⊢
  rw [hvars]

@[simp]
theorem withTags_withTags : (c.withTags tags).withTags tags' = c.withTags tags' := by
  simp only [Context.withTags]
  congr 1
  ext key : 1
  simp only [Vars.rewind_apply]
  split
  · rfl
  split <;> rfl

theorem withTags_inj : c.withTags tags = c.withTags tags' ↔ tags = tags' := by
  constructor
  · intro h
    have htags := congrArg Context.tags h
    rwa [withTags_tags, withTags_tags] at htags
  · exact fun h => h ▸ rfl

theorem applyPerCrateTag_eq {crateCfg : ReleaseCrate} (hk : config.findCrate k = some crateCfg) :
    env.applyPerCrateTag config k c = c.withTags (env.resolvedTags crateCfg c) := by
  unfold Env.applyPerCrateTag Env.resolvedTags Env.crateTags
  rw [hk]
  dsimp only
  cases (env.releaseContext c).resolveReleaseTag crateCfg.toCrateConfig crateCfg.releaseTag with
  | ok tag => rfl
  | error e => exact withTags_self.symm

/-- Whatever tags are left, the crate is known and resolves to one tag and one previous tag, or
fails to resolve when just these are left. -/
def Anchored (env : Env) (config : OverlayFields C S H) (c₀ : Context C S H A R V) (k : Text) :
    Prop :=
  ∃ crateCfg, config.findCrate k = some crateCfg ∧ ∃ tag previous, ∀ left : Tags,
    let c := (env.scope config (.capture c₀) k c₀).withTags left
    env.crateTags crateCfg c = some (tag, previous) ∨
      env.crateTags crateCfg c = none ∧ left = (some tag, previous)

/-- The tags left do not matter exactly when the crate is anchored. -/
theorem enter_independent_iff :
    (∀ c, SameRest c c₀ → env.enter config (.capture c₀) k c = env.enter config (.capture c₀) k c₀)
      ↔ Anchored env config c₀ k := by
  have hscope : ∀ c, SameRest c c₀ → env.enter config (.capture c₀) k c =
      env.applyPerCrateTag config k ((env.scope config (.capture c₀) k c₀).withTags c.tags) :=
    fun c h => by rw [Env.enter, scope_eq h]
  have hleft : ∀ tags, SameRest (c₀.withTags tags) c₀ := by
    intro tags key hkey
    simp only [managedVars, List.mem_cons, not_or] at hkey
    simp [Context.withTags, hkey.1, hkey.2.1]
  rw [Anchored]
  generalize env.scope config (.capture c₀) k c₀ = s at hscope
  constructor
  · intro h
    have hconst : ∀ tags, env.applyPerCrateTag config k (s.withTags tags) =
        env.applyPerCrateTag config k (s.withTags c₀.tags) := by
      intro tags
      have heq := h _ (hleft tags)
      rwa [hscope _ (hleft tags), hscope _ (sameRest_equivalence.refl c₀), withTags_tags] at heq
    cases hk : config.findCrate k with
    | none =>
      -- an unknown crate keeps any two tags that are left
      have hkeep : ∀ tags, env.applyPerCrateTag config k (s.withTags tags) = s.withTags tags := by
        intro tags
        rw [Env.applyPerCrateTag, hk]
      have heq := (hconst (none, none)).trans (hconst (some [], none)).symm
      rw [hkeep, hkeep] at heq
      exact absurd (withTags_inj.mp heq) (by simp)
    | some crateCfg =>
      simp only [applyPerCrateTag_eq hk, withTags_withTags, withTags_inj] at hconst
      generalize env.resolvedTags crateCfg (s.withTags c₀.tags) = final at hconst
      obtain ⟨other, hother⟩ : ∃ other : Tags, other ≠ final := exists_ne final
      have hresolve := hconst other
      rw [Env.resolvedTags] at hresolve
      cases htags : env.crateTags crateCfg (s.withTags other) with
      | none =>
        rw [htags] at hresolve
        exact absurd (by simpa using hresolve) hother
      | some found =>
        rw [htags] at hresolve
        obtain rfl : (some found.1, found.2) = final := hresolve
        refine ⟨crateCfg, rfl, found.1, found.2, fun left => ?_⟩
        have hleft := hconst left
        rw [Env.resolvedTags] at hleft
        dsimp only
        cases hnow : env.crateTags crateCfg (s.withTags left) with
        | none =>
          rw [hnow] at hleft
          exact .inr ⟨rfl, by simpa using hleft⟩
        | some now =>
          rw [hnow] at hleft
          refine .inl ?_
          simpa [Prod.ext_iff] using hleft
  · rintro ⟨crateCfg, hk, tag, previous, h⟩ c hc
    have hanchor : ∀ left, env.applyPerCrateTag config k (s.withTags left) =
        s.withTags (some tag, previous) := by
      intro left
      rw [applyPerCrateTag_eq hk, withTags_withTags, Env.resolvedTags]
      rcases h left with heq | ⟨heq, rfl⟩
      · rw [heq]
        rfl
      · rw [heq]
        simp
    rw [hscope c hc, hscope c₀ (sameRest_equivalence.refl c₀), hanchor, hanchor]

/-- Where no template reads the tags, anchored means known and resolved. -/
theorem anchored_iff_of_tagFree
    (hfree : ∀ crateCfg (c : Context C S H A R V) tags,
      env.crateTags crateCfg (c.withTags tags) = env.crateTags crateCfg c) :
    Anchored env config c₀ k ↔ ∃ crateCfg, config.findCrate k = some crateCfg ∧
      (env.crateTags crateCfg (env.scope config (.capture c₀) k c₀)).isSome = true := by
  simp only [Anchored, hfree]
  refine exists_congr fun crateCfg => and_congr_right fun _ => ?_
  constructor
  · rintro ⟨tag, previous, h⟩
    obtain ⟨other, hother⟩ : ∃ other : Tags, other ≠ (some tag, previous) := exists_ne _
    rcases h other with heq | ⟨-, heq⟩
    · rw [heq]
      rfl
    · exact absurd heq hother
  · intro h
    obtain ⟨tags, htags⟩ := Option.isSome_iff_exists.mp h
    exact ⟨tags.1, tags.2, fun _ => .inl htags⟩

/-! ### The loop -/

/-- What the guard manages is as it was. -/
structure Restored (c₀ c : Context C S H A R V) : Prop where
  overlay : c.overlay = c₀.overlay
  dist : c.dist = c₀.dist
  selectedCrates : c.selectedCrates = c₀.selectedCrates
  skipStages : c.skipStages = c₀.skipStages
  vars : ∀ key ∈ managedVars, c.vars key = c₀.vars key

theorem drop_restored : Restored c₀ ((PerCrateOverlayGuard.capture c₀).drop c) := by
  refine ⟨rfl, rfl, rfl, rfl, fun key hkey => ?_⟩
  simp only [PerCrateOverlayGuard.drop, rewindVersionVars_apply, Vars.rewind_apply]
  simp only [managedVars, List.mem_cons] at hkey
  split
  · rfl
  · next hversion =>
    rcases hkey with rfl | rfl | rfl | hkey
    · rfl
    · rfl
    · rfl
    · exact absurd hkey hversion

theorem enter_sameRest : SameRest (env.enter config (.capture c₀) k c) c := by
  intro key hkey
  simp only [managedVars, List.mem_cons, not_or] at hkey
  obtain ⟨htag, hprevious, hurl, hversion⟩ := hkey
  have hscope : (env.scope config (.capture c₀) k c).vars key = c.vars key := by
    simp only [Env.scope, applyPerCrateVersion_of_notMem hversion,
      PerCrateOverlayGuard.resetReleaseUrl, PerCrateOverlayGuard.resetVersionVars,
      PerCrateOverlayGuard.resetOverlayFields, Vars.rewind_apply, rewindVersionVars_apply,
      if_neg hurl, if_neg hversion]
  rw [Env.enter, ← hscope]
  cases hk : config.findCrate k with
  | none => rw [Env.applyPerCrateTag, hk]
  | some crateCfg =>
    rw [applyPerCrateTag_eq hk]
    simp only [Context.withTags, Vars.rewind_apply, if_neg htag, if_neg hprevious]

/-- A visit starts as if its crate were the only one, and the loop leaves nothing behind. An
effect writes any of what the loop manages. -/
structure Isolated (env : Env) (config : OverlayFields C S H) (order : List Text)
    (c₀ : Context C S H A R V) : Prop where
  entered : ∀ steps, steps.map Prod.fst = order → Allowed SameRest steps →
    ∀ visit ∈ (env.runPerCrate config steps c₀).entered, ∀ effect,
      (env.runPerCrate config [(visit.1, effect)] c₀).entered = [visit]
  restored : ∀ steps, steps.map Prod.fst = order →
    Restored c₀ (env.runPerCrate config steps c₀).final

/-- The visits are isolated exactly when every crate but the first is anchored. -/
theorem isolated_iff (env : Env) (config : OverlayFields C S H) (order : List Text)
    (c₀ : Context C S H A R V) :
    Isolated env config order c₀ ↔ ∀ k ∈ order.tail, Anchored env config c₀ k := by
  have halone : ∀ (visit : Text × Context C S H A R V) effect,
      (env.runPerCrate config [(visit.1, effect)] c₀).entered = [visit] ↔
        visit.2 = env.enter config (.capture c₀) visit.1 c₀ := by
    rintro ⟨k, c⟩ effect
    have hentered : (env.runPerCrate config [(k, effect)] c₀).entered =
        [(k, env.enter config (.capture c₀) k c₀)] := by
      simp only [Env.runPerCrate, ScopedLoop.run]
      split <;> rfl
    rw [hentered]
    simp [eq_comm]
  have henter : ∀ k s, SameRest (env.enter config (.capture c₀) k s) s := fun _ _ => enter_sameRest
  have hindependent : (∀ steps, steps.map Prod.fst = order → Allowed SameRest steps →
      ∀ x ∈ (ScopedLoop.run (env.enter config (.capture c₀)) steps c₀).entered,
        x.2 = env.enter config (.capture c₀) x.1 c₀) ↔
      ∀ k ∈ order.tail, ∀ s, SameRest s c₀ →
        env.enter config (.capture c₀) k s = env.enter config (.capture c₀) k c₀ :=
    ScopedLoop.independent_iff sameRest_equivalence henter
  simp only [enter_independent_iff] at hindependent
  rw [← hindependent]
  constructor
  · intro h steps horder hallowed visit hvisit
    exact (halone visit fun c => (c, .ok)).mp
      (h.entered steps horder hallowed visit hvisit fun c => (c, .ok))
  · intro h
    exact ⟨fun steps horder hallowed visit hvisit effect =>
      (halone visit effect).mpr (h steps horder hallowed visit hvisit),
      fun _ _ => drop_restored⟩

/-! ### A crate that is not in the configuration -/

def bareEnv : Env where
  base := ⟨"app".toList, [], [], none, none, none⟩
  nightly := false
  nightlyTagName := none
  gitInfo := none
  render _ template := .ok template
  findPreviousTagInFamily _ _ _ _ _ := .ok none
  preservedVersions _ := none
  tables := .ascii
  distBase := "dist".toList
  join base name := base ++ '/' :: name

def appConfig : OverlayFields Unit Unit Unit where
  crates := [⟨⟨"app".toList, "app".toList, some "app-v1.0.0".toList, none, none⟩, none⟩]
  workspaces := none
  changelog := none
  signs := []
  binarySigns := []
  before := none
  after := none
  env := none
  filledFromDefaults := []

def freshContext : Context Unit Unit Unit Unit Unit Unit :=
  ⟨appConfig, "dist".toList, [], [], [], none, false, none, fun _ => none⟩

/-- The crate `ghost` starts with the tag of the crate before it. -/
theorem not_isolated :
    ¬Isolated bareEnv appConfig ["app".toList, "ghost".toList] freshContext := by
  intro h
  let idle : Context Unit Unit Unit Unit Unit Unit → Context Unit Unit Unit Unit Unit Unit × Exit :=
    fun c => (c, .ok)
  have hallowed : Allowed SameRest [("app".toList, idle), ("ghost".toList, idle)] := by
    intro step hstep c key _
    simp only [List.mem_cons, List.not_mem_nil, or_false] at hstep
    rcases hstep with rfl | rfl <;> rfl
  let app := bareEnv.enter appConfig (.capture freshContext) "app".toList freshContext
  let ghost := bareEnv.enter appConfig (.capture freshContext) "ghost".toList app
  have hvisit : ("ghost".toList, ghost) ∈ (bareEnv.runPerCrate appConfig
      [("app".toList, idle), ("ghost".toList, idle)] freshContext).entered :=
    List.mem_cons_of_mem _ List.mem_cons_self
  have hsame := h.entered _ rfl hallowed _ hvisit idle
  have htag := congrArg (List.map fun visit => visit.2.vars tagVar) hsame
  exact absurd htag (by decide)

end Anodizer.PublishOnly
