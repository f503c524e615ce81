import Anodizer.Lib.Loop
import Anodizer.Lib.SortedGroups
import Anodizer.Template.StringLit
import Mathlib.Data.List.Lex

/-! # One archive for each platform

Archives of several formats for one platform are told apart by a list of preferred formats. The
first format that some archive of the platform has must single one out.
-/

namespace Anodizer.Disambiguate

open Template (Text)

structure InnerConfig where
  preferredFormats : List Text
  idsWasSet : Bool
  publisherLabel : Text
  crateName : Text

def commaJoin (parts : List Text) : Text := ", ".toList.intercalate parts

variable {T : Type} (keyFn formatFn labelFn : T → Text)
  -- how a text is printed in a list of values
  (debug : Text → Text) (cfg : InnerConfig)

def debugList (parts : List Text) : Text := '[' :: commaJoin (parts.map debug) ++ "]".toList

/-! ### Messages -/

def origin : Text := cfg.publisherLabel ++ ": crate '".toList ++ cfg.crateName ++ "': ".toList

def onlyOne : Text := "only one archive per platform is allowed.".toList

def labels (group : List T) : Text := commaJoin (group.map labelFn)

def idsMessage (key : Text) (group : List T) : Text :=
  origin cfg ++ "multiple archives found for ".toList ++ key ++
    " even after applying ids: filter (".toList ++ labels labelFn group ++ "); ".toList ++ onlyOne ++
    " Narrow `ids:` further.".toList

def conflictMessage (key fmt : Text) (conflict : List T) : Text :=
  origin cfg ++ "multiple .".toList ++ fmt ++ " archives found for ".toList ++ key ++ " (".toList ++
    labels labelFn conflict ++ "); ".toList ++ onlyOne ++ " Add `ids:` to select one.".toList

def noneMessage (key : Text) (group : List T) : Text :=
  origin cfg ++ "multiple archives found for ".toList ++ key ++ " (".toList ++
    labels labelFn group ++ ") and none matches a preferred format (have: ".toList ++
    debugList debug (group.map formatFn) ++ ", prefer: ".toList ++
    debugList debug cfg.preferredFormats ++ "); ".toList ++ onlyOne ++
    " Add `ids:` to select one.".toList

def droppedMessage (key : Text) (chosen dropped : T) : Text :=
  cfg.publisherLabel ++ ": crate '".toList ++ cfg.crateName ++ "': platform ".toList ++ key ++
    " had multiple archives; kept '".toList ++ labelFn chosen ++ "' (.".toList ++
    formatFn chosen ++ "), dropped '".toList ++ labelFn dropped ++ "' (.".toList ++
    formatFn dropped ++ "). Set `ids:` in the ".toList ++ cfg.publisherLabel ++
    " config to pick explicitly.".toList

/-! ### Choosing -/

/-- The places of a group that hold an entry of the format. -/
def positions (group : List T) (fmt : Text) : List (Fin group.length) :=
  (List.finRange group.length).filter fun i => formatFn (group.get i) = fmt

/-- One pass over the preferred formats: a format that some entry has ends the scan. -/
def scanFormat (key : Text) (group : List T) (fmt : Text) (_ : Unit) :
    Loop.Flow Unit (Except Text (Fin group.length)) :=
  match positions formatFn group fmt with
  | [] => .next ()
  | [i] => .stop (.ok i)
  | is => .stop (.error (conflictMessage labelFn cfg key fmt (is.map group.get)))

def chosenIdx (key : Text) (group : List T) : Except Text (Fin group.length) :=
  if cfg.idsWasSet then .error (idsMessage labelFn cfg key group)
  else
    match Loop.run (scanFormat formatFn labelFn cfg key group) cfg.preferredFormats () with
    | .next () => .error (noneMessage formatFn labelFn debug cfg key group)
    | .stop r => r

/-- The entry of a platform that is kept, and the warnings about the others. -/
def resolveGroup (key : Text) : List T → Except Text (T × List Text)
  | [entry] => .ok (entry, [])
  | group => do
    let idx ← chosenIdx formatFn labelFn debug cfg key group
    let chosen := group.get idx
    .ok (chosen, (group.eraseIdx idx).map (droppedMessage formatFn labelFn cfg key chosen))

/-- What a call returns, and what it has warned of by then. -/
structure Outcome (T : Type) where
  warned : List Text
  result : Except Text (List T)

/-- One pass over a platform: an error leaves the loop with the warnings so far. -/
def visitGroup (entry : Text × List T) (s : List Text × List T) :
    Loop.Flow (List Text × List T) (Outcome T) :=
  match resolveGroup formatFn labelFn debug cfg entry.1 entry.2 with
  | .ok (chosen, warnings) => .next (s.1 ++ warnings, s.2 ++ [chosen])
  | .error e => .stop ⟨s.1, .error e⟩

def disambiguateByFormatWithSink (entries : List T) : Outcome T :=
  match Loop.run (visitGroup formatFn labelFn debug cfg) (SortedGroups.groups keyFn entries) ([], [])
    with
  | .next (warned, result) => ⟨warned, .ok result⟩
  | .stop outcome => outcome

/-! ### The preferred entry -/

/-- The entry that the preferences single out: the only one of the first format that occurs. -/
def Prefers (preferred : List Text) (group : List T) (a : T) : Prop :=
  ∃ before fmt after, preferred = before ++ fmt :: after ∧
    (∀ f ∈ before, ∀ b ∈ group, formatFn b ≠ f) ∧ group.filter (formatFn · = fmt) = [a]

/-- The sole entry of a platform, or the preferred one. -/
def Decides (group : List T) (a : T) : Prop :=
  group = [a] ∨ 2 ≤ group.length ∧ cfg.idsWasSet = false ∧
    Prefers formatFn cfg.preferredFormats group a

/-- The entries of a platform. -/
def platform (entries : List T) (k : Text) : List T := entries.filter (keyFn · = k)

variable {keyFn formatFn labelFn debug cfg} {group group' : List T} {key fmt : Text} {a : T}

theorem mem_platform {entries : List T} {k : Text} :
    a ∈ platform keyFn entries k ↔ a ∈ entries ∧ keyFn a = k := by
  rw [platform, List.mem_filter, decide_eq_true_iff]

theorem Prefers.perm {preferred : List Text} (h : Prefers formatFn preferred group a)
    (hperm : group.Perm group') : Prefers formatFn preferred group' a := by
  obtain ⟨before, fmt, after, heq, hbefore, hone⟩ := h
  refine ⟨before, fmt, after, heq, fun f hf b hb => hbefore f hf b (hperm.mem_iff.mpr hb), ?_⟩
  exact List.perm_singleton.mp (hone ▸ (hperm.filter _).symm)

theorem Decides.perm (h : Decides formatFn cfg group a) (hperm : group.Perm group') :
    Decides formatFn cfg group' a := by
  rcases h with rfl | ⟨hlen, hids, hprefers⟩
  · exact .inl (List.perm_singleton.mp hperm.symm)
  · exact .inr ⟨hperm.length_eq ▸ hlen, hids, hprefers.perm hperm⟩

theorem Decides.mem (h : Decides formatFn cfg group a) : a ∈ group := by
  rcases h with rfl | ⟨-, -, before, fmt, after, -, -, hone⟩
  · exact List.mem_singleton.mpr rfl
  · exact List.mem_of_mem_filter (hone ▸ List.mem_singleton.mpr rfl)

/-! ### One platform -/

theorem map_positions (group : List T) (fmt : Text) :
    (positions formatFn group fmt).map group.get = group.filter (formatFn · = fmt) := by
  have hall : (List.finRange group.length).map group.get = group := by
    rw [← List.ofFn_eq_map, List.ofFn_get]
  conv_rhs => rw [← hall, List.filter_map]
  rfl

theorem positions_eq_nil :
    positions formatFn group fmt = [] ↔ ∀ b ∈ group, formatFn b ≠ fmt := by
  rw [← List.map_eq_nil_iff (f := group.get), map_positions, List.filter_eq_nil_iff]
  simp

theorem scanFormat_next :
    scanFormat formatFn labelFn cfg key group fmt () = .next () ↔
      positions formatFn group fmt = [] := by
  rw [scanFormat]
  split <;> simp_all

theorem scanFormat_ok {i : Fin group.length} :
    scanFormat formatFn labelFn cfg key group fmt () = .stop (.ok i) ↔
      positions formatFn group fmt = [i] := by
  rw [scanFormat]
  split <;> simp_all

theorem run_scanFormat_next {formats : List Text} :
    Loop.run (scanFormat formatFn labelFn cfg key group) formats () = .next () ↔
      ∀ f ∈ formats, positions formatFn group f = [] := by
  induction formats with
  | nil => simp
  | cons f formats ih =>
    rw [List.forall_mem_cons, ← ih]
    constructor
    · intro h
      cases hscan : scanFormat formatFn labelFn cfg key group f () with
      | next _ => exact ⟨scanFormat_next.mp hscan, Loop.run_cons_next hscan ▸ h⟩
      | stop e =>
        rw [Loop.run_cons_stop hscan] at h
        cases h
    · rintro ⟨hnil, hrun⟩
      rw [Loop.run_cons_next (scanFormat_next.mpr hnil), hrun]

theorem chosenIdx_ok {i : Fin group.length} :
    chosenIdx formatFn labelFn debug cfg key group = .ok i ↔ cfg.idsWasSet = false ∧
      ∃ before fmt after, cfg.preferredFormats = before ++ fmt :: after ∧
        (∀ f ∈ before, positions formatFn group f = []) ∧ positions formatFn group fmt = [i] := by
  rw [chosenIdx]
  cases hids : cfg.idsWasSet with
  | true => simp
  | false =>
    have hstop : Loop.run (scanFormat formatFn labelFn cfg key group) cfg.preferredFormats () =
        .stop (.ok i) ↔ ∃ before fmt after, cfg.preferredFormats = before ++ fmt :: after ∧
          (∀ f ∈ before, positions formatFn group f = []) ∧
          positions formatFn group fmt = [i] := by
      rw [Loop.run_eq_stop_iff]
      constructor
      · rintro ⟨before, fmt, _, ⟨after, heq, hbefore⟩, hscan⟩
        exact ⟨before, fmt, after, heq, run_scanFormat_next.mp hbefore, scanFormat_ok.mp hscan⟩
      · rintro ⟨before, fmt, after, heq, hbefore, hone⟩
        exact ⟨before, fmt, (), ⟨after, heq, run_scanFormat_next.mpr hbefore⟩,
          scanFormat_ok.mpr hone⟩
    rw [← hstop]
    cases hrun : Loop.run (scanFormat formatFn labelFn cfg key group) cfg.preferredFormats () with
    | next _ => simp
    | stop r => simp

/-- The preferences single out the entry at the chosen place. -/
theorem prefers_iff : cfg.idsWasSet = false ∧ Prefers formatFn cfg.preferredFormats group a ↔
    ∃ i, chosenIdx formatFn labelFn debug cfg key group = .ok i ∧ group.get i = a := by
  simp only [chosenIdx_ok, Prefers, ← positions_eq_nil]
  constructor
  · rintro ⟨hids, before, fmt, after, heq, hbefore, hone⟩
    rw [← map_positions, List.map_eq_singleton_iff] at hone
    obtain ⟨i, hi, ha⟩ := hone
    exact ⟨i, ⟨hids, before, fmt, after, heq, hbefore, hi⟩, ha⟩
  · rintro ⟨i, ⟨hids, before, fmt, after, heq, hbefore, hi⟩, rfl⟩
    refine ⟨hids, before, fmt, after, heq, hbefore, ?_⟩
    rw [← map_positions, hi]
    rfl

theorem resolveGroup_ok (hne : group ≠ []) :
    (∃ warnings, resolveGroup formatFn labelFn debug cfg key group = .ok (a, warnings)) ↔
      Decides formatFn cfg group a := by
  obtain ⟨b, rest, rfl⟩ := List.exists_cons_of_ne_nil hne
  cases rest with
  | nil => simp [resolveGroup, Decides]
  | cons c rest =>
    have hlen : 2 ≤ (b :: c :: rest).length := by simp
    rw [Decides, or_iff_right (by simp), and_iff_right hlen,
      @prefers_iff _ formatFn labelFn debug cfg _ key]
    cases hidx : chosenIdx formatFn labelFn debug cfg key (b :: c :: rest) with
    | error e => simp [resolveGroup, hidx, bind, Except.bind]
    | ok i => simp [resolveGroup, hidx, bind, Except.bind]

/-! ### All platforms -/

theorem run_visitGroup {gs : List (Text × List T)} {s : List Text × List T} {out : List T} :
    (∃ warned, Loop.run (visitGroup formatFn labelFn debug cfg) gs s = .next (warned, out)) ↔
      ∃ kept, out = s.2 ++ kept ∧ List.Forall₂ (fun p a => ∃ warnings,
        resolveGroup formatFn labelFn debug cfg p.1 p.2 = .ok (a, warnings)) gs kept := by
  induction gs generalizing s with
  | nil =>
    obtain ⟨w, r⟩ := s
    simp [eq_comm]
  | cons p gs ih =>
    cases hres : resolveGroup formatFn labelFn debug cfg p.1 p.2 with
    | error e =>
      have hvisit : visitGroup formatFn labelFn debug cfg p s = .stop ⟨s.1, .error e⟩ := by
        rw [visitGroup, hres]
      rw [Loop.run_cons_stop hvisit]
      simp [hres, List.forall₂_cons_left_iff]
    | ok chosen =>
      obtain ⟨b, w⟩ := chosen
      have hvisit : visitGroup formatFn labelFn debug cfg p s =
          .next (s.1 ++ w, s.2 ++ [b]) := by rw [visitGroup, hres]
      rw [Loop.run_cons_next hvisit, ih]
      constructor
      · rintro ⟨kept, rfl, hkept⟩
        exact ⟨b :: kept, by simp, .cons ⟨w, hres⟩ hkept⟩
      · rintro ⟨kept, rfl, hkept⟩
        obtain ⟨a, kept, ⟨w', ha⟩, hrest, rfl⟩ := List.forall₂_cons_left_iff.mp hkept
        obtain ⟨rfl, -⟩ := Prod.mk.inj (Except.ok.inj (hres.symm.trans ha))
        exact ⟨kept, by simp, hrest⟩

theorem result_ok {entries out : List T} :
    (disambiguateByFormatWithSink keyFn formatFn labelFn debug cfg entries).result = .ok out ↔
      ∃ warned, Loop.run (visitGroup formatFn labelFn debug cfg)
        (SortedGroups.groups keyFn entries) ([], []) = .next (warned, out) := by
  rw [disambiguateByFormatWithSink]
  cases hrun : Loop.run (visitGroup formatFn labelFn debug cfg)
    (SortedGroups.groups keyFn entries) ([], []) with
  | next s => simp [Prod.ext_iff]
  | stop outcome =>
    obtain ⟨p, hp, s, ⟨-, -, -⟩, hvisit⟩ := Loop.run_eq_stop_iff.mp hrun
    have herror : ∃ e, outcome.result = .error e := by
      rw [visitGroup] at hvisit
      split at hvisit
      · cases hvisit
      · cases hvisit
        exact ⟨_, rfl⟩
    obtain ⟨e, he⟩ := herror
    simp [he]

theorem forall₂_congr {α β : Type*} {R S : α → β → Prop} {l : List α} {m : List β}
    (h : ∀ a ∈ l, ∀ b, R a b ↔ S a b) : List.Forall₂ R l m ↔ List.Forall₂ S l m := by
  induction l generalizing m with
  | nil => rw [List.forall₂_nil_left_iff, List.forall₂_nil_left_iff]
  | cons a l ih =>
    obtain ⟨ha, hl⟩ := List.forall_mem_cons.mp h
    simp only [List.forall₂_cons_left_iff, ha, ih hl]

theorem exists_forall₂ {α β : Type*} {R : α → β → Prop} {l : List α} :
    (∃ m, List.Forall₂ R l m) ↔ ∀ a ∈ l, ∃ b, R a b := by
  induction l with
  | nil => exact ⟨fun _ => by simp, fun _ => ⟨[], .nil⟩⟩
  | cons a l ih =>
    rw [List.forall_mem_cons, ← ih]
    constructor
    · rintro ⟨m, h⟩
      obtain ⟨b, m, hb, hm, -⟩ := List.forall₂_cons_left_iff.mp h
      exact ⟨⟨b, hb⟩, m, hm⟩
    · rintro ⟨⟨b, hb⟩, m, hm⟩
      exact ⟨b :: m, .cons hb hm⟩

variable {entries out : List T}

theorem group_ne_nil {p : Text × List T} (hp : p ∈ SortedGroups.groups keyFn entries) :
    p.2 ≠ [] := by
  have hgrouped := SortedGroups.grouped keyFn entries
  obtain ⟨a, ha, hkey⟩ := List.mem_map.mp ((hgrouped.mem_keys p.1).mp (List.mem_map_of_mem hp))
  rw [hgrouped.group p hp]
  exact List.ne_nil_of_mem (List.mem_filter.mpr ⟨ha, decide_eq_true hkey⟩)

/-- A call succeeds with the deciding entry of each platform. -/
theorem result_ok_iff :
    (disambiguateByFormatWithSink keyFn formatFn labelFn debug cfg entries).result = .ok out ↔
      List.Forall₂ (fun p a => Decides formatFn cfg p.2 a)
        (SortedGroups.groups keyFn entries) out := by
  rw [result_ok, run_visitGroup]
  simp only [List.nil_append, exists_eq_left']
  exact forall₂_congr fun p hp a => resolveGroup_ok (group_ne_nil hp)

theorem exists_result_ok :
    (∃ out, (disambiguateByFormatWithSink keyFn formatFn labelFn debug cfg entries).result =
      .ok out) ↔ ∀ k, 2 ≤ (platform keyFn entries k).length →
        cfg.idsWasSet = false ∧ ∃ a, Prefers formatFn cfg.preferredFormats
          (platform keyFn entries k) a := by
  have hgrouped := SortedGroups.grouped keyFn entries
  simp only [result_ok_iff, exists_forall₂]
  constructor
  · intro h k hlen
    have hk : k ∈ (SortedGroups.groups keyFn entries).map Prod.fst := by
      have hpos : 0 < (platform keyFn entries k).length := by omega
      obtain ⟨a, ha⟩ := List.exists_mem_of_length_pos hpos
      exact (hgrouped.mem_keys k).mpr (List.mem_map.mpr ⟨a, mem_platform.mp ha⟩)
    obtain ⟨p, hp, rfl⟩ := List.mem_map.mp hk
    obtain ⟨a, hone | ⟨-, hids, hprefers⟩⟩ := h p hp
    · rw [platform, ← hgrouped.group p hp, hone, List.length_singleton] at hlen
      omega
    · rw [hgrouped.group p hp] at hprefers
      exact ⟨hids, a, hprefers⟩
  · intro h p hp
    by_cases hlen : 2 ≤ p.2.length
    · have hgroup : p.2 = platform keyFn entries p.1 := hgrouped.group p hp
      obtain ⟨hids, a, hprefers⟩ := h p.1 (hgroup ▸ hlen)
      exact ⟨a, .inr ⟨hlen, hids, hgroup ▸ hprefers⟩⟩
    · have hpos := List.length_pos_iff.mpr (group_ne_nil hp)
      obtain ⟨a, ha⟩ := List.length_eq_one_iff.mp (show p.2.length = 1 by omega)
      exact ⟨a, .inl ha⟩

/-- The entries of a result have the keys of the platforms, in their order. -/
theorem map_key_result
    (h : List.Forall₂ (fun p a => Decides formatFn cfg p.2 a)
      (SortedGroups.groups keyFn entries) out) :
    out.map keyFn = (SortedGroups.groups keyFn entries).map Prod.fst := by
  have hgroup : ∀ p ∈ SortedGroups.groups keyFn entries, p.2 = platform keyFn entries p.1 :=
    (SortedGroups.grouped keyFn entries).group
  revert h hgroup
  generalize SortedGroups.groups keyFn entries = gs
  intro h hgroup
  induction h with
  | nil => rfl
  | cons hdecides _ ih =>
    obtain ⟨hp, hgs⟩ := List.forall_mem_cons.mp hgroup
    have hkey := (mem_platform.mp (hp ▸ hdecides.mem)).2
    rw [List.map_cons, List.map_cons, ih hgs, hkey]

theorem decides_of_mem_result
    (h : List.Forall₂ (fun p a => Decides formatFn cfg p.2 a)
      (SortedGroups.groups keyFn entries) out) (ha : a ∈ out) :
    Decides formatFn cfg (platform keyFn entries (keyFn a)) a := by
  obtain ⟨p, hp, hdecides⟩ : ∃ p ∈ SortedGroups.groups keyFn entries,
      Decides formatFn cfg p.2 a := by
    obtain ⟨i, hi, rfl⟩ := List.mem_iff_getElem.mp ha
    have hlen := h.length_eq
    exact ⟨_, List.getElem_mem (by omega), h.get (by omega) hi⟩
  have hgroup : p.2 = platform keyFn entries p.1 := (SortedGroups.grouped keyFn entries).group p hp
  have hkey := (mem_platform.mp (hgroup ▸ hdecides.mem)).2
  rwa [hkey, ← hgroup]

theorem result_perm {entries' : List T} (hperm : entries.Perm entries')
    (h : (disambiguateByFormatWithSink keyFn formatFn labelFn debug cfg entries).result = .ok out) :
    (disambiguateByFormatWithSink keyFn formatFn labelFn debug cfg entries').result = .ok out := by
  have hgroups := (SortedGroups.grouped keyFn entries).perm (SortedGroups.grouped keyFn entries')
    hperm
  rw [result_ok_iff] at h ⊢
  revert h
  generalize SortedGroups.groups keyFn entries = gs at hgroups
  generalize SortedGroups.groups keyFn entries' = gs' at hgroups
  intro h
  induction hgroups generalizing out with
  | nil => exact h
  | cons hp _ ih =>
    obtain ⟨a, out, ha, hout, rfl⟩ := List.forall₂_cons_left_iff.mp h
    exact .cons (ha.perm hp.2) (ih hout)

/-- Preference alone decides which archive each platform keeps. -/
theorem disambiguateByFormat_spec (keyFn formatFn labelFn : T → Text) (debug : Text → Text)
    (cfg : InnerConfig) (entries : List T) :
    let run := fun l =>
      (disambiguateByFormatWithSink keyFn formatFn labelFn debug cfg l).result
    ((∃ out, run entries = .ok out) ↔ ∀ k, 2 ≤ (platform keyFn entries k).length →
      cfg.idsWasSet = false ∧ ∃ a, Prefers formatFn cfg.preferredFormats
        (platform keyFn entries k) a) ∧
    (∀ out, run entries = .ok out →
      out.Pairwise (fun a b => keyFn a < keyFn b) ∧
      (∀ k, k ∈ out.map keyFn ↔ k ∈ entries.map keyFn) ∧
      ∀ a ∈ out, a ∈ entries ∧ Decides formatFn cfg (platform keyFn entries (keyFn a)) a) ∧
    ∀ entries', entries.Perm entries' → (run entries').toOption = (run entries).toOption := by
  refine ⟨exists_result_ok, fun out hout => ?_, fun entries' hperm => ?_⟩
  · have hall := result_ok_iff.mp hout
    have hkeys := map_key_result hall
    have hgrouped := SortedGroups.grouped keyFn entries
    refine ⟨?_, fun k => ?_, fun a ha => ?_⟩
    · rw [← List.pairwise_map (f := keyFn) (R := (· < ·)), hkeys]
      exact List.pairwise_map.mpr hgrouped.sorted
    · rw [hkeys, hgrouped.mem_keys]
    · have hdecides := decides_of_mem_result hall ha
      exact ⟨List.mem_of_mem_filter hdecides.mem, hdecides⟩
  · have hok : ∀ {r : Except Text (List T)} {out}, r.toOption = some out ↔ r = .ok out := by
      intro r out
      cases r <;> simp [Except.toOption]
    refine Option.ext fun out => ?_
    exact hok.trans ((Iff.intro (result_perm hperm.symm) (result_perm hperm)).trans hok.symm)

end Anodizer.Disambiguate
