import Anodizer.Changelog.GroupRender

/-! # Accounting for commits

The groups hold no commit twice. A commit is dropped only below a group that has subgroups, by
those that do not match it, and it is rendered unless it lies too deep.
-/

namespace Anodizer.Changelog.Grouping

open Template (Text)
open Partition

section Conditions

variable (regex : Text → Except Text (Text → Bool))

/-- The group that catches a commit: the first that matches it, or the one for the rest. -/
def groupOf (groups : List GroupConfig) (c : CommitInfo) : Option ℕ :=
  (compileTree regex groups).toOption.bind fun compiled => classify compiled c.rawMessage

/-- The commits that a group catches. -/
def caught (groups : List GroupConfig) (commits : List CommitInfo) (i : ℕ) : List CommitInfo :=
  bucket (groupOf regex groups) commits i

/-- The commits that one of the groups catches. Below the last level all are. -/
def placed : ℕ → List CommitInfo → List GroupConfig → List CommitInfo
  | 0, commits, _ => commits
  | _ + 1, commits, groups => commits.filter fun c => (groupOf regex groups c).isSome

/-- There is something to show. -/
def Splits : ℕ → List CommitInfo → List GroupConfig → Prop
  | 0, commits, _ => commits ≠ []
  | _ + 1, commits, groups =>
    ∃ gi ∈ groups.zipIdx, caught regex groups commits gi.2 ≠ [] ∨ gi.1.groups ≠ []

/-- Where the subgroups of a group show anything, they catch every commit of the group. -/
def Kept : ℕ → List CommitInfo → List GroupConfig → Prop
  | 0, _, _ => True
  | levels + 1, commits, groups => ∀ gi ∈ groups.zipIdx, gi.1.groups ≠ [] →
    Splits regex levels (caught regex groups commits gi.2) gi.1.groups →
      placed regex levels (caught regex groups commits gi.2) gi.1.groups =
          caught regex groups commits gi.2 ∧
        Kept levels (caught regex groups commits gi.2) gi.1.groups

/-- No commit lies deeper than the given number of groups. -/
def Flat : ℕ → ℕ → List CommitInfo → List GroupConfig → Prop
  | 0, levels, commits, groups => placed regex levels commits groups = []
  | _ + 1, 0, _, _ => True
  | r + 1, levels + 1, commits, groups => ∀ gi ∈ groups.zipIdx, gi.1.groups ≠ [] →
    Splits regex levels (caught regex groups commits gi.2) gi.1.groups →
      Flat r levels (caught regex groups commits gi.2) gi.1.groups

end Conditions

variable {regex : Text → Except Text (Text → Bool)} {levels r : ℕ} {commits : List CommitInfo}
  {groups : List GroupConfig} {tree : List GroupedCommits}

/-! ### Commits of the groups -/

theorem caught_eq {compiled : List Compiled} (h : compileTree regex groups = .ok compiled) (i : ℕ) :
    caught regex groups commits i = commitBucket compiled commits i := by
  rw [caught, commitBucket, bucket, bucket]
  refine List.filter_congr fun c _ => ?_
  rw [groupOf, h]
  rfl

theorem length_compileTree {compiled : List Compiled} (h : compileTree regex groups = .ok compiled) :
    compiled.length = groups.length := by
  have hmap := congrArg List.length (Traverse.mapM_eq_ok.mp h)
  rw [List.length_map, List.length_map, List.length_map] at hmap
  exact hmap.symm

/-- The groups together catch the commits that are placed. -/
theorem flatten_caught_perm {compiled : List Compiled}
    (h : compileTree regex groups = .ok compiled) (levels : ℕ) :
    (groups.zipIdx.map fun gi => caught regex groups commits gi.2).flatten.Perm
      (placed regex (levels + 1) commits groups) := by
  have hidx : groups.zipIdx.map (·.2) = List.range groups.length := by
    rw [List.zipIdx_eq_zip_range', List.range_eq_range']
    exact List.map_snd_zip (by simp)
  have hmap : (groups.zipIdx.map fun gi => caught regex groups commits gi.2).flatten =
      (List.range groups.length).flatMap (bucket (groupOf regex groups) commits) := by
    rw [← hidx, List.flatMap_map]
    rfl
  rw [hmap]
  refine flatMap_bucket_perm_of_mem List.nodup_range fun c _ i hi => ?_
  rw [groupOf, h] at hi
  rw [List.mem_range, ← length_compileTree h]
  exact classify_lt hi

theorem placed_sublist (levels : ℕ) (commits : List CommitInfo) (groups : List GroupConfig) :
    (placed regex levels commits groups).Sublist commits := by
  cases levels with
  | zero => exact .refl _
  | succ levels => exact List.filter_sublist

theorem reduceOption_eq_nil {α : Type*} {l : List (Option α)} :
    l.reduceOption = [] ↔ ∀ o ∈ l, o = none := by
  induction l with
  | nil => simp
  | cons o l ih => cases o <;> simp [ih]

theorem displayed_eq_nil {nodes : List (Option (ℤ × GroupedCommits))} :
    displayed nodes = [] ↔ ∀ node ∈ nodes, node = none := by
  rw [← reduceOption_eq_nil, ← List.length_eq_zero_iff, ← List.length_eq_zero_iff,
    (displayed_perm nodes).length_eq, List.length_map]

/-- A group is left out when it has nothing to show. -/
theorem isNode_none_iff {recurse : List CommitInfo → List GroupConfig →
    Except PromoteError (List GroupedCommits)} {bucket : List CommitInfo} {g : GroupConfig}
    {node : Option (ℤ × GroupedCommits)} (h : IsNode recurse bucket g node) :
    node = none ↔ bucket = [] ∧ g.groups = [] := by
  cases h with
  | absent hbucket hgroups => exact iff_of_true rfl ⟨hbucket, hgroups⟩
  | own k hbucket hgroups => exact iff_of_false (by simp) fun h => hbucket h.1
  | kept k hgroups hrec => exact iff_of_false (by simp) fun h => hgroups h.2
  | split k subgroups hgroups hrec hne => exact iff_of_false (by simp) fun h => hgroups h.2

theorem tree_ne_nil_iff (h : groupCommitsInner regex levels commits groups = .ok tree) :
    tree ≠ [] ↔ Splits regex levels commits groups := by
  cases levels with
  | zero =>
    obtain rfl := Except.ok.inj h
    by_cases hc : commits = [] <;> simp [Splits, hc]
  | succ levels =>
    obtain ⟨compiled, nodes, hcompiled, rfl, hnodes⟩ := groupCommitsInner_succ h
    rw [ne_eq, displayed_eq_nil, Splits]
    simp only [caught_eq hcompiled]
    clear h
    generalize groups.zipIdx = l at hnodes ⊢
    induction hnodes with
    | nil => simp
    | cons hnode _ ih =>
      rw [List.forall_mem_cons, not_and_or, ih, isNode_none_iff hnode, not_and_or]
      simp only [List.mem_cons, exists_eq_or_imp, ne_eq]

/-- What a node holds of the commits of its group: at most those, and all of them when none is
dropped below it. -/
structure Holds (bucket : List CommitInfo) (kept : Prop) (node : Option (ℤ × GroupedCommits)) :
    Prop where
  subperm : (nodeCommits node).Subperm bucket
  length_iff : (nodeCommits node).length = bucket.length ↔ kept

theorem nodeCommits_own {k : ℤ} {title : Text} {bucket : List CommitInfo} :
    nodeCommits (some (k, .mk title bucket [])) = bucket := by
  rw [nodeCommits, Option.map_some, Option.getD_some, GroupedCommits.all, allCommits,
    List.append_nil]

theorem nodeCommits_split {k : ℤ} {title : Text} {subgroups : List GroupedCommits} :
    nodeCommits (some (k, .mk title [] subgroups)) = allCommits subgroups := by
  rw [nodeCommits, Option.map_some, Option.getD_some, GroupedCommits.all, List.nil_append]

theorem holds_of_isNode {bucket : List CommitInfo} {g : GroupConfig}
    {node : Option (ℤ × GroupedCommits)}
    (h : IsNode (groupCommitsInner regex levels) bucket g node)
    (ih : ∀ subgroups, groupCommitsInner regex levels bucket g.groups = .ok subgroups →
      (allCommits subgroups).Subperm (placed regex levels bucket g.groups) ∧
        ((allCommits subgroups).length = (placed regex levels bucket g.groups).length ↔
          Kept regex levels bucket g.groups)) :
    Holds bucket (g.groups ≠ [] → Splits regex levels bucket g.groups →
      placed regex levels bucket g.groups = bucket ∧ Kept regex levels bucket g.groups) node := by
  cases h with
  | absent hbucket hgroups =>
    exact ⟨List.nil_subperm, iff_of_true (by rw [hbucket]; rfl) fun hne => absurd hgroups hne⟩
  | own k hbucket hgroups =>
    refine ⟨nodeCommits_own ▸ List.Subperm.refl _, iff_of_true ?_ fun hne => absurd hgroups hne⟩
    rw [nodeCommits_own]
  | kept k hgroups hrec =>
    refine ⟨nodeCommits_own ▸ List.Subperm.refl _, iff_of_true ?_ fun _ hsplits => ?_⟩
    · rw [nodeCommits_own]
    · exact absurd rfl ((tree_ne_nil_iff hrec).mpr hsplits)
  | split k subgroups hgroups hrec hne =>
    obtain ⟨hsub, hlen⟩ := ih subgroups hrec
    have hplaced : (placed regex levels bucket g.groups).Sublist bucket :=
      placed_sublist levels bucket g.groups
    have hsplits := (tree_ne_nil_iff hrec).mp hne
    constructor
    · rw [nodeCommits_split]
      exact hsub.trans hplaced.subperm
    · rw [nodeCommits_split]
      have hle := hsub.length_le
      have hle' := hplaced.length_le
      constructor
      · intro h _ _
        exact ⟨hplaced.eq_of_length_le (by omega), hlen.mp (by omega)⟩
      · intro h
        obtain ⟨hall, hkept⟩ := h hgroups hsplits
        rw [hlen.mpr hkept, hall]

theorem map_forall₂ {α β : Type*} {R : α → β → Prop} {f : β → List CommitInfo}
    {g : α → List CommitInfo} {S : List CommitInfo → List CommitInfo → Prop} {l : List α}
    {l' : List β} (h : List.Forall₂ R l l') (hRS : ∀ a b, R a b → S (f b) (g a)) :
    List.Forall₂ S (l'.map f) (l.map g) := by
  rw [List.forall₂_map_left_iff, List.forall₂_map_right_iff]
  exact h.flip.imp fun b a hab => hRS a b hab

/-- The nodes of some groups hold all the commits of the groups when each does. -/
theorem flatten_length_iff {α : Type*} {bucket : α → List CommitInfo} {kept : α → Prop} {l : List α}
    {nodes : List (Option (ℤ × GroupedCommits))}
    (h : List.Forall₂ (fun a node => Holds (bucket a) (kept a) node) l nodes) :
    (nodes.map nodeCommits).flatten.length = (l.map bucket).flatten.length ↔ ∀ a ∈ l, kept a := by
  induction h with
  | nil => simp
  | @cons a node l nodes hnode hnodes ih =>
    have hle := hnode.subperm.length_le
    have hle' := (subperm_flatten (map_forall₂ hnodes fun a node h => h.subperm)).length_le
    rw [List.forall_mem_cons, ← ih, ← hnode.length_iff, List.map_cons, List.map_cons,
      List.flatten_cons, List.flatten_cons, List.length_append, List.length_append]
    omega

/-- The groups hold at most the commits that are placed, and all of them when none is dropped. -/
theorem allCommits_spec (h : groupCommitsInner regex levels commits groups = .ok tree) :
    (allCommits tree).Subperm (placed regex levels commits groups) ∧
      ((allCommits tree).length = (placed regex levels commits groups).length ↔
        Kept regex levels commits groups) := by
  induction levels generalizing commits groups tree with
  | zero =>
    obtain rfl := Except.ok.inj h
    have hall : allCommits (if commits = [] then [] else [.mk "Others".toList commits []]) =
        commits := by
      split
      · next hnil => rw [hnil, allCommits]
      · rw [allCommits, GroupedCommits.all, allCommits, List.append_nil, List.append_nil]
    rw [hall]
    exact ⟨.refl _, iff_of_true rfl trivial⟩
  | succ levels ih =>
    obtain ⟨compiled, nodes, hcompiled, rfl, hnodes⟩ := groupCommitsInner_succ h
    have hholds : List.Forall₂ (fun gi node => Holds (caught regex groups commits gi.2)
        (gi.1.groups ≠ [] → Splits regex levels (caught regex groups commits gi.2) gi.1.groups →
          placed regex levels (caught regex groups commits gi.2) gi.1.groups =
              caught regex groups commits gi.2 ∧
            Kept regex levels (caught regex groups commits gi.2) gi.1.groups) node)
        groups.zipIdx nodes := by
      refine hnodes.imp fun gi node hnode => ?_
      rw [caught_eq hcompiled]
      exact holds_of_isNode hnode fun subgroups hsub => ih hsub
    have hperm := allCommits_displayed nodes
    have hcaught : (groups.zipIdx.map fun gi => caught regex groups commits gi.2).flatten.Perm
        (placed regex (levels + 1) commits groups) := flatten_caught_perm hcompiled levels
    have hsub : List.Forall₂ List.Subperm (nodes.map nodeCommits)
        (groups.zipIdx.map fun gi => caught regex groups commits gi.2) :=
      map_forall₂ hholds fun gi node h => h.subperm
    refine ⟨(hperm.subperm.trans (subperm_flatten hsub)).trans hcaught.subperm, ?_⟩
    rw [hperm.length_eq, ← hcaught.length_eq, Kept]
    exact flatten_length_iff hholds

/-! ### Rendering -/

/-- The commits down to a number of levels. -/
def upTo : ℕ → List GroupedCommits → List CommitInfo
  | 0, _ => []
  | r + 1, gs => gs.flatMap fun g => g.commits ++ upTo r g.subgroups

theorem all_eq (g : GroupedCommits) : g.all = g.commits ++ allCommits g.subgroups := by
  cases g
  rw [GroupedCommits.all]
  rfl

theorem upTo_sublist (r : ℕ) (gs : List GroupedCommits) : (upTo r gs).Sublist (allCommits gs) := by
  induction r generalizing gs with
  | zero => exact List.nil_sublist _
  | succ r ih =>
    rw [allCommits_eq_flatMap, upTo]
    induction gs with
    | nil => exact .refl _
    | cons g gs ihgs =>
      rw [List.flatMap_cons, List.flatMap_cons, all_eq]
      exact ((ih g.subgroups).append_left _).append ihgs

theorem append_eq_append_iff {a a' b b' : List CommitInfo} (ha : a.Sublist a') (hb : b.Sublist b') :
    a ++ b = a' ++ b' ↔ a = a' ∧ b = b' := by
  refine ⟨fun h => ?_, fun ⟨ha, hb⟩ => by rw [ha, hb]⟩
  have hlen := congrArg List.length h
  rw [List.length_append, List.length_append] at hlen
  have hla := ha.length_le
  have hlb := hb.length_le
  exact ⟨ha.eq_of_length_le (by omega), hb.eq_of_length_le (by omega)⟩

/-- Every commit lies in the first levels when those of the subgroups lie in one less. -/
theorem upTo_succ_iff (r : ℕ) (gs : List GroupedCommits) : upTo (r + 1) gs = allCommits gs ↔
    ∀ g ∈ gs, upTo r g.subgroups = allCommits g.subgroups := by
  induction gs with
  | nil => simp [upTo, allCommits]
  | cons g gs ih =>
    have hcons : upTo (r + 1) (g :: gs) = (g.commits ++ upTo r g.subgroups) ++ upTo (r + 1) gs :=
      List.flatMap_cons
    rw [hcons, allCommits, all_eq, append_eq_append_iff
      ((upTo_sublist r g.subgroups).append_left _) (upTo_sublist (r + 1) gs), ih,
      List.forall_mem_cons, List.append_right_inj]

theorem mem_displayed {g : GroupedCommits} {nodes : List (Option (ℤ × GroupedCommits))} :
    g ∈ displayed nodes ↔ ∃ k, some (k, g) ∈ nodes := by
  rw [(displayed_perm nodes).mem_iff, List.mem_map]
  constructor
  · rintro ⟨⟨k, g'⟩, hmem, rfl⟩
    exact ⟨k, List.reduceOption_mem_iff.mp hmem⟩
  · rintro ⟨k, hmem⟩
    exact ⟨(k, g), List.reduceOption_mem_iff.mpr hmem, rfl⟩

theorem forall₂_mem_right {α β : Type*} {R : α → β → Prop} {l : List α} {l' : List β}
    (h : List.Forall₂ R l l') {b : β} (hb : b ∈ l') : ∃ a ∈ l, R a b := by
  induction h with
  | nil => cases hb
  | cons hab _ ih =>
    rcases List.mem_cons.mp hb with rfl | hb
    · exact ⟨_, List.mem_cons_self, hab⟩
    · obtain ⟨a, ha, hR⟩ := ih hb
      exact ⟨a, List.mem_cons_of_mem _ ha, hR⟩

theorem forall₂_mem_left {α β : Type*} {R : α → β → Prop} {l : List α} {l' : List β}
    (h : List.Forall₂ R l l') {a : α} (ha : a ∈ l) : ∃ b ∈ l', R a b :=
  forall₂_mem_right h.flip ha

/-- The commits that are kept lie in the first levels exactly when none lies deeper. -/
theorem upTo_iff (h : groupCommitsInner regex levels commits groups = .ok tree)
    (hkept : Kept regex levels commits groups) :
    upTo r tree = allCommits tree ↔ Flat regex r levels commits groups := by
  induction r generalizing levels commits groups tree with
  | zero =>
    have hlen := (allCommits_spec h).2.mpr hkept
    rw [Flat, ← List.length_eq_zero_iff, ← hlen, List.length_eq_zero_iff]
    exact eq_comm
  | succ r ih =>
    cases levels with
    | zero =>
      obtain rfl := Except.ok.inj h
      refine iff_of_true ((upTo_succ_iff r _).mpr fun g hg => ?_) trivial
      split at hg
      · cases hg
      · obtain rfl := List.mem_singleton.mp hg
        exact List.sublist_nil.mp (upTo_sublist r [])
    | succ levels =>
      obtain ⟨compiled, nodes, hcompiled, rfl, hnodes⟩ := groupCommitsInner_succ h
      simp only [← caught_eq hcompiled] at hnodes
      rw [upTo_succ_iff, Flat]
      constructor
      · intro hup gi hgi hgroups hsplits
        obtain ⟨node, hnode, his⟩ := forall₂_mem_left hnodes hgi
        have hkeep := (hkept gi hgi hgroups hsplits).2
        cases his with
        | absent _ hnil => exact absurd hnil hgroups
        | own k _ hnil => exact absurd hnil hgroups
        | kept k _ hrec => exact absurd rfl ((tree_ne_nil_iff hrec).mpr hsplits)
        | split k subgroups _ hrec _ =>
          exact (ih hrec hkeep).mp (hup _ (mem_displayed.mpr ⟨k, hnode⟩))
      · intro hflat g hg
        obtain ⟨k, hnode⟩ := mem_displayed.mp hg
        obtain ⟨gi, hgi, his⟩ := forall₂_mem_right hnodes hnode
        have hnil : upTo r [] = allCommits [] := List.sublist_nil.mp (upTo_sublist r [])
        cases his with
        | own k _ _ => exact hnil
        | kept k _ _ => exact hnil
        | split k subgroups hgroups hrec hne =>
          have hsplits := (tree_ne_nil_iff hrec).mp hne
          exact (ih hrec (hkept gi hgi hgroups hsplits).2).mpr (hflat gi hgi hgroups hsplits)

variable {render : Text → CommitVars → Except Text Text} {state : RenderGroupsState}
  {pieces : List Piece} {c : CommitInfo} {line : Text}

theorem bulletCommits_append (ps qs : List Piece) :
    bulletCommits (ps ++ qs) = bulletCommits ps ++ bulletCommits qs := List.filterMap_append

theorem bulletCommits_groupHead (divider : Option Text) (depth i : ℕ) (title : Text) :
    bulletCommits (groupHead divider depth i title) = [] := by
  rw [groupHead, bulletCommits_append]
  cases divider <;> by_cases hi : 0 < i <;> by_cases ht : title = [] <;> simp [hi, ht, bulletCommits]

/-- A line of a commit is a bullet. -/
theorem renderCommitLine_bullet (h : renderCommitLine render state c = .ok line) :
    startsWithBullet line ∧ state.newline <:+ line := by
  have hrendered : ∃ rendered, line =
      if startsWithBullet rendered then rendered ++ state.newline
      else "* ".toList ++ rendered ++ state.newline := by
    rw [renderCommitLine] at h
    cases hr : render state.tmpl (commitVars state c) with
    | error e =>
      rw [hr] at h
      cases h
    | ok rendered =>
      rw [hr] at h
      exact ⟨_, (Except.ok.inj h).symm⟩
  obtain ⟨rendered, rfl⟩ := hrendered
  split
  · next hstart =>
    refine ⟨?_, List.suffix_append _ _⟩
    simp only [startsWithBullet, List.any_eq_true] at hstart ⊢
    obtain ⟨marker, hmarker, hpre⟩ := hstart
    refine ⟨marker, hmarker, ?_⟩
    rw [List.isPrefixOf_iff_prefix] at hpre ⊢
    have hne : Template.trimStart rendered ≠ [] := by
      intro hnil
      rw [hnil, List.prefix_nil] at hpre
      revert marker
      decide
    rw [Template.trimStart] at hpre hne ⊢
    rw [List.dropWhile_append, if_neg (by simpa using hne)]
    exact hpre.trans (List.prefix_append _ _)
  · exact ⟨rfl, List.suffix_append _ _⟩

/-- The bullet of a commit. -/
def IsBullet (render : Text → CommitVars → Except Text Text) (state : RenderGroupsState)
    (c : CommitInfo) (piece : Piece) : Prop :=
  ∃ line, renderCommitLine render state c = .ok line ∧ piece = .bullet c line

theorem bulletCommits_bullets {commits : List CommitInfo}
    (h : List.Forall₂ (IsBullet render state) commits pieces) : bulletCommits pieces = commits := by
  induction h with
  | nil => rfl
  | cons hc _ ih =>
    obtain ⟨line, -, rfl⟩ := hc
    exact congrArg (_ :: ·) ih

/-- What a rendered group is made of. -/
theorem renderGroup_spec {recurse : List GroupedCommits → Except RenderError (List Piece)}
    {depth i : ℕ} {g : GroupedCommits} (h : renderGroup render state recurse depth i g = .ok pieces) :
    ∃ bullets below, List.Forall₂ (IsBullet render state) g.commits bullets ∧
      (g.subgroups = [] ∧ below = [] ∨ recurse g.subgroups = .ok below) ∧
      pieces = groupHead state.divider depth i g.title ++ bullets ++ below ++
        if !g.commits.isEmpty || g.subgroups.isEmpty then [.blank] else [] := by
  obtain ⟨bullets, hbullets, h⟩ := Traverse.bind_eq_ok.mp h
  have hmap := Traverse.mapM_eq_ok.mp hbullets
  rw [← List.forall₂_eq_eq_eq, List.forall₂_map_left_iff, List.forall₂_map_right_iff] at hmap
  have hall : List.Forall₂ (IsBullet render state) g.commits bullets := by
    refine hmap.imp fun c piece hpiece => ?_
    cases hline : renderCommitLine render state c with
    | error e =>
      rw [hline] at hpiece
      cases hpiece
    | ok line =>
      rw [hline] at hpiece
      exact ⟨line, hline, (Except.ok.inj hpiece).symm⟩
  by_cases hsub : g.subgroups = []
  · rw [if_pos (List.isEmpty_iff.mpr hsub)] at h
    exact ⟨bullets, [], hall, .inl ⟨hsub, rfl⟩, (Except.ok.inj h).symm⟩
  · rw [if_neg (by simpa using hsub)] at h
    obtain ⟨below, hbelow, h⟩ := Traverse.bind_eq_ok.mp h
    exact ⟨bullets, below, hall, .inr hbelow, (Except.ok.inj h).symm⟩

/-- The rendered groups of a level, one by one. -/
theorem renderLevels_succ {gs : List GroupedCommits}
    (h : renderLevels render (r + 1) state gs = .ok pieces) :
    ∃ parts, pieces = parts.flatten ∧ List.Forall₂ (fun g part => ∃ depth i,
      renderGroup render state (renderLevels render r { state with divider := none }) depth i g =
        .ok part) gs parts := by
  rw [renderLevels] at h
  cases hparts : gs.zipIdx.mapM fun gi => renderGroup render state
      (renderLevels render r { state with divider := none }) (maxLevels - r) gi.2 gi.1 with
  | error e =>
    rw [hparts] at h
    cases h
  | ok parts =>
    rw [hparts] at h
    refine ⟨parts, (Except.ok.inj h).symm, ?_⟩
    have hmap := Traverse.mapM_eq_ok.mp hparts
    rw [← List.forall₂_eq_eq_eq, List.forall₂_map_left_iff, List.forall₂_map_right_iff] at hmap
    have hfst : gs.zipIdx.map (·.1) = gs := by simp
    rw [← hfst, List.forall₂_map_left_iff]
    exact hmap.imp fun gi part hpart => ⟨_, gi.2, hpart⟩

/-- The bullets are those of the commits of the first levels. -/
theorem bulletCommits_renderLevels {gs : List GroupedCommits}
    (h : renderLevels render r state gs = .ok pieces) : bulletCommits pieces = upTo r gs := by
  induction r generalizing state gs pieces with
  | zero =>
    obtain rfl := Except.ok.inj h
    rfl
  | succ r ih =>
    obtain ⟨parts, rfl, hparts⟩ := renderLevels_succ h
    clear h
    rw [upTo]
    induction hparts with
    | nil => rfl
    | @cons g part gs parts hpart _ ihparts =>
      obtain ⟨depth, i, hpart⟩ := hpart
      obtain ⟨bullets, below, hbullets, hbelow, rfl⟩ := renderGroup_spec hpart
      have hend : ∀ b : Bool, bulletCommits (if b then [.blank] else []) = [] := by decide
      have hsub : bulletCommits below = upTo r g.subgroups := by
        rcases hbelow with ⟨hnil, rfl⟩ | hbelow
        · rw [hnil, List.sublist_nil.mp (upTo_sublist r [])]
          rfl
        · exact ih hbelow
      rw [List.flatten_cons, List.flatMap_cons, bulletCommits_append, ihparts, bulletCommits_append,
        bulletCommits_append, bulletCommits_append, bulletCommits_groupHead,
        bulletCommits_bullets hbullets, hsub, hend, List.nil_append, List.append_nil]

/-- Every bullet opens with a marker and ends its line. -/
theorem bullet_renderLevels {gs : List GroupedCommits}
    (h : renderLevels render r state gs = .ok pieces) (hmem : .bullet c line ∈ pieces) :
    startsWithBullet line ∧ state.newline <:+ line := by
  induction r generalizing state gs pieces with
  | zero =>
    obtain rfl := Except.ok.inj h
    cases hmem
  | succ r ih =>
    obtain ⟨parts, rfl, hparts⟩ := renderLevels_succ h
    obtain ⟨part, hpart, hmem⟩ := List.mem_flatten.mp hmem
    obtain ⟨g, -, depth, i, hg⟩ := forall₂_mem_right hparts hpart
    obtain ⟨bullets, below, hbullets, hbelow, rfl⟩ := renderGroup_spec hg
    rw [List.mem_append, List.mem_append, List.mem_append] at hmem
    rcases hmem with ((hhead | hmem) | hmem) | hend
    · have hnone : c ∈ bulletCommits (groupHead state.divider depth i g.title) :=
        List.mem_filterMap.mpr ⟨_, hhead, rfl⟩
      rw [bulletCommits_groupHead] at hnone
      cases hnone
    · obtain ⟨c', -, line', hline, heq⟩ := forall₂_mem_right hbullets hmem
      obtain ⟨rfl, rfl⟩ := Piece.bullet.inj heq
      exact renderCommitLine_bullet hline
    · rcases hbelow with ⟨-, rfl⟩ | hbelow
      · cases hmem
      · exact @ih { state with divider := none } below g.subgroups hbelow hmem
    · split at hend
      · cases List.mem_singleton.mp hend
      · cases hend

/-- A format that renders for every commit renders every tree. -/
theorem renderLevels_total (hrender : ∀ vars, ∃ t, render state.tmpl vars = .ok t)
    (gs : List GroupedCommits) : ∃ pieces, renderLevels render r state gs = .ok pieces := by
  induction r generalizing state gs with
  | zero => exact ⟨[], rfl⟩
  | succ r ih =>
    have hgroup : ∀ gi ∈ gs.zipIdx, ∃ part, renderGroup render state
        (renderLevels render r { state with divider := none }) (maxLevels - r) gi.2 gi.1 =
          .ok part := by
      intro gi _
      have hline : ∀ c ∈ gi.1.commits, ∃ piece,
          (renderCommitLine render state c).map (Piece.bullet c) = .ok piece := by
        intro c _
        obtain ⟨t, ht⟩ := hrender (commitVars state c)
        rw [renderCommitLine, ht]
        exact ⟨_, rfl⟩
      obtain ⟨bullets, hbullets⟩ := Traverse.exists_mapM_eq_ok.mpr hline
      obtain ⟨below, hbelow⟩ := @ih { state with divider := none } hrender gi.1.subgroups
      rw [renderGroup, hbullets]
      by_cases hsub : gi.1.subgroups.isEmpty
      · exact ⟨_, by simp only [hsub, if_true]; rfl⟩
      · exact ⟨_, by simp only [hsub, hbelow]; rfl⟩
    obtain ⟨parts, hparts⟩ := Traverse.exists_mapM_eq_ok.mpr hgroup
    exact ⟨parts.flatten, by rw [renderLevels, hparts]; rfl⟩

/-! ### The account -/

section Account

variable (regex)

/-- The node of a group holds the commits that the group catches. -/
def HoldsCaught (groups : List GroupConfig) (commits : List CommitInfo) (gi : GroupConfig × ℕ)
    (node : Option GroupedCommits) : Prop :=
  (∀ n ∈ node, n.title = gi.1.group.title) ∧
    ((node.map GroupedCommits.all).getD []).Perm (caught regex groups commits gi.2)

/-- Every commit is accounted for by the tree of the groups and by its rendering. -/
structure Accounted (commits : List CommitInfo) (groups : List GroupConfig)
    (tree : List GroupedCommits) : Prop where
  at_most_once : (allCommits tree).Subperm commits
  under_group : ∃ nodes : List (Option GroupedCommits), tree.Perm nodes.reduceOption ∧
    List.Forall₂ (HoldsCaught regex groups commits) groups.zipIdx nodes
  one_bullet : ∀ render state pieces, renderGroups render state tree 3 = .ok pieces →
    bulletCommits pieces = allCommits tree ∧
      ∀ c line, .bullet c line ∈ pieces → startsWithBullet line ∧ state.newline <:+ line

end Account

theorem title_of_isNode {recurse : List CommitInfo → List GroupConfig →
    Except PromoteError (List GroupedCommits)} {bucket : List CommitInfo} {g : GroupConfig}
    {node : Option (ℤ × GroupedCommits)} (h : IsNode recurse bucket g node) :
    ∀ n ∈ node.map (·.2), n.title = g.group.title := by
  intro n hn
  cases h with
  | absent _ _ => cases hn
  | own k _ _ => rw [← Option.some.inj hn]; rfl
  | kept k _ _ => rw [← Option.some.inj hn]; rfl
  | split k subgroups _ _ _ => rw [← Option.some.inj hn]; rfl

/-- Where nothing is dropped, each group has a node with its commits. -/
theorem under_group_of_kept (h : groupCommitsInner regex (levels + 1) commits groups = .ok tree)
    (hkept : Kept regex (levels + 1) commits groups) :
    ∃ nodes : List (Option GroupedCommits), tree.Perm nodes.reduceOption ∧
      List.Forall₂ (HoldsCaught regex groups commits) groups.zipIdx nodes := by
  obtain ⟨compiled, nodes, hcompiled, rfl, hnodes⟩ := groupCommitsInner_succ h
  simp only [← caught_eq hcompiled] at hnodes
  refine ⟨nodes.map (Option.map (·.2)), ?_, ?_⟩
  · rw [List.reduceOption_map]
    exact displayed_perm nodes
  · rw [List.forall₂_map_right_iff]
    have hmem : List.Forall₂ (fun gi node => gi ∈ groups.zipIdx ∧
        IsNode (groupCommitsInner regex levels) (caught regex groups commits gi.2) gi.1 node)
        groups.zipIdx nodes := (List.forall₂_and_left _ _).mpr ⟨fun _ hgi => hgi, hnodes⟩
    refine hmem.imp fun gi node ⟨hgi, hnode⟩ => ⟨title_of_isNode hnode, ?_⟩
    have hholds := holds_of_isNode hnode fun subgroups hsub => allCommits_spec hsub
    have hlen := hholds.length_iff.mpr (hkept gi hgi)
    rw [Option.map_map]
    exact hholds.subperm.perm_of_length_le hlen.ge

theorem flatMap_reduceOption (nodes : List (Option GroupedCommits)) :
    nodes.reduceOption.flatMap GroupedCommits.all =
      (nodes.map fun node => (node.map GroupedCommits.all).getD []).flatten := by
  induction nodes with
  | nil => rfl
  | cons node nodes ih =>
    cases node with
    | none => exact ih
    | some node =>
      rw [List.reduceOption_cons_of_some, List.flatMap_cons, ih]
      rfl

/-- Where each group has a node with its commits, nothing is dropped. -/
theorem kept_of_under_group (h : groupCommitsInner regex (levels + 1) commits groups = .ok tree)
    {nodes : List (Option GroupedCommits)} (htree : tree.Perm nodes.reduceOption)
    (hnodes : List.Forall₂ (HoldsCaught regex groups commits) groups.zipIdx nodes) :
    Kept regex (levels + 1) commits groups := by
  obtain ⟨compiled, -, hcompiled, -⟩ := groupCommitsInner_succ h
  refine (allCommits_spec h).2.mp ?_
  have hflat := flatten_perm (map_forall₂ hnodes fun gi node hnode => hnode.2)
  rw [(allCommits_perm htree).length_eq, allCommits_eq_flatMap, flatMap_reduceOption,
    hflat.length_eq, (flatten_caught_perm hcompiled levels).length_eq]

/-- A pattern without special characters matches wherever it occurs. -/
def literal (p : Text) : Except Text (Text → Bool) := .ok fun t => t.tails.any p.isPrefixOf

def commitOf (message : String) : CommitInfo :=
  ⟨message.toList, message.toList, [], [], [], [], [], []⟩

def twoFeatures : List CommitInfo := [commitOf "feat(api): new", commitOf "feat: old"]

/-- Features, and below them those of the interface. -/
def onlyApi : List GroupConfig :=
  [.mk ⟨"Features".toList, some "feat".toList, none⟩ [.mk ⟨"API".toList, some "api".toList, none⟩ []]]

def onlyApiTree : List GroupedCommits :=
  [.mk "Features".toList [] [.mk "API".toList [commitOf "feat(api): new"] []]]

theorem groupCommits_onlyApi : groupCommits literal twoFeatures onlyApi = .ok onlyApiTree := by
  with_unfolding_all rfl

end Anodizer.Changelog.Grouping
