import Anodizer.Tag.RollbackRun

/-! # Order and retry of a tag rollback

What one run can do, and what a run without failures leaves after any number
of runs that stopped before the revert.
-/

namespace Anodizer.Tag

open Template (Text CharTables)
open Git

variable {ω : Type} {u : CharTables} {target : Target} {calls : Calls ω} {s : World ω}
  {attributed tags : List Text} {tag t : Text}

/-! ### The deletion of one tag -/

variable (target calls) in
/-- The release of the tag is known to be gone after the step. -/
def Confirmed (s : World ω) (t : Text) : Prop :=
  target.github = false ∨ calls.lookup t ≠ .fails ∧
    (t ∈ s.releases → calls.lookup t = .answers ∧ calls.deleteRelease t)

/-- What the release step can do. -/
theorem deleteReleaseAtTag_cases (a : Bool) :
    (deleteReleaseAtTag target calls tag a s = (s, true) ∧ (a → Confirmed target calls s tag) ∧
      (target.github → tag ∈ s.releases → a = false)) ∨
    (deleteReleaseAtTag target calls tag a s = (s, false) ∧ a ∧ ¬ Confirmed target calls s tag) ∨
    (deleteReleaseAtTag target calls tag a s =
      ({ s with releases := s.releases.filter (· ≠ tag) }, true) ∧ a ∧
      Confirmed target calls s tag) := by
  unfold deleteReleaseAtTag Confirmed
  cases hgit : target.github with
  | false => simp
  | true =>
    cases hlook : calls.lookup tag <;> cases a <;> by_cases hmem : tag ∈ s.releases <;>
      cases hdel : calls.deleteRelease tag <;> simp [hmem]

variable (target calls attributed s tag) in
/-- What the step on one tag can do. -/
theorem deleteTag_cases :
    (deleteTag target calls attributed s tag = s ∧ tag ∈ attributed ∧
      ¬ Confirmed target calls s tag) ∨
    ∃ releases, deleteTag target calls attributed s tag =
        { s with
          releases := releases
          remoteTags :=
            if calls.deleteRemote tag then s.remoteTags.filter (· ≠ tag) else s.remoteTags
          localTags :=
            if calls.deleteLocal tag then s.localTags.filter (· ≠ tag) else s.localTags } ∧
      (tag ∈ attributed → Confirmed target calls s tag) ∧
      (releases = s.releases ∧ (target.github → tag ∈ s.releases → tag ∉ attributed) ∨
        releases = s.releases.filter (· ≠ tag) ∧ tag ∈ attributed) := by
  unfold deleteTag
  rcases deleteReleaseAtTag_cases (s := s)
    (tag ∈ attributed) with ⟨h, hconf, hkeep⟩ | ⟨h, ha, hconf⟩ | ⟨h, ha, hconf⟩
  · rw [h]
    exact .inr ⟨s.releases, rfl, by simpa using hconf, .inl ⟨rfl, by simpa using hkeep⟩⟩
  · rw [h]
    exact .inl ⟨rfl, by simpa using ha, hconf⟩
  · rw [h]
    exact .inr ⟨_, rfl, fun _ => hconf, .inr ⟨rfl, by simpa using ha⟩⟩

theorem deleteTag_frame : (deleteTag target calls attributed s tag).above = s.above ∧
    (deleteTag target calls attributed s tag).remote = s.remote := by
  rcases deleteTag_cases target calls s attributed tag with ⟨h, -⟩ | ⟨releases, h, -⟩ <;> simp [h]

/-- The step on a tag leaves every other tag alone. -/
theorem mem_deleteTag_of_ne (hne : t ≠ tag) :
    (t ∈ (deleteTag target calls attributed s tag).localTags ↔ t ∈ s.localTags) ∧
    (t ∈ (deleteTag target calls attributed s tag).remoteTags ↔ t ∈ s.remoteTags) ∧
    (t ∈ (deleteTag target calls attributed s tag).releases ↔ t ∈ s.releases) := by
  rcases deleteTag_cases target calls s attributed tag with ⟨h, -⟩ | ⟨releases, h, -, hrel⟩
  · simp [h]
  · rw [h]
    refine ⟨by dsimp only; split <;> simp [hne], by dsimp only; split <;> simp [hne], ?_⟩
    rcases hrel with ⟨rfl, -⟩ | ⟨rfl, -⟩ <;> simp [hne]

theorem deleteTag_subset :
    (deleteTag target calls attributed s tag).localTags ⊆ s.localTags ∧
    (deleteTag target calls attributed s tag).remoteTags ⊆ s.remoteTags ∧
    (deleteTag target calls attributed s tag).releases ⊆ s.releases := by
  rcases deleteTag_cases target calls s attributed tag with ⟨h, -⟩ | ⟨releases, h, -, hrel⟩
  · simp [h]
  · rw [h]
    refine ⟨by dsimp only; split <;> simp, by dsimp only; split <;> simp, ?_⟩
    rcases hrel with ⟨rfl, -⟩ | ⟨rfl, -⟩ <;> simp

/-- Only the release of an attributed tag goes. -/
theorem deleteTag_released (h : t ∈ s.releases)
    (hgone : t ∉ (deleteTag target calls attributed s tag).releases) : t ∈ attributed := by
  by_cases hne : t = tag
  · subst hne
    rcases deleteTag_cases target calls s attributed t with
      ⟨heq, ha, -⟩ | ⟨releases, heq, -, ⟨rfl, -⟩ | ⟨rfl, ha⟩⟩
    · exact ha
    · rw [heq] at hgone
      exact absurd h hgone
    · exact ha
  · exact absurd ((mem_deleteTag_of_ne hne).2.2.mpr h) hgone

/-! ### The deletion of all tags -/

theorem deleteTags_frame : (deleteTags target calls tags attributed s).above = s.above ∧
    (deleteTags target calls tags attributed s).remote = s.remote := by
  unfold deleteTags
  induction tags generalizing s with
  | nil => exact ⟨rfl, rfl⟩
  | cons tag tags ih =>
    rw [List.foldl_cons, ih.1, ih.2]
    exact deleteTag_frame

theorem deleteTags_released (h : t ∈ s.releases)
    (hgone : t ∉ (deleteTags target calls tags attributed s).releases) : t ∈ attributed := by
  unfold deleteTags at hgone
  induction tags generalizing s with
  | nil => exact absurd h hgone
  | cons tag tags ih =>
    by_cases hstep : t ∈ (deleteTag target calls attributed s tag).releases
    · exact ih hstep hgone
    · exact deleteTag_released h hstep

/-- A tag whose release may be left stays where it is. -/
theorem deleteTags_kept (ha : t ∈ attributed) (hconf : ¬ Confirmed target calls s t) :
    (t ∈ (deleteTags target calls tags attributed s).localTags ↔ t ∈ s.localTags) ∧
    (t ∈ (deleteTags target calls tags attributed s).remoteTags ↔ t ∈ s.remoteTags) := by
  unfold deleteTags
  induction tags generalizing s with
  | nil => exact ⟨Iff.rfl, Iff.rfl⟩
  | cons tag tags ih =>
    rw [List.foldl_cons]
    by_cases hne : t = tag
    · subst hne
      rcases deleteTag_cases target calls s attributed t with ⟨heq, -⟩ | ⟨_, -, hc, -⟩
      · rw [heq]
        exact ih hconf
      · exact absurd (hc ha) hconf
    · obtain ⟨hlocal, hremote, hreleases⟩ := mem_deleteTag_of_ne
        (s := s) hne
      have hconf' : ¬ Confirmed target calls (deleteTag target calls attributed s tag) t := by
        rwa [Confirmed, hreleases]
      exact ⟨(ih hconf').1.trans hlocal, (ih hconf').2.trans hremote⟩

/-- No external call of the run fails. -/
structure Calls.NoFailure (calls : Calls ω) : Prop where
  unwind : calls.unwindOk
  revert : calls.revert
  amend : calls.amend
  push : calls.push
  lookup : ∀ t, calls.lookup t = .answers
  deleteRelease : ∀ t, calls.deleteRelease t
  deleteRemote : ∀ t, calls.deleteRemote t
  deleteLocal : ∀ t, calls.deleteLocal t

theorem deleteTag_gone (h : calls.NoFailure) :
    tag ∉ (deleteTag target calls attributed s tag).localTags ∧
    tag ∉ (deleteTag target calls attributed s tag).remoteTags ∧
    (target.github → tag ∈ attributed →
      tag ∉ (deleteTag target calls attributed s tag).releases) := by
  rcases deleteTag_cases target calls s attributed tag
    with ⟨-, -, hconf⟩ | ⟨releases, heq, -, hrel⟩
  · exact absurd (.inr ⟨by simp [h.lookup], fun _ => ⟨h.lookup tag, h.deleteRelease tag⟩⟩) hconf
  · rw [heq]
    refine ⟨by simp [h.deleteLocal], by simp [h.deleteRemote], fun hgit ha => ?_⟩
    rcases hrel with ⟨rfl, hkeep⟩ | ⟨rfl, -⟩
    · exact fun hmem => hkeep hgit hmem ha
    · simp

theorem deleteTags_subset :
    (deleteTags target calls tags attributed s).localTags ⊆ s.localTags ∧
    (deleteTags target calls tags attributed s).remoteTags ⊆ s.remoteTags ∧
    (deleteTags target calls tags attributed s).releases ⊆ s.releases := by
  unfold deleteTags
  induction tags generalizing s with
  | nil => simp
  | cons tag tags ih =>
    obtain ⟨hl, hr, hrel⟩ := deleteTag_subset
      (s := s)
    exact ⟨List.Subset.trans ih.1 hl, List.Subset.trans ih.2.1 hr, List.Subset.trans ih.2.2 hrel⟩

theorem deleteTags_gone (h : calls.NoFailure) (ht : t ∈ tags) :
    t ∉ (deleteTags target calls tags attributed s).localTags ∧
    t ∉ (deleteTags target calls tags attributed s).remoteTags ∧
    (target.github → t ∈ attributed →
      t ∉ (deleteTags target calls tags attributed s).releases) := by
  unfold deleteTags
  induction tags generalizing s with
  | nil => exact absurd ht (by simp)
  | cons tag tags ih =>
    rw [List.foldl_cons]
    rcases List.mem_cons.mp ht with rfl | ht
    · obtain ⟨hl, hr, hrel⟩ := deleteTag_gone
        (s := s) h
      obtain ⟨hl', hr', hrel'⟩ := deleteTags_subset
        (s := deleteTag target calls attributed s t)
      exact ⟨fun hmem => hl (hl' hmem), fun hmem => hr (hr' hmem),
        fun hgit ha hmem => hrel hgit ha (hrel' hmem)⟩
    · exact ih ht

/-! ### One run -/

variable (u target calls s) in
/-- How a run may end. -/
inductive Outcome : World ω × Except Stop Unit → Prop
  | refused {e : Stop} : Outcome (s, .error e)
  | idle : Outcome (s, .ok ())
  | unwound {e : Stop} (own : ∀ c ∈ s.above, isOwnRevert c.subject) :
      Outcome (unwindPublishedState target calls s, .error e)
  | reverted {e : Stop} {c : Commit} (own : ∀ c ∈ s.above, isOwnRevert c.subject)
      (calls_ok : calls.unwindOk ∧ calls.revert)
      (revert : revertTree target (s.head target) = .ok c.tree) :
      Outcome ({ unwindPublishedState target calls s with above := c :: s.above }, .error e)
  | done {c : Commit} {unsummarized : List Text} (own : ∀ c ∈ s.above, isOwnRevert c.subject)
      (calls_ok : calls.unwindOk ∧ calls.revert)
      (guard : target.guard (s.deletable u target) = .ok unsummarized)
      (revert : revertTree target (s.head target) = .ok c.tree)
      (subject : c.subject = revertSubject u (s.deletable u target)) :
      Outcome (deleteTags target calls (s.deletable u target)
        (s.attributed u target unsummarized)
        { unwindPublishedState target calls s with
          above := c :: s.above
          remote := c :: s.above }, .ok ())

theorem revertCommit_cases (subject : Text) :
    (∃ e, revertCommit target calls subject s = (s, .error e)) ∨
    calls.revert ∧ ∃ tree, revertTree target (s.head target) = .ok tree ∧
      (revertCommit target calls subject s = ({ s with above := ⟨subject, tree⟩ :: s.above }, .ok ()) ∨
        ∃ other e, revertCommit target calls subject s =
          ({ s with above := ⟨other, tree⟩ :: s.above }, .error e)) := by
  unfold revertCommit
  split
  · exact .inl ⟨_, rfl⟩
  split
  · exact .inl ⟨_, rfl⟩
  next hcalls =>
  split
  · exact .inl ⟨_, rfl⟩
  next tree htree =>
  refine .inr ⟨by simpa using hcalls, tree, htree, ?_⟩
  split
  · exact .inl rfl
  · exact .inr ⟨_, _, rfl⟩

theorem pushBranch_cases :
    (∃ e, pushBranch calls s = (s, .error e)) ∨
    pushBranch calls s = ({ s with remote := s.above }, .ok ()) := by
  unfold pushBranch
  split
  · exact .inr rfl
  · exact .inl ⟨_, rfl⟩

variable (u target calls s) in
theorem run_outcome : Outcome u target calls s (run u target calls s) := by
  unfold run
  dsimp only
  split
  · exact .refused
  split
  · exact .idle
  split
  · exact .refused
  next unsummarized hguard =>
  split
  · exact .refused
  next hown =>
  have hown : ∀ c ∈ s.above, isOwnRevert c.subject := by simpa using hown
  split
  · exact .unwound hown
  next hunwind =>
  have hunwind : calls.unwindOk := by simpa using hunwind
  rcases revertCommit_cases
    (s := unwindPublishedState target calls s) (revertSubject u (s.deletable u target)) with
    ⟨e, h⟩ | ⟨hcalls, tree, htree, h | ⟨other, e, h⟩⟩
  · rw [h]
    exact .unwound hown
  · rw [h]
    dsimp only
    split
    · exact .reverted (c := ⟨_, tree⟩) hown ⟨hunwind, hcalls⟩ htree
    rcases pushBranch_cases (s := { unwindPublishedState target calls s with
      above := ⟨revertSubject u (s.deletable u target), tree⟩ :: s.above }) with ⟨e, hp⟩ | hp
    · rw [show (unwindPublishedState target calls s).above = s.above from rfl, hp]
      exact .reverted (c := ⟨_, tree⟩) hown ⟨hunwind, hcalls⟩ htree
    · rw [show (unwindPublishedState target calls s).above = s.above from rfl, hp]
      exact .done (c := ⟨_, tree⟩) hown ⟨hunwind, hcalls⟩ hguard htree rfl
  · rw [h]
    exact .reverted (c := ⟨other, tree⟩) hown ⟨hunwind, hcalls⟩ htree

variable (u target) in
/-- The tag is to be deleted, and the evidence of a run ties it to the rollback. -/
def Attributed (s : World ω) (t : Text) : Prop :=
  ∃ unsummarized, target.guard (s.deletable u target) = .ok unsummarized ∧
    t ∈ s.attributed u target unsummarized

variable (u target calls) in
/-- What a run keeps to, whatever fails. Releases are compared with those that the withdrawal of
the published state leaves. -/
structure Ordered (s s' : World ω) : Prop where
  foreign : (∃ c ∈ s.above, ¬ isOwnRevert c.subject) → s' = s
  pushed : (∃ c, revertTree target (s.head target) = .ok c.tree ∧ s'.above = c :: s.above ∧
      s'.remote = s'.above) ∨
    s'.localTags = s.localTags ∧ s'.remoteTags = s.remoteTags ∧
      (s'.releases = s.releases ∨
        s'.releases = (unwindPublishedState target calls s).releases)
  released : ∀ t ∈ (unwindPublishedState target calls s).releases, t ∉ s'.releases →
    Attributed u target s t
  kept : ∀ t, Attributed u target s t →
    ¬ Confirmed target calls (unwindPublishedState target calls s) t →
    (t ∈ s'.localTags ↔ t ∈ s.localTags) ∧ (t ∈ s'.remoteTags ↔ t ∈ s.remoteTags)

theorem run_ordered : Ordered u target calls s (run u target calls s).1 := by
  have houtcome := run_outcome u target calls s
  generalize run u target calls s = after at houtcome
  cases houtcome with
  | refused | idle =>
    exact ⟨fun _ => rfl, .inr ⟨rfl, rfl, .inl rfl⟩,
      fun t ht hgone => absurd (List.mem_of_mem_filter ht) hgone, fun _ _ _ => ⟨Iff.rfl, Iff.rfl⟩⟩
  | unwound hown =>
    exact ⟨fun ⟨c, hc, hforeign⟩ => absurd (hown c hc) hforeign, .inr ⟨rfl, rfl, .inr rfl⟩,
      fun t ht hgone => absurd ht hgone, fun _ _ _ => ⟨Iff.rfl, Iff.rfl⟩⟩
  | reverted hown =>
    exact ⟨fun ⟨c, hc, hforeign⟩ => absurd (hown c hc) hforeign, .inr ⟨rfl, rfl, .inr rfl⟩,
      fun t ht hgone => absurd ht hgone, fun _ _ _ => ⟨Iff.rfl, Iff.rfl⟩⟩
  | @done c unsummarized hown _ hguard hrevert _ =>
    refine ⟨fun ⟨c, hc, hforeign⟩ => absurd (hown c hc) hforeign, .inl ⟨c, hrevert, ?_, ?_⟩,
      fun t ht hgone => ⟨unsummarized, hguard, ?_⟩, ?_⟩
    · rw [deleteTags_frame.1]
    · rw [deleteTags_frame.1, deleteTags_frame.2]
    · exact deleteTags_released (s := { unwindPublishedState target calls s with
        above := c :: s.above
        remote := c :: s.above }) ht hgone
    · rintro t ⟨unsummarized', hguard', ha⟩ hconf
      obtain rfl := Except.ok.inj (hguard.symm.trans hguard')
      exact deleteTags_kept ha hconf

/-! ### Runs one after the other -/

/-- The run stops before it reverts. -/
def Calls.StopsEarly (calls : Calls ω) : Prop := ¬ (calls.unwindOk ∧ calls.revert)

/-- The two states have the same commits and tags. -/
structure SameRefs (s s' : World ω) : Prop where
  above : s'.above = s.above
  remote : s'.remote = s.remote
  localTags : s'.localTags = s.localTags
  remoteTags : s'.remoteTags = s.remoteTags

variable (u target) in
theorem run_stopsEarly (h : calls.StopsEarly) : SameRefs s (run u target calls s).1 := by
  have houtcome := run_outcome u target calls s
  generalize run u target calls s = after at houtcome
  cases houtcome with
  | refused | idle => exact ⟨rfl, rfl, rfl, rfl⟩
  | unwound hown => exact ⟨rfl, rfl, rfl, rfl⟩
  | reverted _ hcalls => exact absurd hcalls h
  | done _ hcalls => exact absurd hcalls h

variable (u target) in
theorem runs_stopEarly {failed : List (Calls ω)} (h : ∀ calls ∈ failed, calls.StopsEarly) :
    SameRefs s (failed.foldl (fun s calls => (run u target calls s).1) s) := by
  induction failed generalizing s with
  | nil => exact ⟨rfl, rfl, rfl, rfl⟩
  | cons calls failed ih =>
    obtain ⟨hcalls, hfailed⟩ := List.forall_mem_cons.mp h
    have hfirst := run_stopsEarly u target (s := s) hcalls
    have hrest := ih (s := (run u target calls s).1) hfailed
    exact ⟨hrest.above.trans hfirst.above, hrest.remote.trans hfirst.remote,
      hrest.localTags.trans hfirst.localTags, hrest.remoteTags.trans hfirst.remoteTags⟩

variable (u target) in
/-- The target is still in place and can be reverted, and the remote is not ahead. -/
structure Revertible (s : World ω) : Prop where
  deletable : s.deletable u target ≠ []
  guard : ∃ unsummarized, target.guard (s.deletable u target) = .ok unsummarized
  own : ∀ c ∈ s.above, isOwnRevert c.subject
  clean : target.dirty = false
  revert : ∃ tree, revertTree target (s.head target) = .ok tree
  branch : (resolvePushBranch target).isSome
  behind : s.remote <:+ s.above

variable (u target) in
/-- The change of the target is reverted once and pushed, and its tags are gone. -/
structure Converged (s s' : World ω) : Prop where
  once : ∃ c, s'.above = c :: s.above ∧ revertTree target (s.head target) = .ok c.tree ∧
    c.subject = revertSubject u (s.deletable u target)
  pushed : s'.remote = s'.above
  tags : ∀ t ∈ s.deletable u target, t ∉ s'.localTags ∧ t ∉ s'.remoteTags
  releases : target.github → ∀ t, Attributed u target s t → t ∉ s'.releases

theorem Revertible.of_sameRefs {s' : World ω} (h : Revertible u target s) (hs : SameRefs s s') :
    Revertible u target s' := by
  have hdeletable : s'.deletable u target = s.deletable u target := by
    rw [World.deletable, World.deletable, hs.localTags]
  have hhead : s'.head target = s.head target := by rw [World.head, World.head, hs.above]
  exact ⟨hdeletable ▸ h.deletable, hdeletable ▸ h.guard, hs.above ▸ h.own, h.clean,
    hhead ▸ h.revert, h.branch, by rw [hs.remote, hs.above]; exact h.behind⟩

theorem Converged.of_sameRefs {s' s'' : World ω} (h : Converged u target s' s'')
    (hs : SameRefs s s') : Converged u target s s'' := by
  have hdeletable : s'.deletable u target = s.deletable u target := by
    rw [World.deletable, World.deletable, hs.localTags]
  have hhead : s'.head target = s.head target := by rw [World.head, World.head, hs.above]
  have hattributed : ∀ t, Attributed u target s t → Attributed u target s' t := by
    rintro t ⟨unsummarized, hguard, ht⟩
    refine ⟨unsummarized, by rwa [hdeletable], ?_⟩
    rwa [World.attributed, hdeletable]
  obtain ⟨c, habove, hrevert, hsubject⟩ := h.once
  exact ⟨⟨c, by rw [habove, hs.above], by rwa [← hhead], by rwa [← hdeletable]⟩, h.pushed,
    hdeletable ▸ h.tags, fun hgit t ht => h.releases hgit t (hattributed t ht)⟩

/-- A run without failures does all that it is for. -/
theorem run_noFailure (h : Revertible u target s) (hc : calls.NoFailure) :
    (run u target calls s).2 = .ok () ∧ Converged u target s (run u target calls s).1 := by
  obtain ⟨unsummarized, hguard⟩ := h.guard
  obtain ⟨tree, htree⟩ := h.revert
  have hlocal : s.localTags ≠ [] := fun hnil => h.deletable (by simp [World.deletable, hnil])
  have hcommit : revertCommit target calls (revertSubject u (s.deletable u target))
      (unwindPublishedState target calls s) =
      ({ unwindPublishedState target calls s with
          above := ⟨revertSubject u (s.deletable u target), tree⟩ :: s.above }, .ok ()) := by
    have hhead : revertTree target ((unwindPublishedState target calls s).head target) =
        .ok tree := htree
    simp only [revertCommit, h.clean, hc.revert, hhead, hc.amend]
    rfl
  have hpush : pushBranch calls { unwindPublishedState target calls s with
      above := ⟨revertSubject u (s.deletable u target), tree⟩ :: s.above } =
      ({ unwindPublishedState target calls s with
          above := ⟨revertSubject u (s.deletable u target), tree⟩ :: s.above
          remote := ⟨revertSubject u (s.deletable u target), tree⟩ :: s.above }, .ok ()) := by
    have hsuffix : s.remote <:+ ⟨revertSubject u (s.deletable u target), tree⟩ :: s.above :=
      h.behind.trans (List.suffix_cons _ _)
    have hsuffix : (unwindPublishedState target calls s).remote.isSuffixOf
        (⟨revertSubject u (s.deletable u target), tree⟩ :: s.above) :=
      List.isSuffixOf_iff_suffix.mpr hsuffix
    simp only [pushBranch, hc.push, hsuffix]
    rfl
  have hown : (s.above.filter fun c => !isOwnRevert c.subject).isEmpty := by
    simpa using h.own
  have hrun : run u target calls s = (deleteTags target calls (s.deletable u target)
      (s.attributed u target unsummarized)
      { unwindPublishedState target calls s with
        above := ⟨revertSubject u (s.deletable u target), tree⟩ :: s.above
        remote := ⟨revertSubject u (s.deletable u target), tree⟩ :: s.above }, .ok ()) := by
    have hbranch : (resolvePushBranch target).isNone = false := by
      simpa [Option.isNone_iff_eq_none, ← Option.isSome_iff_ne_none] using h.branch
    have hlocal' : s.localTags.isEmpty = false := by simpa using hlocal
    have hdeletable : (s.deletable u target).isEmpty = false := by simpa using h.deletable
    simp only [run, hlocal', hdeletable, hguard, hown, hc.unwind, hcommit, hbranch, hpush]
    rfl
  rw [hrun]
  refine ⟨rfl, ⟨⟨_, deleteTags_frame.1, htree, rfl⟩, ?_, fun t ht => ?_, ?_⟩⟩
  · rw [deleteTags_frame.1, deleteTags_frame.2]
  · obtain ⟨hl, hr, -⟩ := deleteTags_gone
      hc ht
    exact ⟨hl, hr⟩
  · rintro hgit t ⟨unsummarized', hguard', ha⟩
    obtain rfl := Except.ok.inj (hguard.symm.trans hguard')
    exact (deleteTags_gone hc (List.mem_of_mem_filter ha)).2.2 hgit ha

/-- A run changes tags, and releases that the withdrawal leaves, only once its revert is pushed;
and after runs that all stop before the revert, a run without failures converges. -/
theorem rollback_ordered_retryable :
    (∀ (calls : Calls ω) (s : World ω), Ordered u target calls s (run u target calls s).1) ∧
    ∀ (s : World ω) (failed : List (Calls ω)) (last : Calls ω), Revertible u target s →
      (∀ calls ∈ failed, calls.StopsEarly) → last.NoFailure →
      let s' := failed.foldl (fun s calls => (run u target calls s).1) s
      (run u target last s').2 = .ok () ∧ Converged u target s (run u target last s').1 := by
  refine ⟨fun calls s => run_ordered, fun s failed last h hfailed hlast => ?_⟩
  have hs := runs_stopEarly u target (s := s) hfailed
  obtain ⟨hok, hconverged⟩ := run_noFailure (h.of_sameRefs hs) hlast
  exact ⟨hok, hconverged.of_sameRefs hs⟩

/-! ### A release that is withdrawn and a push that fails -/

def bump : Target where
  subject := "chore(release): bump".toList
  tree := [("Cargo.toml".toList, ['2'])]
  parent := [("Cargo.toml".toList, ['1'])]
  mergeFile _ _ _ := none
  gitRevertSubject subject := "Revert \"".toList ++ subject ++ ['"']
  dirty := false
  scope := .all
  guard _ := .ok []
  recorded _ := true
  github := true
  branch := none
  containing := ["main".toList]
  current := none

def released : World Unit where
  above := []
  remote := []
  localTags := ["v1.0.0".toList]
  remoteTags := ["v1.0.0".toList]
  releases := ["v1.0.0".toList]
  published := ()

def noFailure : Calls Unit where
  unwound _ := false
  unwind := id
  unwindOk := true
  revert := true
  amend := true
  push := true
  lookup _ := .answers
  deleteRelease _ := true
  deleteRemote _ := true
  deleteLocal _ := true

theorem noFailure_noFailure : noFailure.NoFailure := by
  constructor <;> simp [noFailure]

theorem revertible_released : Revertible .ascii bump released where
  deletable := by decide +kernel
  guard := ⟨[], rfl⟩
  own := by decide
  clean := rfl
  revert := ⟨[("Cargo.toml".toList, ['1'])], by decide +kernel⟩
  branch := rfl
  behind := List.suffix_refl _

/-- The release is withdrawn, then git does not revert. -/
def revertFails : Calls Unit := { noFailure with unwound _ := true, revert := false }

def pushFails : Calls Unit := { noFailure with push := false }

/-- A revert that fails once the release is withdrawn can be tried again. -/
theorem released_converges :
    let s' := [revertFails].foldl (fun s calls => (run .ascii bump calls s).1) released
    (run .ascii bump noFailure s').2 = .ok () ∧
      Converged .ascii bump released (run .ascii bump noFailure s').1 := by
  refine rollback_ordered_retryable.2 released [revertFails] noFailure revertible_released ?_
    noFailure_noFailure
  simp [Calls.StopsEarly, revertFails]

/-- The release goes before a revert that fails, and after a push that fails the next run has
nothing to revert. -/
theorem rollback_out_of_order :
    (run .ascii bump revertFails released).1.releases ≠ released.releases ∧
    (run .ascii bump revertFails released).1.remote = released.remote ∧
    (run .ascii bump noFailure (run .ascii bump pushFails released).1).2 =
      .error .nothingToCommit ∧
    ¬ Converged .ascii bump released
      (run .ascii bump noFailure (run .ascii bump pushFails released).1).1 := by
  refine ⟨by decide +kernel, by decide +kernel, by decide +kernel, fun h => ?_⟩
  have htag := (h.tags "v1.0.0".toList (by decide +kernel)).1
  exact absurd (by decide +kernel) htag

end Anodizer.Tag
