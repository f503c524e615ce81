import Anodizer.Lib.Upsert
import Anodizer.Publish.Carry
import Mathlib.Data.Fintype.EquivFin

/-! # Writing the report twice

The end of a run folds the persisted report into the run's own and writes the result; the next
write of the same run reads that result back. It comes out unchanged, whatever was persisted
before, exactly when every own row a withdrawal acts on is held by the row of its publisher
that later records are joined into.
-/

namespace Anodizer

section Union

variable {α : Type*} [DecidableEq α] {a b : List α}

theorem unionInto_of_subset (h : b ⊆ a) : unionInto a b = a := by
  unfold unionInto
  induction b with
  | nil => rfl
  | cons x b ih =>
    rw [List.foldl_cons, if_pos (h List.mem_cons_self)]
    exact ih fun y hy => h (List.mem_cons_of_mem _ hy)

/-- A list that has grown out of `a` takes the place of `a` in a union. -/
theorem unionInto_fixed (h : unionInto a b = b) (c : List α) :
    unionInto a (unionInto b c) = unionInto b c := by
  induction c generalizing b with
  | nil => exact h
  | cons x c ih =>
    refine ih (b := if x ∈ b then b else b ++ [x]) ?_
    split
    · exact h
    · next hx =>
      have happend : unionInto a (b ++ [x]) = unionInto (unionInto a b) [x] := by
        simp only [unionInto, List.foldl_append]
      rw [happend, h, unionInto, List.foldl_cons, if_neg hx, List.foldl_nil]

end Union

namespace BlobTargetSnapshot

variable {t : BlobTargetSnapshot} {ts ms : List BlobTargetSnapshot}

theorem absorbOne_eq (t : BlobTargetSnapshot) (ts : List BlobTargetSnapshot) :
    t.absorbOne ts = Upsert.upsert target t ts := by
  induction ts with
  | nil => rfl
  | cons s ts ih =>
    rw [absorbOne, Upsert.upsert, ih]
    by_cases h : s.sameObject t
    · have ht := sameObject_iff.mp h
      rw [if_pos h, if_pos ht]
      obtain ⟨provider, bucket, key, region, endpoint, overwrote⟩ := s
      simp only [target, Target.blob.injEq] at ht
      obtain ⟨rfl, rfl, rfl, rfl, rfl⟩ := ht
      rfl
    · rw [if_neg h, if_neg fun ht => h (sameObject_iff.mpr ht)]

theorem absorbAll_eq : ts.foldl (fun acc e => e.absorbOne acc) ms = Upsert.upsertAll target ts ms := by
  simp only [absorbOne_eq]
  rfl

end BlobTargetSnapshot

namespace PublishEvidenceExtra

variable {m t w w' p : PublishEvidenceExtra}

def blobs : PublishEvidenceExtra → List BlobTargetSnapshot
  | .blob ts => ts
  | _ => []

/-- The bucket objects a payload names. -/
def objects (m : PublishEvidenceExtra) : List Target := m.blobs.map BlobTargetSnapshot.target

theorem objects_subset_targets : m.objects ⊆ m.targets := by
  cases m <;> simp [objects, blobs, targets]

theorem objects_eq_nil_of_kind (h : m.kind ≠ some 13) : m.objects = [] := by
  cases m <;> first | rfl | exact absurd rfl h

theorem objects_eq_targets_of_kind (h : m.kind = some 13) : m.objects = m.targets := by
  cases m <;> simp only [kind, Option.some.injEq, reduceCtorEq] at h <;>
    first | rfl | exact absurd h (by decide)

theorem eq_blob_of_kind (h : m.kind = some 13) : ∃ ts, m = .blob ts := by
  cases m <;> first | exact ⟨_, rfl⟩ | exact absurd h (by simp [kind])

theorem absorb_of_subset (hk : m.kind = t.kind) (hn : m.kind ≠ none) (hsub : t.targets ⊆ m.targets)
    (ho : t.objects = []) : m.absorb t = some m := by
  have hunion : ∀ {α : Type} [DecidableEq α] (f : α → Target) (_ : Function.Injective f)
      (a b : List α), b.map f ⊆ a.map f → unionInto a b = a := fun f hf a b h =>
    unionInto_of_subset ((List.map_subset_iff f hf).mp h)
  cases m <;> cases t <;> simp only [kind, Option.some.injEq, ne_eq, not_true_eq_false] at hk hn <;>
    first
      | (exact absurd hk (by decide))
      | (simp only [objects, blobs, List.map_eq_nil_iff] at ho
         subst ho
         rfl)
      | (rw [absorb, hunion _ (fun _ _ h => by injection h) _ _ hsub])

theorem absorb_self (hn : m.kind ≠ none) (ho : m.objects.Nodup) : m.absorb m = some m := by
  cases m <;> simp only [kind, ne_eq, not_true_eq_false] at hn <;> rw [absorb]
  case blob ts =>
    have hts : (ts.map BlobTargetSnapshot.target).Nodup := ho
    rw [BlobTargetSnapshot.absorbAll_eq, Upsert.upsertAll_of_subset hts (List.Subset.refl _)]
  all_goals rw [unionInto_of_subset (List.Subset.refl _)]

/-- A payload that has grown out of `m` takes the place of `m` in a join. -/
theorem absorb_fixed (ho : m.objects.Nodup) (h : m.absorb w = some w) (hp : w.absorb p = some w') :
    m.absorb w' = some w' := by
  cases m <;> cases w <;> simp only [absorb, Option.some.injEq, reduceCtorEq] at h <;>
    cases p <;> simp only [absorb, Option.some.injEq, reduceCtorEq] at hp <;> subst hp <;>
    simp only [blob.injEq, homebrew.injEq, scoop.injEq, nix.injEq, winget.injEq, chocolatey.injEq,
      krew.injEq, aur.injEq, aurSource.injEq, mcp.injEq, dockerhub.injEq, cargo.injEq,
      artifactory.injEq, cloudsmith.injEq, snapcraft.injEq, githubRelease.injEq, npm.injEq,
      gemFury.injEq, pypi.injEq, schemastore.injEq, homebrewCore.injEq] at h <;> rw [absorb]
  case blob.blob.blob m w p =>
    have hm : (m.map BlobTargetSnapshot.target).Nodup := ho
    rw [BlobTargetSnapshot.absorbAll_eq] at h ⊢
    rw [BlobTargetSnapshot.absorbAll_eq, Upsert.upsertAll_fixed hm h]
  all_goals rw [unionInto_fixed h]

end PublishEvidenceExtra

namespace PublishEvidence

variable {mine e p w joined : PublishEvidence} {L : List PublishEvidence}

/-- The record after an earlier one, when the two join. -/
def absorbInto (mine e : PublishEvidence) : PublishEvidence := (mine.absorbPrior e).getD mine

/-- The record after all the earlier ones. -/
def absorbAll (mine : PublishEvidence) (L : List PublishEvidence) : PublishEvidence :=
  L.foldl absorbInto mine

/-- The record says all the other says. -/
def Holds (mine e : PublishEvidence) : Prop :=
  mine = e ∨ mine.extra.kind = e.extra.kind ∧ mine.extra.kind ≠ none ∧
    e.extra.targets ⊆ mine.extra.targets ∧ e.artifactPaths ⊆ mine.artifactPaths ∧
    (mine.primaryRef = none → e.primaryRef = none)

instance : Decidable (mine.Holds e) := inferInstanceAs (Decidable (_ ∨ _))

theorem absorbAll_append (L L' : List PublishEvidence) :
    mine.absorbAll (L ++ L') = (mine.absorbAll L).absorbAll L' := List.foldl_append

/-- What a join makes of a record. -/
theorem absorbInto_cases (mine e : PublishEvidence) :
    absorbInto mine e = mine ∧ (mine = e ∨ mine.absorbPrior e = none) ∨
      ∃ extra, mine ≠ e ∧ mine.extra.absorb e.extra = some extra ∧
        absorbInto mine e = { mine with
          extra
          artifactPaths := unionInto mine.artifactPaths e.artifactPaths
          primaryRef := if mine.primaryRef.isNone then e.primaryRef else mine.primaryRef } := by
  by_cases he : mine = e
  · left
    rw [absorbInto, absorbPrior, if_pos he]
    exact ⟨rfl, .inl he⟩
  · cases hx : mine.extra.absorb e.extra with
    | none =>
      left
      have hnone : mine.absorbPrior e = none := by rw [absorbPrior, if_neg he, hx, Option.map_none]
      rw [absorbInto, hnone]
      exact ⟨rfl, .inr rfl⟩
    | some extra =>
      right
      refine ⟨extra, he, rfl, ?_⟩
      rw [absorbInto, absorbPrior, if_neg he, hx, Option.map_some, Option.getD_some]

theorem absorbInto_of_eq (h : mine.absorbPrior e = some joined) : absorbInto mine e = joined := by
  rw [absorbInto, h, Option.getD_some]

theorem kind_absorbInto (mine e : PublishEvidence) :
    (absorbInto mine e).extra.kind = mine.extra.kind := by
  rw [absorbInto]
  cases h : mine.absorbPrior e with
  | none => rfl
  | some joined => exact (kind_absorbPrior h).1

theorem kind_absorbAll (L : List PublishEvidence) :
    (mine.absorbAll L).extra.kind = mine.extra.kind := by
  induction L generalizing mine with
  | nil => rfl
  | cons e L ih => exact ih.trans (kind_absorbInto mine e)

/-- A record with no typed payload never changes. -/
theorem absorbInto_of_untyped (h : mine.extra.kind = none) : absorbInto mine e = mine := by
  rcases absorbInto_cases mine e with ⟨heq, -⟩ | ⟨extra, -, hx, -⟩
  · exact heq
  · exact absurd h (PublishEvidenceExtra.absorb_isSome_iff.mp (Option.isSome_of_eq_some hx)).2

theorem absorbAll_of_untyped (h : mine.extra.kind = none) : mine.absorbAll L = mine := by
  induction L with
  | nil => rfl
  | cons e L ih => rw [absorbAll, List.foldl_cons, absorbInto_of_untyped h]; exact ih

theorem recordsPublishedWork_absorbInto (h : mine.recordsPublishedWork) :
    (absorbInto mine e).recordsPublishedWork := by
  rw [absorbInto]
  cases hj : mine.absorbPrior e with
  | none => exact h
  | some joined => exact recordsPublishedWork_absorbPrior hj h

/-- A join leaves out nothing of the record's own. -/
theorem subset_absorbInto (mine e : PublishEvidence) :
    mine.extra.targets ⊆ (absorbInto mine e).extra.targets ∧
      mine.artifactPaths ⊆ (absorbInto mine e).artifactPaths ∧
      ((absorbInto mine e).primaryRef = none → mine.primaryRef = none) := by
  rcases absorbInto_cases mine e with ⟨heq, -⟩ | ⟨extra, -, hx, heq⟩
  · rw [heq]
    exact ⟨List.Subset.refl _, List.Subset.refl _, id⟩
  · rw [heq]
    refine ⟨fun t ht => (PublishEvidenceExtra.mem_targets_absorb hx).mpr (.inl ht),
      fun t ht => mem_unionInto.mpr (.inl ht), fun h => ?_⟩
    by_contra hne
    simp only [Option.isNone_iff_eq_none, hne, if_false] at h

theorem subset_absorbAll (mine : PublishEvidence) (L : List PublishEvidence) :
    mine.extra.targets ⊆ (mine.absorbAll L).extra.targets ∧
      mine.artifactPaths ⊆ (mine.absorbAll L).artifactPaths ∧
      ((mine.absorbAll L).primaryRef = none → mine.primaryRef = none) := by
  induction L generalizing mine with
  | nil => exact ⟨List.Subset.refl _, List.Subset.refl _, id⟩
  | cons e L ih =>
    obtain ⟨htargets, hpaths, href⟩ := @ih (absorbInto mine e)
    obtain ⟨htargets', hpaths', href'⟩ := subset_absorbInto mine e
    exact ⟨List.Subset.trans htargets' htargets, List.Subset.trans hpaths' hpaths, fun h => href' (href h)⟩

/-- A record that joins is held by the result. -/
theorem holds_absorbInto (h : (mine.absorbPrior e).isSome) : (absorbInto mine e).Holds e := by
  obtain ⟨joined, hj⟩ := Option.isSome_iff_exists.mp h
  rcases absorbInto_cases mine e with ⟨heq, rfl | hnone⟩ | ⟨extra, -, hx, heq⟩
  · rw [heq]
    exact .inl rfl
  · rw [hj] at hnone
    cases hnone
  · obtain ⟨hk, hk'⟩ := PublishEvidenceExtra.kind_absorb hx
    have hn := (PublishEvidenceExtra.absorb_isSome_iff.mp (Option.isSome_of_eq_some hx)).2
    rw [heq]
    refine .inr ⟨hk.trans hk', hk ▸ hn, ?_, ?_, ?_⟩
    · exact fun t ht => (PublishEvidenceExtra.mem_targets_absorb hx).mpr (.inr ht)
    · exact fun t ht => mem_unionInto.mpr (.inr ht)
    · intro hnone
      by_cases hm : mine.primaryRef = none
      · simpa [hm] using hnone
      · simp [hm] at hnone

theorem absorbPrior_isSome_of_absorbAll (h : (mine.absorbPrior e).isSome)
    (L : List PublishEvidence) : ((mine.absorbAll L).absorbPrior e).isSome := by
  by_cases hn : mine.extra.kind = none
  · rwa [absorbAll_of_untyped hn]
  · have hk : mine.extra.kind = e.extra.kind := by
      rcases absorbPrior_isSome_iff.mp h with rfl | ⟨hk, -⟩
      · rfl
      · exact hk
    exact absorbPrior_isSome ((kind_absorbAll L).trans hk) (by rwa [kind_absorbAll])

/-- A path comes from the record or from one of those joined. -/
theorem mem_paths_absorbAll {x : String} (h : x ∈ (mine.absorbAll L).artifactPaths) :
    x ∈ mine.artifactPaths ∨ ∃ e ∈ L, x ∈ e.artifactPaths := by
  induction L generalizing mine with
  | nil => exact .inl h
  | cons e L ih =>
    rcases ih h with h | ⟨e', he', h⟩
    · rcases absorbInto_cases mine e with ⟨heq, -⟩ | ⟨extra, -, -, heq⟩
      · exact .inl (heq ▸ h)
      · rw [heq] at h
        exact (mem_unionInto.mp h).imp_right fun h => ⟨e, List.mem_cons_self, h⟩
    · exact .inr ⟨e', List.mem_cons_of_mem _ he', h⟩

theorem blobs_absorbInto {ts us : List BlobTargetSnapshot} (hne : mine ≠ e)
    (hmine : mine.extra = .blob ts) (he : e.extra = .blob us) :
    (absorbInto mine e).extra = .blob (Upsert.upsertAll BlobTargetSnapshot.target us ts) ∧
      (absorbInto mine e).artifactPaths = unionInto mine.artifactPaths e.artifactPaths := by
  have habsorb : mine.extra.absorb e.extra =
      some (.blob (Upsert.upsertAll BlobTargetSnapshot.target us ts)) := by
    rw [hmine, he, PublishEvidenceExtra.absorb, BlobTargetSnapshot.absorbAll_eq]
  rw [absorbInto, absorbPrior, if_neg hne, habsorb, Option.map_some, Option.getD_some]
  exact ⟨rfl, rfl⟩

/-- Records of buckets join one object at a time, while a path tells the two apart. -/
theorem blobs_absorbAll {x : String} {ts : List BlobTargetSnapshot} (hx : x ∈ mine.artifactPaths)
    (hmine : mine.extra = .blob ts)
    (hL : ∀ e ∈ L, e.extra.kind = some 13 ∧ x ∉ e.artifactPaths) :
    (mine.absorbAll L).extra = .blob (Upsert.upsertAll BlobTargetSnapshot.target
      (L.flatMap (·.extra.blobs)) ts) := by
  induction L generalizing mine ts with
  | nil => exact hmine
  | cons e L ih =>
    obtain ⟨hk, hxe⟩ := hL e List.mem_cons_self
    obtain ⟨us, hus⟩ := PublishEvidenceExtra.eq_blob_of_kind hk
    have hne : mine ≠ e := fun heq => hxe (heq ▸ hx)
    obtain ⟨hextra, hpaths⟩ := blobs_absorbInto hne hmine hus
    have hpath : x ∈ (absorbInto mine e).artifactPaths := by
      rw [hpaths]
      exact mem_unionInto.mpr (.inl hx)
    rw [List.flatMap_cons, Upsert.upsertAll_append, hus]
    exact ih hpath hextra fun e' he' => hL e' (List.mem_cons_of_mem _ he')

/-- What a record holds, it holds after any join. -/
theorem Holds.absorbAll (h : mine.Holds e) (L : List PublishEvidence) :
    (mine.absorbAll L).Holds e := by
  obtain ⟨htargets, hpaths, href⟩ := subset_absorbAll mine L
  by_cases hn : mine.extra.kind = none
  · rw [absorbAll_of_untyped hn]
    exact h
  rcases h with rfl | ⟨hk, -, ht, hp, hr⟩
  · exact .inr ⟨kind_absorbAll L, by rwa [kind_absorbAll], htargets, hpaths, href⟩
  · exact .inr ⟨(kind_absorbAll L).trans hk, by rwa [kind_absorbAll],
      List.Subset.trans ht htargets, List.Subset.trans hp hpaths, fun hnone => hr (href hnone)⟩

/-- A held record that names no object adds nothing. -/
theorem Holds.absorbInto_eq (h : mine.Holds e) (ho : e.extra.objects = []) :
    absorbInto mine e = mine := by
  rcases h with rfl | ⟨hk, hn, ht, hp, hr⟩
  · rw [absorbInto, absorbPrior, if_pos rfl, Option.getD_some]
  · rcases absorbInto_cases mine e with ⟨heq, -⟩ | ⟨extra, -, hx, heq⟩
    · exact heq
    · rw [PublishEvidenceExtra.absorb_of_subset hk hn ht ho] at hx
      obtain rfl := Option.some.inj hx
      have href : (if mine.primaryRef.isNone then e.primaryRef else mine.primaryRef) =
          mine.primaryRef := by
        cases hm : mine.primaryRef with
        | none => exact hr hm
        | some r => rfl
      rw [heq, unionInto_of_subset hp, href]

theorem absorbAll_of_holds (h : ∀ e ∈ L, mine.Holds e ∧ e.extra.objects = []) :
    mine.absorbAll L = mine := by
  induction L with
  | nil => rfl
  | cons e L ih =>
    obtain ⟨hholds, ho⟩ := h e List.mem_cons_self
    rw [absorbAll, List.foldl_cons, hholds.absorbInto_eq ho]
    exact ih fun e he => h e (List.mem_cons_of_mem _ he)

/-- `w` has grown out of the record by joins. -/
structure Outgrows (mine w : PublishEvidence) : Prop where
  frame : w = { mine with
    extra := w.extra, artifactPaths := w.artifactPaths, primaryRef := w.primaryRef }
  extra : mine.extra.absorb w.extra = some w.extra
  paths : unionInto mine.artifactPaths w.artifactPaths = w.artifactPaths
  ref : (if mine.primaryRef.isNone then w.primaryRef else mine.primaryRef) = w.primaryRef

theorem outgrows_self (hn : mine.extra.kind ≠ none) (ho : mine.extra.objects.Nodup) :
    Outgrows mine mine where
  frame := rfl
  extra := PublishEvidenceExtra.absorb_self hn ho
  paths := unionInto_of_subset (List.Subset.refl _)
  ref := ite_self _

theorem Outgrows.absorbInto (h : Outgrows mine w) (ho : mine.extra.objects.Nodup)
    (e : PublishEvidence) : Outgrows mine (absorbInto w e) := by
  rcases absorbInto_cases w e with ⟨heq, -⟩ | ⟨extra, -, hx, heq⟩
  · rw [heq]
    exact h
  · rw [heq]
    refine ⟨?_, PublishEvidenceExtra.absorb_fixed ho h.extra hx, unionInto_fixed h.paths _, ?_⟩
    · rw [h.frame]
    · have href := h.ref
      cases hm : mine.primaryRef with
      | none => rfl
      | some r =>
        rw [hm] at href
        have hw : w.primaryRef = some r := href.symm
        simp [hw]

theorem outgrows_absorbAll (hn : mine.extra.kind ≠ none) (ho : mine.extra.objects.Nodup)
    (L : List PublishEvidence) : Outgrows mine (mine.absorbAll L) := by
  have hstep : ∀ w, Outgrows mine w → Outgrows mine (w.absorbAll L) := by
    induction L with
    | nil => exact fun w h => h
    | cons e L ih => exact fun w h => ih _ (h.absorbInto ho e)
  exact hstep mine (outgrows_self hn ho)

/-- Joining what the record has become gives what it has become. -/
theorem Outgrows.absorbInto_eq (h : Outgrows mine w) : PublishEvidence.absorbInto mine w = w := by
  rcases absorbInto_cases mine w with ⟨heq, rfl | hnone⟩ | ⟨extra, -, hx, heq⟩
  · exact heq
  · have hsome := PublishEvidenceExtra.absorb_isSome_iff.mp (Option.isSome_of_eq_some h.extra)
    have hj : (mine.absorbPrior w).isSome := absorbPrior_isSome hsome.1 hsome.2
    rw [hnone] at hj
    cases hj
  · rw [h.extra] at hx
    obtain rfl := Option.some.inj hx
    rw [heq, h.paths, h.ref, ← h.frame]

end PublishEvidence

/-! ### The rows later records are joined into -/

/-- The row a name's later records are joined into: its first candidate row. -/
def firstOwn (rows : List PublisherResult) (name : String) : Option PublisherResult :=
  rows.find? fun r => r.rollbackCandidate && r.name == name

/-- The record of that row, when it shows work. -/
def ownEvidence (rows : List PublisherResult) (name : String) : Option PublishEvidence :=
  (firstOwn rows name).bind fun r => r.evidence.filter (·.recordsPublishedWork)

/-- The rows after it. -/
def later (name : String) : List PublisherResult → List PublisherResult
  | [] => []
  | r :: rs => if r.rollbackCandidate && r.name == name then rs else later name rs

/-- The records of the name that are joined, in the order of the rows. -/
def records (rows : List PublisherResult) (name : String) : List PublishEvidence :=
  rows.filterMap fun r => if r.group = .submitter ∨ r.name ≠ name then none else r.evidence

/-- The rows with the given records in the places later ones are joined into. -/
def assign (g : String → Option PublishEvidence) :
    List String → List PublisherResult → List PublisherResult
  | _, [] => []
  | seen, r :: rs =>
    if r.rollbackCandidate ∧ r.name ∉ seen then
      ((g r.name).elim r r.withEvidence) :: assign g (r.name :: seen) rs
    else r :: assign g seen rs

/-- The records are for rows that have one. -/
structure Fits (g : String → Option PublishEvidence) (seen : List String)
    (rows : List PublisherResult) : Prop where
  isSome : ∀ n ∉ seen, (g n).isSome = (ownEvidence rows n).isSome
  work : ∀ n, ∀ e ∈ g n, e.recordsPublishedWork

section Rows

variable {g g' : String → Option PublishEvidence} {seen : List String} {r : PublisherResult}
  {rows rs L : List PublisherResult} {n : String} {e : PublishEvidence}

theorem firstOwn_cons_self (hc : r.rollbackCandidate) : firstOwn (r :: rs) r.name = some r := by
  simp [firstOwn, hc]

theorem firstOwn_cons_of_not (h : ¬ (r.rollbackCandidate ∧ r.name = n)) :
    firstOwn (r :: rs) n = firstOwn rs n := by
  rw [firstOwn, List.find?_cons_of_neg (by simpa using h), firstOwn]

theorem ownEvidence_cons_of_not (h : ¬ (r.rollbackCandidate ∧ r.name = n)) :
    ownEvidence (r :: rs) n = ownEvidence rs n := by
  rw [ownEvidence, firstOwn_cons_of_not h, ownEvidence]

theorem later_cons_of_not (h : ¬ (r.rollbackCandidate ∧ r.name = n)) :
    later n (r :: rs) = later n rs := by
  rw [later, if_neg (by simpa using h)]

theorem later_cons_self (hc : r.rollbackCandidate) : later r.name (r :: rs) = rs := by
  simp [later, hc]

theorem ownEvidence_eq_some_iff : ownEvidence rows n = some e ↔
    ∃ f, firstOwn rows n = some f ∧ f.evidence = some e ∧ e.recordsPublishedWork := by
  simp [ownEvidence, Option.bind_eq_some_iff, Option.filter_eq_some_iff]

theorem Fits.tail_of_own (h : Fits g seen (r :: rs)) :
    Fits g (r.name :: seen) rs where
  isSome n hn := by
    rw [List.mem_cons, not_or] at hn
    rw [h.isSome n hn.2, ownEvidence_cons_of_not fun hr => hn.1 hr.2.symm]
  work := h.work

theorem Fits.tail_of_not (h : Fits g seen (r :: rs))
    (hr : ¬ (r.rollbackCandidate ∧ r.name ∉ seen)) : Fits g seen rs where
  isSome n hn := by
    rw [h.isSome n hn, ownEvidence_cons_of_not]
    rintro ⟨hc, rfl⟩
    exact hr ⟨hc, hn⟩
  work := h.work

theorem fits_own (rows : List PublisherResult) : Fits (ownEvidence rows) [] rows where
  isSome _ _ := rfl
  work n e he := by
    obtain ⟨-, -, -, hw⟩ := ownEvidence_eq_some_iff.mp he
    exact hw

theorem assign_congr (h : ∀ n ∉ seen, g n = g' n) : assign g seen rows = assign g' seen rows := by
  induction rows generalizing seen with
  | nil => rfl
  | cons r rs ih =>
    rw [assign, assign]
    by_cases hr : r.rollbackCandidate ∧ r.name ∉ seen
    · rw [if_pos hr, if_pos hr, h _ hr.2, ih fun n hn => h n fun hs =>
        hn (List.mem_cons_of_mem _ hs)]
    · rw [if_neg hr, if_neg hr, ih h]

/-- The rows have their own records. -/
theorem assign_own (h : ∀ n ∉ seen, g n = ownEvidence rows n) : assign g seen rows = rows := by
  induction rows generalizing seen with
  | nil => rfl
  | cons r rs ih =>
    rw [assign]
    by_cases hr : r.rollbackCandidate ∧ r.name ∉ seen
    · rw [if_pos hr, ih fun n hn => ?_]
      · rw [h _ hr.2, ownEvidence, firstOwn_cons_self hr.1, Option.bind_some]
        cases he : r.evidence with
        | none => rfl
        | some e =>
          rw [Option.filter_some]
          split
          · rw [Option.elim_some, PublisherResult.withEvidence, ← he]
          · rfl
      · rw [List.mem_cons, not_or] at hn
        rw [h n hn.2, ownEvidence_cons_of_not fun hr => hn.1 hr.2.symm]
    · rw [if_neg hr, ih fun n hn => ?_]
      rw [h n hn, ownEvidence_cons_of_not]
      rintro ⟨hc, rfl⟩
      exact hr ⟨hc, hn⟩

/-- A row that takes its place keeps it. -/
theorem rollbackCandidate_assigned (h : Fits g seen (r :: rs)) (hc : r.rollbackCandidate)
    (hs : r.name ∉ seen) : ((g r.name).elim r r.withEvidence).rollbackCandidate ∧
      ((g r.name).elim r r.withEvidence).name = r.name ∧
      ((g r.name).elim r r.withEvidence).group = r.group ∧
      ∀ e, g r.name = some e ↔
        ((g r.name).elim r r.withEvidence).evidence.filter (·.recordsPublishedWork) = some e := by
  have hsome := h.isSome _ hs
  rw [ownEvidence, firstOwn_cons_self hc, Option.bind_some] at hsome
  cases hg : g r.name with
  | none =>
    rw [hg, Option.isSome_none, eq_comm, Option.isSome_eq_false_iff, Option.isNone_iff_eq_none]
      at hsome
    refine ⟨hc, rfl, rfl, fun e => ?_⟩
    rw [Option.elim_none, hsome]
  | some e =>
    have hw := h.work _ _ hg
    refine ⟨?_, rfl, rfl, fun e' => ?_⟩
    · rw [Option.elim_some]
      unfold PublisherResult.rollbackCandidate at hc ⊢
      rw [PublisherResult.group_withEvidence, PublisherResult.outcome_withEvidence,
        PublisherResult.evidence_withEvidence]
      cases hgroup : r.group <;> cases ho : r.outcome <;> simp_all
    · rw [Option.elim_some, PublisherResult.evidence_withEvidence, Option.filter_some, if_pos hw]

theorem ownEvidence_assign (h : Fits g seen rows) (hn : n ∉ seen) :
    ownEvidence (assign g seen rows) n = g n := by
  induction rows generalizing seen with
  | nil =>
    have hsome := h.isSome n hn
    simp only [ownEvidence, firstOwn, List.find?_nil, Option.bind_none, Option.isSome_none,
      Option.isSome_eq_false_iff, Option.isNone_iff_eq_none] at hsome
    rw [hsome]
    rfl
  | cons r rs ih =>
    rw [assign]
    by_cases hr : r.rollbackCandidate ∧ r.name ∉ seen
    · obtain ⟨hc, hname, -, hev⟩ := rollbackCandidate_assigned h hr.1 hr.2
      rw [if_pos hr]
      by_cases hrn : r.name = n
      · subst hrn
        have hfirst := @firstOwn_cons_self _ (assign g (r.name :: seen) rs) hc
        rw [hname] at hfirst
        rw [ownEvidence, hfirst, Option.bind_some]
        exact Option.ext fun e => (hev e).symm
      · rw [ownEvidence_cons_of_not (fun hx => hrn (hname ▸ hx.2))]
        exact ih h.tail_of_own (by simp [hn, Ne.symm hrn])
    · rw [if_neg hr, ownEvidence_cons_of_not]
      · exact ih (h.tail_of_not hr) hn
      · rintro ⟨hc, rfl⟩
        exact hr ⟨hc, hn⟩

/-- A join changes one record, and only of the rows joined into. -/
theorem joinInto_assign (h : Fits g seen rows) (hn : n ∉ seen) (e : PublishEvidence) :
    joinInto n e (assign g seen rows) = ((g n).bind (·.absorbPrior e)).map fun joined =>
      assign (Function.update g n (some joined)) seen rows := by
  induction rows generalizing seen with
  | nil =>
    have hsome := h.isSome n hn
    simp only [ownEvidence, firstOwn, List.find?_nil, Option.bind_none, Option.isSome_none,
      Option.isSome_eq_false_iff, Option.isNone_iff_eq_none] at hsome
    rw [hsome]
    rfl
  | cons r rs ih =>
    have hupdate : ∀ joined, Function.update g n (some joined) n = some joined := fun joined =>
      Function.update_self ..
    simp only [assign]
    by_cases hr : r.rollbackCandidate ∧ r.name ∉ seen
    · obtain ⟨hc, hname, -, hev⟩ := rollbackCandidate_assigned h hr.1 hr.2
      simp only [if_pos hr]
      by_cases hrn : r.name = n
      · subst hrn
        have hcond : (((g r.name).elim r r.withEvidence).rollbackCandidate &&
            ((g r.name).elim r r.withEvidence).name == r.name) = true := by
          rw [hc, hname, beq_self_eq_true, Bool.and_self]
        rw [joinInto, if_pos hcond]
        cases hg : g r.name with
        | none =>
          have hnone : ∀ mine, r.evidence = some mine → mine.recordsPublishedWork = false := by
            intro mine hmine
            by_contra hw
            have hsome := (hev mine).mpr (by
              rw [hg, Option.elim_none, hmine, Option.filter_some,
                if_pos (Bool.eq_true_of_not_eq_false hw)])
            rw [hg] at hsome
            cases hsome
          rw [Option.elim_none]
          cases hmine : r.evidence with
          | none => rfl
          | some mine => simp [hnone mine hmine]
        | some mine =>
          have hw := h.work _ _ hg
          simp only [Option.elim_some, PublisherResult.evidence_withEvidence, hw, if_true,
            Option.bind_some, hupdate]
          congr 1
          funext joined
          have hrest : assign (Function.update g r.name (some joined)) (r.name :: seen) rs =
              assign g (r.name :: seen) rs := by
            refine assign_congr fun m hm => Function.update_of_ne ?_ _ _
            rintro rfl
            exact hm List.mem_cons_self
          rw [hrest]
          rfl
      · have hcond : ¬ (((g r.name).elim r r.withEvidence).rollbackCandidate &&
            ((g r.name).elim r r.withEvidence).name == n) = true := by
          rw [hname]
          simp [hrn]
        rw [joinInto, if_neg hcond, ih h.tail_of_own (by simp [hn, Ne.symm hrn]), Option.map_map]
        simp only [Function.comp_def, Function.update_of_ne hrn]
    · have hcond : ¬ (r.rollbackCandidate && r.name == n) = true := by
        simp only [Bool.and_eq_true, beq_iff_eq]
        rintro ⟨hc, rfl⟩
        exact hr ⟨hc, hn⟩
      simp only [if_neg hr]
      rw [joinInto, if_neg hcond, ih (h.tail_of_not hr) hn, Option.map_map]
      rfl

theorem joinInto_isSome_iff : (joinInto n e rows).isSome ↔
    ∃ mine, ownEvidence rows n = some mine ∧ (mine.absorbPrior e).isSome := by
  have hjoin := joinInto_assign (fits_own rows) (List.not_mem_nil (a := n)) e
  rw [assign_own fun _ _ => rfl] at hjoin
  rw [hjoin, Option.isSome_map]
  cases ownEvidence rows n <;> simp

/-! ### The results of a fold -/

/-- What an earlier row does to the results. -/
def joinRow (rows : List PublisherResult) (b : PublisherResult) : List PublisherResult :=
  match b.evidence with
  | none => rows
  | some evidence =>
    if b.group = .submitter then rows else (joinInto b.name evidence rows).getD rows

/-- What an earlier row that is left over does to the carried rows. -/
def carryStep (rows : List PublisherResult) (b : PublisherResult) : List PublisherResult :=
  match b.evidence with
  | none => rows
  | some evidence => carryInto b evidence rows

theorem records_cons (b : PublisherResult) (L : List PublisherResult) (n : String) :
    records (b :: L) n =
      (if b.group = .submitter ∨ b.name ≠ n then none else b.evidence).toList ++ records L n := by
  rw [records, List.filterMap_cons]
  split
  · next h => rw [h]; rfl
  · next e h => rw [h]; rfl

theorem records_append (L L' : List PublisherResult) (n : String) :
    records (L ++ L') n = records L n ++ records L' n := List.filterMap_append

theorem mem_records : e ∈ records rows n ↔
    ∃ b ∈ rows, b.group ≠ .submitter ∧ b.name = n ∧ b.evidence = some e := by
  simp only [records, List.mem_filterMap]
  refine exists_congr fun b => and_congr_right fun _ => ?_
  split
  · next h => simp only [reduceCtorEq, false_iff]; tauto
  · next h => rw [not_or, not_not] at h; tauto

theorem joinRow_assign (h : Fits g [] rows) (b : PublisherResult) :
    ∃ g', joinRow (assign g [] rows) b = assign g' [] rows ∧ Fits g' [] rows ∧
      ∀ n, g' n = (g n).map fun mine => mine.absorbAll (records [b] n) := by
  have hkeep : (∀ n mine, g n = some mine → mine.absorbAll (records [b] n) = mine) →
      ∀ n, g n = (g n).map fun mine => mine.absorbAll (records [b] n) := by
    intro hnone n
    cases hg : g n with
    | none => rfl
    | some mine => rw [Option.map_some, hnone n mine hg]
  cases he : b.evidence with
  | none =>
    refine ⟨g, by rw [joinRow, he], h, hkeep fun n mine _ => ?_⟩
    rw [records_cons, he, ite_self]
    rfl
  | some evidence =>
    by_cases hs : b.group = .submitter
    · refine ⟨g, by rw [joinRow, he]; exact if_pos hs, h, hkeep fun n mine _ => ?_⟩
      rw [records_cons, if_pos (.inl hs)]
      rfl
    · have hrow : joinRow (assign g [] rows) b =
          (joinInto b.name evidence (assign g [] rows)).getD (assign g [] rows) := by
        rw [joinRow, he]
        exact if_neg hs
      have hrecords : ∀ n, n ≠ b.name → records [b] n = [] := fun n hn => by
        rw [records_cons, if_pos (.inr (Ne.symm hn))]
        rfl
      have hrecord : records [b] b.name = [evidence] := by
        rw [records_cons, if_neg (by simp [hs]), he]
        rfl
      rw [hrow, joinInto_assign h List.not_mem_nil]
      cases hj : (g b.name).bind (·.absorbPrior evidence) with
      | none =>
        refine ⟨g, rfl, h, hkeep fun n mine hg => ?_⟩
        by_cases hn : n = b.name
        · subst hn
          rw [hg, Option.bind_some] at hj
          rw [hrecord, PublishEvidence.absorbAll, List.foldl_cons, PublishEvidence.absorbInto, hj]
          rfl
        · rw [hrecords n hn]
          rfl
      | some joined =>
        obtain ⟨mine, hg, hjoined⟩ := Option.bind_eq_some_iff.mp hj
        refine ⟨Function.update g b.name (some joined), rfl, ⟨fun n _ => ?_, fun n e hn => ?_⟩,
          fun n => ?_⟩
        · rw [← h.isSome n List.not_mem_nil]
          by_cases hnb : n = b.name
          · rw [hnb, Function.update_self, hg]
            rfl
          · rw [Function.update_of_ne hnb]
        · by_cases hnb : n = b.name
          · rw [hnb, Function.update_self] at hn
            obtain rfl := Option.some.inj hn
            exact PublishEvidence.recordsPublishedWork_absorbPrior hjoined (h.work _ _ hg)
          · rw [Function.update_of_ne hnb] at hn
            exact h.work n e hn
        · by_cases hnb : n = b.name
          · rw [hnb, Function.update_self, hg, Option.map_some, hrecord]
            rw [PublishEvidence.absorbAll, List.foldl_cons, List.foldl_nil,
              PublishEvidence.absorbInto_of_eq hjoined]
          · rw [Function.update_of_ne hnb, hrecords n hnb]
            exact (Option.map_id' ..).symm

/-- The results after some earlier rows: each record after those of its name. -/
theorem foldl_joinRow (h : Fits g [] rows) (L : List PublisherResult) :
    ∃ g', L.foldl joinRow (assign g [] rows) = assign g' [] rows ∧ Fits g' [] rows ∧
      ∀ n, g' n = (g n).map fun mine => mine.absorbAll (records L n) := by
  induction L generalizing g with
  | nil => exact ⟨g, rfl, h, fun n => (Option.map_id' ..).symm⟩
  | cons b L ih =>
    obtain ⟨g₁, heq₁, hfits₁, hg₁⟩ := joinRow_assign h b
    obtain ⟨g₂, heq₂, hfits₂, hg₂⟩ := ih hfits₁
    refine ⟨g₂, by rw [List.foldl_cons, heq₁, heq₂], hfits₂, fun n => ?_⟩
    rw [hg₂, hg₁, Option.map_map]
    have happend : records (b :: L) n = records [b] n ++ records L n :=
      records_append [b] L n
    simp only [happend, PublishEvidence.absorbAll_append]
    rfl

/-- The candidate rows. -/
def candidates (rows : List PublisherResult) : List PublisherResult :=
  rows.filter (·.rollbackCandidate)

theorem candidates_cons_of_pos (hc : r.rollbackCandidate) :
    candidates (r :: rs) = r :: candidates rs := List.filter_cons_of_pos hc

theorem candidates_cons_of_neg (hc : ¬ r.rollbackCandidate) :
    candidates (r :: rs) = candidates rs := List.filter_cons_of_neg hc

theorem records_cons_of_ne (h : r.name ≠ n) : records (r :: rs) n = records rs n := by
  rw [records_cons, if_pos (.inr h)]
  rfl

/-- The records of a name: that of its first candidate row, and those of the rows after it. -/
theorem records_candidates (rows : List PublisherResult) (n : String) :
    records (candidates rows) n = ((firstOwn rows n).bind fun f =>
      if f.group = .submitter then none else f.evidence).toList ++
        records (candidates (later n rows)) n := by
  induction rows with
  | nil => rfl
  | cons r rs ih =>
    by_cases hr : r.rollbackCandidate ∧ r.name = n
    · obtain ⟨hc, rfl⟩ := hr
      rw [candidates_cons_of_pos hc, records_cons, firstOwn_cons_self hc, Option.bind_some,
        later_cons_self hc]
      simp
    · rw [firstOwn_cons_of_not hr, later_cons_of_not hr, ← ih]
      by_cases hc : r.rollbackCandidate
      · rw [candidates_cons_of_pos hc, records_cons_of_ne fun hn => hr ⟨hc, hn⟩]
      · rw [candidates_cons_of_neg hc]

theorem records_assign_of_seen (h : Fits g seen rows) (hn : n ∈ seen) :
    records (candidates (assign g seen rows)) n = records (candidates rows) n := by
  induction rows generalizing seen with
  | nil => rfl
  | cons r rs ih =>
    rw [assign]
    by_cases hr : r.rollbackCandidate ∧ r.name ∉ seen
    · obtain ⟨hc, hname, -, -⟩ := rollbackCandidate_assigned h hr.1 hr.2
      have hne : r.name ≠ n := fun he => hr.2 (he ▸ hn)
      rw [if_pos hr, candidates_cons_of_pos hc, candidates_cons_of_pos hr.1,
        records_cons_of_ne (hname.symm ▸ hne), records_cons_of_ne hne]
      exact ih h.tail_of_own (List.mem_cons_of_mem _ hn)
    · rw [if_neg hr]
      by_cases hc : r.rollbackCandidate
      · rw [candidates_cons_of_pos hc, candidates_cons_of_pos hc, records_cons, records_cons,
          ih (h.tail_of_not hr) hn]
      · rw [candidates_cons_of_neg hc, candidates_cons_of_neg hc, ih (h.tail_of_not hr) hn]

/-- The records of a name that has one, once it is replaced. -/
theorem records_assign (h : Fits g seen rows) (hn : n ∉ seen) (he : g n = some e) :
    records (candidates (assign g seen rows)) n =
      (if (firstOwn rows n).any (·.group = .submitter) then [] else [e]) ++
        records (candidates (later n rows)) n := by
  induction rows generalizing seen with
  | nil =>
    have hsome := h.isSome n hn
    rw [he] at hsome
    cases hsome
  | cons r rs ih =>
    rw [assign]
    by_cases hr : r.rollbackCandidate ∧ r.name ∉ seen
    · obtain ⟨hc, hname, hgroup, -⟩ := rollbackCandidate_assigned h hr.1 hr.2
      rw [if_pos hr, candidates_cons_of_pos hc]
      by_cases hrn : r.name = n
      · subst hrn
        rw [records_cons, records_assign_of_seen h.tail_of_own List.mem_cons_self,
          firstOwn_cons_self hr.1, hgroup, hname, he, later_cons_self hr.1]
        by_cases hs : r.group = .submitter <;> simp [hs]
      · have hnot : ¬ (r.rollbackCandidate ∧ r.name = n) := fun hx => hrn hx.2
        rw [records_cons_of_ne (hname.symm ▸ hrn), firstOwn_cons_of_not hnot,
          later_cons_of_not hnot]
        exact ih h.tail_of_own (by simp [hn, Ne.symm hrn])
    · have hnot : ¬ (r.rollbackCandidate ∧ r.name = n) := by
        rintro ⟨hc, rfl⟩
        exact hr ⟨hc, hn⟩
      rw [if_neg hr, firstOwn_cons_of_not hnot, later_cons_of_not hnot,
        ← ih (h.tail_of_not hr) hn]
      by_cases hc : r.rollbackCandidate
      · rw [candidates_cons_of_pos hc, records_cons_of_ne fun hrn => hnot ⟨hc, hrn⟩]
      · rw [candidates_cons_of_neg hc]

theorem mem_of_firstOwn (h : firstOwn rows n = some r) :
    r ∈ rows ∧ r.rollbackCandidate ∧ r.name = n := by
  have hp := List.find?_some h
  simp only [Bool.and_eq_true, beq_iff_eq] at hp
  exact ⟨List.mem_of_find?_eq_some h, hp⟩

/-- The assigned rows are the rows themselves, or the places later records are joined into. -/
theorem mem_assign (h : r ∈ assign g seen rows) : r ∈ rows ∨
    ∃ f e, f.name ∉ seen ∧ firstOwn rows f.name = some f ∧ g f.name = some e ∧
      r = f.withEvidence e := by
  induction rows generalizing seen with
  | nil => cases h
  | cons r' rs ih =>
    rw [assign] at h
    split at h
    · next hr =>
      rcases List.mem_cons.mp h with rfl | h
      · cases hg : g r'.name with
        | none => exact .inl (by rw [Option.elim_none]; exact List.mem_cons_self)
        | some e =>
          exact .inr ⟨r', e, hr.2, firstOwn_cons_self hr.1, hg, by rw [Option.elim_some]⟩
      · rcases ih h with h | ⟨f, e, hf, hfirst, h⟩
        · exact .inl (List.mem_cons_of_mem _ h)
        · rw [List.mem_cons, not_or] at hf
          refine .inr ⟨f, e, hf.2, ?_, h⟩
          rw [firstOwn_cons_of_not fun hx => hf.1 hx.2.symm, hfirst]
    · next hr =>
      rcases List.mem_cons.mp h with rfl | h
      · exact .inl List.mem_cons_self
      · rcases ih h with h | ⟨f, e, hf, hfirst, h⟩
        · exact .inl (List.mem_cons_of_mem _ h)
        · refine .inr ⟨f, e, hf, ?_, h⟩
          rw [firstOwn_cons_of_not fun hx => hr ⟨hx.1, hx.2 ▸ hf⟩, hfirst]

theorem mem_of_mem_later (h : r ∈ later n rows) : r ∈ rows := by
  induction rows with
  | nil => cases h
  | cons r' rs ih =>
    rw [later] at h
    split at h
    · exact List.mem_cons_of_mem _ h
    · exact List.mem_cons_of_mem _ (ih h)

end Rows

/-! ### The two lists of a folded report -/

section Fold

variable {report prior : PublishReport} {rows rows' L : List PublisherResult} {n : String}
  {b : PublisherResult} {e : PublishEvidence}

theorem any_of_joinsInto {f : PublisherResult → Bool} (hf : ∀ r e, f (r.withEvidence e) = f r)
    (h : JoinsInto n e rows rows') : rows'.any f = rows.any f := by
  induction h with
  | here => rw [List.any_cons, List.any_cons, hf]
  | there _ _ ih => rw [List.any_cons, List.any_cons, ih]

/-- A join settles no further row, and leaves none over. -/
theorem leftOver_joinRow (C : List PublisherResult) (b c : PublisherResult) :
    leftOver { report with results := joinRow report.results b, carriedForward := C } c =
      leftOver report c := by
  have hjoined : joinRow report.results b = report.results ∨
      ∃ n e, JoinsInto n e report.results (joinRow report.results b) := by
    rw [joinRow]
    split
    · exact .inl rfl
    · next evidence _ =>
      split
      · exact .inl rfl
      · cases hj : joinInto b.name evidence report.results with
        | none => exact .inl rfl
        | some rows => exact .inr ⟨_, _, joinsInto_of_joinInto hj⟩
  rw [leftOver, leftOver]
  rcases hjoined with heq | ⟨n, e, hjoins⟩
  · rw [heq]
    rfl
  · have hran : ∀ name, ranAgain
        { report with results := joinRow report.results b, carriedForward := C } name =
          ranAgain report name := fun name => any_of_joinsInto (fun _ _ => rfl) hjoins
    have hjoin : ∀ name e, (joinInto name e (joinRow report.results b)).isNone =
        (joinInto name e report.results).isNone := fun name e => by
      rw [← Bool.not_inj_iff, Option.not_isNone, Option.not_isNone]
      exact isSome_joinInto_of_joinsInto hjoins
    simp only [hran, hjoin]

theorem carryOne_eq (report : PublishReport) (b : PublisherResult) :
    carryOne report b = { report with
      results := joinRow report.results b
      carriedForward := ([b].filter (leftOver report)).foldl carryStep report.carriedForward } := by
  cases he : b.evidence with
  | none =>
    have hleft : leftOver report b = false := by rw [leftOver, he]
    rw [carryOne, joinRow, he, List.filter_cons_of_neg (by simp [hleft])]
    rfl
  | some evidence =>
    by_cases hs : b.group = .submitter
    · have hleft : leftOver report b = !ranAgain report b.name := by
        rw [leftOver, he]
        exact if_pos hs
      have hrow : joinRow report.results b = report.results := by
        rw [joinRow, he]
        exact if_pos hs
      rw [carryOne, he, hrow]
      simp only [hs, if_true]
      cases hran : ranAgain report b.name with
      | true =>
        rw [List.filter_cons_of_neg (by simp [hleft, hran])]
        rfl
      | false =>
        rw [List.filter_cons_of_pos (by simp [hleft, hran])]
        simp [carryStep, he, carryRow]
    · have hleft : leftOver report b = (joinInto b.name evidence report.results).isNone := by
        rw [leftOver, he]
        exact if_neg hs
      have hrow : joinRow report.results b =
          (joinInto b.name evidence report.results).getD report.results := by
        rw [joinRow, he]
        exact if_neg hs
      rw [carryOne, he, hrow]
      simp only [hs, if_false]
      cases hj : joinInto b.name evidence report.results with
      | some results =>
        rw [List.filter_cons_of_neg (by simp [hleft, hj])]
        rfl
      | none =>
        rw [List.filter_cons_of_pos (by simp [hleft, hj])]
        simp [carryStep, he, carryRow]

/-- A fold takes the earlier rows into the results, and the left-over ones to the carried rows. -/
theorem foldl_carryOne (L : List PublisherResult) (report : PublishReport) :
    L.foldl carryOne report = { report with
      results := L.foldl joinRow report.results
      carriedForward := (L.filter (leftOver report)).foldl carryStep report.carriedForward } := by
  induction L generalizing report with
  | nil => rfl
  | cons b L ih =>
    have hleft : leftOver (carryOne report b) = leftOver report := by
      rw [carryOne_eq]
      exact funext (leftOver_joinRow _ b)
    have hfilter : (b :: L).filter (leftOver report) =
        [b].filter (leftOver report) ++ L.filter (leftOver report) := List.filter_append [b] L
    rw [List.foldl_cons, ih, hleft, hfilter, List.foldl_append, List.foldl_cons,
      carryOne_eq]

theorem carryPriorWork_eq (report prior : PublishReport) :
    carryPriorWork report prior = { report with
      results := (earlierRows prior).foldl joinRow report.results
      carriedForward := ((earlierRows prior).filter (leftOver report)).foldl carryStep
        report.carriedForward } :=
  foldl_carryOne (earlierRows prior) report

/-! ### The carried rows -/

theorem names_carryInto (b : PublisherResult) (e : PublishEvidence) (rows : List PublisherResult) :
    (carryInto b e rows).map (·.name) =
      if b.name ∈ rows.map (·.name) then rows.map (·.name) else rows.map (·.name) ++ [b.name] := by
  induction rows with
  | nil => rfl
  | cons r rs ih =>
    rw [carryInto]
    by_cases hr : r.name = b.name
    · rw [if_pos (beq_iff_eq.mpr hr), List.map_cons, if_pos (by simp [hr])]
      split
      · rfl
      · rw [List.map_cons, hr]
    · rw [if_neg (by simpa using hr), List.map_cons, ih, List.map_cons]
      by_cases hb : b.name ∈ rs.map (·.name)
      · rw [if_pos hb, if_pos (List.mem_cons_of_mem _ hb)]
      · rw [if_neg hb, if_neg (List.not_mem_cons_of_ne_of_not_mem (Ne.symm hr) hb),
          List.cons_append]

theorem carryInto_of_notMem (h : b.name ∉ rows.map (·.name)) (e : PublishEvidence) :
    carryInto b e rows = rows ++ [b] := by
  induction rows with
  | nil => rfl
  | cons r rs ih =>
    rw [List.map_cons, List.mem_cons, not_or] at h
    rw [carryInto, if_neg (by simpa using Ne.symm h.1), ih h.2, List.cons_append]

theorem exists_evidence_of_leftOver (h : leftOver report b) : ∃ e, b.evidence = some e := by
  rw [leftOver] at h
  cases he : b.evidence with
  | none => simp [he] at h
  | some e => exact ⟨e, rfl⟩

/-- A carried row stays left over once another record has joined it. -/
theorem leftOver_withEvidence {joined earlier : PublishEvidence} (h : leftOver report b)
    (he : b.evidence = some e) (hj : e.absorbPrior earlier = some joined) :
    leftOver report (b.withEvidence joined) := by
  rw [leftOver, he] at h
  rw [leftOver, PublisherResult.evidence_withEvidence]
  by_cases hs : b.group = .submitter
  · simpa [hs] using h
  · simp only [PublisherResult.group_withEvidence, PublisherResult.name_withEvidence, hs, if_false,
      Option.isNone_iff_eq_none] at h ⊢
    rw [← Option.not_isSome_iff_eq_none, joinInto_isSome_iff] at h ⊢
    rintro ⟨mine, hmine, hsome⟩
    obtain ⟨hk, -⟩ := PublishEvidence.kind_absorbPrior hj
    refine h ⟨mine, hmine, PublishEvidence.absorbPrior_isSome_iff.mpr ?_⟩
    by_cases hn : e.extra.kind = none
    · have hsame := PublishEvidence.absorbInto_of_eq hj
      rw [PublishEvidence.absorbInto_of_untyped hn] at hsame
      rw [hsame]
      exact PublishEvidence.absorbPrior_isSome_iff.mp hsome
    · right
      rcases PublishEvidence.absorbPrior_isSome_iff.mp hsome with rfl | ⟨hk', hn'⟩
      · exact ⟨hk, hk ▸ hn⟩
      · exact ⟨hk'.trans hk, hn'⟩

/-- The carried rows: one a name, each a candidate that is left over. -/
structure Carried (report : PublishReport) (C : List PublisherResult) : Prop where
  names : (C.map (·.name)).Nodup
  left : ∀ c ∈ C, c.rollbackCandidate ∧ leftOver report c

theorem carried_step {C : List PublisherResult} (h : Carried report C) (hc : b.rollbackCandidate)
    (hl : leftOver report b) : Carried report (carryStep C b) := by
  obtain ⟨e, he⟩ := exists_evidence_of_leftOver hl
  rw [carryStep, he]
  refine ⟨?_, fun c hmem => ?_⟩
  · dsimp only
    rw [names_carryInto]
    split
    · exact h.names
    · next hn => exact h.names.append (List.nodup_singleton _) (by simpa using hn)
  · rcases mem_carryInto hmem with hmem | rfl | ⟨r, hr, e', joined, -, hre, hj, rfl⟩
    · exact h.left c hmem
    · exact ⟨hc, hl⟩
    · obtain ⟨hcr, hlr⟩ := h.left r hr
      exact ⟨PublisherResult.rollbackCandidate_join hre hj hcr, leftOver_withEvidence hlr hre hj⟩

theorem carried_foldl {C : List PublisherResult} (h : Carried report C)
    (hL : ∀ b ∈ L, b.rollbackCandidate ∧ leftOver report b) :
    Carried report (L.foldl carryStep C) := by
  induction L generalizing C with
  | nil => exact h
  | cons b L ih =>
    obtain ⟨hc, hl⟩ := hL b List.mem_cons_self
    exact ih (carried_step h hc hl) fun b' hb' => hL b' (List.mem_cons_of_mem _ hb')

/-- Carried rows read back are carried again as they are. -/
theorem foldl_carryStep_self {C acc : List PublisherResult}
    (hn : ((acc ++ C).map (·.name)).Nodup) (he : ∀ c ∈ C, ∃ e, c.evidence = some e) :
    C.foldl carryStep acc = acc ++ C := by
  induction C generalizing acc with
  | nil => rw [List.foldl_nil, List.append_nil]
  | cons c C ih =>
    obtain ⟨e, hce⟩ := he c List.mem_cons_self
    have hnot : c.name ∉ acc.map (·.name) := by
      rw [List.map_append, List.map_cons] at hn
      intro hmem
      exact (List.nodup_append.mp hn).2.2 _ hmem _ List.mem_cons_self rfl
    have hstep : carryStep acc c = acc ++ [c] := by
      rw [carryStep, hce]
      exact carryInto_of_notMem hnot e
    rw [List.foldl_cons, hstep, ih (by simpa using hn) fun c' hc' =>
      he c' (List.mem_cons_of_mem _ hc'), List.append_assoc, List.singleton_append]

theorem foldl_carryStep_ne_nil {C : List PublisherResult}
    (he : ∀ b ∈ L, ∃ e, b.evidence = some e) (h : L ≠ [] ∨ C ≠ []) :
    L.foldl carryStep C ≠ [] := by
  induction L generalizing C with
  | nil => exact h.resolve_left fun hne => hne rfl
  | cons b L ih =>
    obtain ⟨e, hbe⟩ := he b List.mem_cons_self
    refine ih (fun b' hb' => he b' (List.mem_cons_of_mem _ hb')) (.inr fun hnil => ?_)
    have hnames := names_carryInto b e C
    rw [carryStep, hbe] at hnil
    dsimp only at hnil
    rw [hnil] at hnames
    split at hnames
    · next hmem =>
      rw [List.map_nil] at hnames
      rw [← hnames] at hmem
      cases hmem
    · simp at hnames

end Fold

/-! ### Reports that settle -/

/-- The report of one run, which has carried nothing yet. -/
structure FreshReport extends PublishReport where
  fresh : toPublishReport.carriedForward = []

/-- Every own row a withdrawal acts on is held where it will be read back. -/
structure Settled (report : PublishReport) : Prop where
  rests : ∀ r ∈ candidates report.results, ∀ e ∈ r.evidence,
    if r.group = .submitter then ranAgain report r.name
    else ∃ mine ∈ ownEvidence report.results r.name, mine.Holds e
  objects : ∀ n, ((records (candidates report.results) n).flatMap (·.extra.objects)).Nodup
  submitters : ∀ n, ∀ f ∈ firstOwn report.results n, f.group = .submitter →
    ∀ mine ∈ ownEvidence report.results n, mine.extra.kind = none

section Settle

variable {report : FreshReport} {prior : PublishReport} {n : String} {mine e : PublishEvidence}

theorem absorbPrior_isSome_of_holds (h : mine.Holds e) : (mine.absorbPrior e).isSome := by
  rcases h with rfl | ⟨hk, hn, -⟩
  · exact PublishEvidence.absorbPrior_isSome_iff.mpr (.inl rfl)
  · exact PublishEvidence.absorbPrior_isSome hk hn

/-- The record of a name absorbs what it has become. -/
theorem absorbPrior_isSome_absorbAll (mine : PublishEvidence) (L : List PublishEvidence) :
    (mine.absorbPrior (mine.absorbAll L)).isSome := by
  by_cases hn : mine.extra.kind = none
  · rw [PublishEvidence.absorbAll_of_untyped hn]
    exact PublishEvidence.absorbPrior_isSome_iff.mpr (.inl rfl)
  · exact PublishEvidence.absorbPrior_isSome (PublishEvidence.kind_absorbAll L).symm hn

/-- The results a fold ends with, as records of their names. -/
theorem results_carryPriorWork (report : FreshReport) (prior : PublishReport) :
    ∃ g, (carryPriorWork report.toPublishReport prior).results = assign g [] report.results ∧
      Fits g [] report.results ∧ ∀ n, g n = (ownEvidence report.results n).map fun mine =>
        mine.absorbAll (records (earlierRows prior) n) := by
  obtain ⟨g, hg, hfits, hrecords⟩ := foldl_joinRow (fits_own report.results) (earlierRows prior)
  rw [assign_own fun _ _ => rfl] at hg
  exact ⟨g, by rw [carryPriorWork_eq, hg], hfits, hrecords⟩

theorem carried_carryPriorWork (report : FreshReport) (prior : PublishReport) :
    Carried report.toPublishReport
      (carryPriorWork report.toPublishReport prior).carriedForward := by
  rw [carryPriorWork_eq, report.fresh]
  refine carried_foldl ⟨List.nodup_nil, fun c hc => by cases hc⟩ fun b hb => ?_
  obtain ⟨hb, hl⟩ := List.mem_filter.mp hb
  exact ⟨(mem_earlierRows.mp hb).2, hl⟩

/-- The earlier rows of a folded report: the carried rows, then the own candidates. -/
theorem earlierRows_carryPriorWork (report : FreshReport) (prior : PublishReport) :
    earlierRows (carryPriorWork report.toPublishReport prior) =
      (carryPriorWork report.toPublishReport prior).carriedForward ++
        candidates (carryPriorWork report.toPublishReport prior).results := by
  rw [earlierRows, List.filter_eq_self.mpr
    fun c hc => ((carried_carryPriorWork report prior).left c hc).1]
  rfl

/-- A left-over row adds nothing to the record of its name. -/
theorem absorbAll_records_carried {C : List PublisherResult}
    (hC : Carried report.toPublishReport C) (hmine : ownEvidence report.results n = some mine) :
    mine.absorbAll (records C n) = mine := by
  have hnone : ∀ e ∈ records C n, PublishEvidence.absorbInto mine e = mine := by
    intro e he
    obtain ⟨c, hc, hs, rfl, hce⟩ := mem_records.mp he
    have hl := (hC.left c hc).2
    rw [leftOver, hce] at hl
    simp only [hs, if_false, Option.isNone_iff_eq_none] at hl
    rw [← Option.not_isSome_iff_eq_none, joinInto_isSome_iff] at hl
    cases hj : mine.absorbPrior e with
    | none => rw [PublishEvidence.absorbInto, hj, Option.getD_none]
    | some joined => exact absurd ⟨mine, hmine, by rw [hj]; rfl⟩ hl
  generalize records C n = L at hnone
  induction L with
  | nil => rfl
  | cons e L ih =>
    rw [PublishEvidence.absorbAll, List.foldl_cons, hnone e List.mem_cons_self]
    exact ih fun e he => hnone e (List.mem_cons_of_mem _ he)

/-- A candidate row of a settled report is not left over, nor is it once joined. -/
theorem Settled.not_leftOver (h : Settled report.toPublishReport) {r : PublisherResult}
    (hr : r ∈ candidates (carryPriorWork report.toPublishReport prior).results) :
    ¬ leftOver report.toPublishReport r := by
  obtain ⟨g, hg, hfits, hrecords⟩ := results_carryPriorWork report prior
  rw [hg] at hr
  obtain ⟨hr, hc⟩ := List.mem_filter.mp hr
  rw [leftOver]
  rcases mem_assign hr with hr | ⟨f, e, -, hfirst, hge, rfl⟩
  · cases he : r.evidence with
    | none => simp
    | some e =>
      have hrests := h.rests r (List.mem_filter.mpr ⟨hr, hc⟩) e he
      by_cases hs : r.group = .submitter
      · simpa [hs] using hrests
      · rw [if_neg hs] at hrests
        obtain ⟨mine, hmine, hholds⟩ := hrests
        have hjoin : (joinInto r.name e report.results).isSome :=
          joinInto_isSome_iff.mpr ⟨mine, hmine, absorbPrior_isSome_of_holds hholds⟩
        simpa [hs, Option.isSome_iff_ne_none] using hjoin
  · rw [hrecords] at hge
    obtain ⟨mine, hmine, rfl⟩ := Option.map_eq_some_iff.mp hge
    rw [PublisherResult.evidence_withEvidence]
    by_cases hs : f.group = .submitter
    · obtain ⟨f', hfirst', hfe, -⟩ := ownEvidence_eq_some_iff.mp hmine
      obtain rfl : f = f' := Option.some.inj (hfirst.symm.trans hfirst')
      obtain ⟨hf, hfc, -⟩ := mem_of_firstOwn hfirst
      have hrests := h.rests f (List.mem_filter.mpr ⟨hf, hfc⟩) mine hfe
      simpa [hs] using hrests
    · have hjoin : (joinInto f.name (mine.absorbAll (records (earlierRows prior) f.name))
          report.results).isSome :=
        joinInto_isSome_iff.mpr ⟨mine, hmine, absorbPrior_isSome_absorbAll _ _⟩
      simpa [hs, Option.isSome_iff_ne_none] using hjoin

/-- The records a settled report's later rows leave nothing to add. -/
theorem Settled.holds_later (h : Settled report.toPublishReport)
    (hmine : ownEvidence report.results n = some mine)
    (hs : ¬ (firstOwn report.results n).any (·.group = .submitter)) :
    mine.extra.objects.Nodup ∧
      ∀ e ∈ records (candidates (later n report.results)) n, mine.Holds e ∧ e.extra.objects = [] := by
  obtain ⟨f, hfirst, hfe, -⟩ := ownEvidence_eq_some_iff.mp hmine
  have hfs : f.group ≠ .submitter := by simpa [hfirst] using hs
  have hobjects := h.objects n
  rw [records_candidates, hfirst, Option.bind_some, if_neg hfs, hfe, Option.toList_some,
    List.singleton_append, List.flatMap_cons] at hobjects
  obtain ⟨hnodup, -, hdisjoint⟩ := List.nodup_append.mp hobjects
  refine ⟨hnodup, fun e he => ?_⟩
  have hholds : mine.Holds e := by
    obtain ⟨r, hr, hrs, rfl, hre⟩ := mem_records.mp he
    obtain ⟨hr, hrc⟩ := List.mem_filter.mp hr
    have hrests := h.rests r (List.mem_filter.mpr ⟨mem_of_mem_later hr, hrc⟩) e hre
    rw [if_neg hrs] at hrests
    obtain ⟨mine', hmine', hholds⟩ := hrests
    obtain rfl : mine = mine' := Option.some.inj (hmine.symm.trans hmine')
    exact hholds
  refine ⟨hholds, List.eq_nil_iff_forall_not_mem.mpr fun t ht => ?_⟩
  have htm : t ∈ mine.extra.objects := by
    rcases hholds with rfl | ⟨hk, -, hsub, -⟩
    · exact ht
    · by_cases hblob : e.extra.kind = some 13
      · rw [PublishEvidenceExtra.objects_eq_targets_of_kind (hk.trans hblob)]
        exact hsub (PublishEvidenceExtra.objects_subset_targets ht)
      · rw [PublishEvidenceExtra.objects_eq_nil_of_kind hblob] at ht
        cases ht
  exact hdisjoint t htm t (List.mem_flatMap.mpr ⟨e, he, ht⟩) rfl

/-- A settled report's second write is its first. -/
theorem carryPriorWork_of_settled (h : Settled report.toPublishReport) (prior : PublishReport) :
    carryPriorWork report.toPublishReport (carryPriorWork report.toPublishReport prior) =
      carryPriorWork report.toPublishReport prior := by
  obtain ⟨g, hg, hfits, hrecords⟩ := results_carryPriorWork report prior
  obtain ⟨g', hg', -, hrecords'⟩ := results_carryPriorWork report
    (carryPriorWork report.toPublishReport prior)
  have hcarried := carried_carryPriorWork report prior
  have hresults : (carryPriorWork report.toPublishReport
      (carryPriorWork report.toPublishReport prior)).results =
        (carryPriorWork report.toPublishReport prior).results := by
    rw [hg, hg']
    refine assign_congr fun n _ => ?_
    rw [hrecords, hrecords']
    cases hmine : ownEvidence report.results n with
    | none => rfl
    | some mine =>
      rw [Option.map_some, Option.map_some, Option.some.injEq]
      have hgn : g n = some (mine.absorbAll (records (earlierRows prior) n)) := by
        rw [hrecords, hmine, Option.map_some]
      rw [earlierRows_carryPriorWork, records_append, PublishEvidence.absorbAll_append,
        absorbAll_records_carried hcarried hmine, hg, records_assign hfits List.not_mem_nil hgn]
      by_cases hs : (firstOwn report.results n).any (·.group = .submitter)
      · obtain ⟨f, hf, -⟩ := ownEvidence_eq_some_iff.mp hmine
        have hn := h.submitters n f hf (by simpa [hf] using hs) mine hmine
        rw [PublishEvidence.absorbAll_of_untyped hn, PublishEvidence.absorbAll_of_untyped hn]
      · obtain ⟨hnodup, hlater⟩ := h.holds_later hmine hs
        rw [if_neg hs, PublishEvidence.absorbAll_append]
        have hself : PublishEvidence.absorbInto mine
            (mine.absorbAll (records (earlierRows prior) n)) =
              mine.absorbAll (records (earlierRows prior) n) := by
          by_cases hn : mine.extra.kind = none
          · rw [PublishEvidence.absorbAll_of_untyped hn, PublishEvidence.absorbInto_of_untyped hn]
          · exact (PublishEvidence.outgrows_absorbAll hn hnodup _).absorbInto_eq
        have hone : mine.absorbAll [mine.absorbAll (records (earlierRows prior) n)] =
            mine.absorbAll (records (earlierRows prior) n) := hself
        rw [hone]
        exact PublishEvidence.absorbAll_of_holds fun e he =>
          ⟨(hlater e he).1.absorbAll _, (hlater e he).2⟩
  have hforward : (carryPriorWork report.toPublishReport
      (carryPriorWork report.toPublishReport prior)).carriedForward =
        (carryPriorWork report.toPublishReport prior).carriedForward := by
    rw [carryPriorWork_eq report.toPublishReport (carryPriorWork report.toPublishReport prior),
      report.fresh, earlierRows_carryPriorWork, List.filter_append,
      List.filter_eq_self.mpr fun c hc => (hcarried.left c hc).2,
      List.filter_eq_nil_iff.mpr fun r hr => h.not_leftOver hr, List.append_nil]
    exact foldl_carryStep_self (by simpa using hcarried.names) fun c hc =>
      exists_evidence_of_leftOver (hcarried.left c hc).2
  have hframe : ∀ p, carryPriorWork report.toPublishReport p = { report.toPublishReport with
      results := (carryPriorWork report.toPublishReport p).results
      carriedForward := (carryPriorWork report.toPublishReport p).carriedForward } := fun p => by
    rw [carryPriorWork_eq]
  rw [hframe (carryPriorWork report.toPublishReport prior), hresults, hforward, ← hframe prior]

/-- The second write of the run is the first, whatever was persisted before it. -/
def WritesTwice (report : FreshReport) : Prop :=
  ∀ prior, carryPriorWork report.toPublishReport (carryPriorWork report.toPublishReport prior) =
    carryPriorWork report.toPublishReport prior

theorem WritesTwice.absorbAll_eq (h : WritesTwice report) (prior : PublishReport)
    (hmine : ownEvidence report.results n = some mine) :
    mine.absorbAll (records (earlierRows (carryPriorWork report.toPublishReport prior)) n) =
      mine.absorbAll (records (earlierRows prior) n) := by
  obtain ⟨g, hg, hfits, hrecords⟩ := results_carryPriorWork report prior
  obtain ⟨g', hg', hfits', hrecords'⟩ := results_carryPriorWork report
    (carryPriorWork report.toPublishReport prior)
  rw [h prior, hg] at hg'
  have hsame : g n = g' n := by
    rw [← ownEvidence_assign hfits List.not_mem_nil, hg', ownEvidence_assign hfits' List.not_mem_nil]
  rw [hrecords, hrecords', hmine, Option.map_some, Option.map_some] at hsame
  exact (Option.some.inj hsame).symm

theorem WritesTwice.same (h : WritesTwice report) :
    carryPriorWork report.toPublishReport report.toPublishReport = report.toPublishReport :=
  h {}

theorem earlierRows_fresh (report : FreshReport) :
    earlierRows report.toPublishReport = candidates report.results := by
  rw [earlierRows, report.fresh]
  rfl

/-- An earlier report with one record of the name. -/
def oneRow (name : String) (evidence : PublishEvidence) : PublishReport where
  results := [⟨name, .assets, false, .succeeded, some evidence, []⟩]

/-- A second write joins the rows of the name again, from the record the first one wrote. -/
theorem WritesTwice.absorbAll_later (h : WritesTwice report)
    (hmine : ownEvidence report.results n = some mine) (he : (mine.absorbPrior e).isSome) :
    mine.absorbAll ((if (firstOwn report.results n).any (·.group = .submitter) then []
      else [PublishEvidence.absorbInto mine e]) ++
        records (candidates (later n report.results)) n) = PublishEvidence.absorbInto mine e := by
  have hrows : earlierRows (oneRow n e) = (oneRow n e).results := rfl
  have hrecords : records (earlierRows (oneRow n e)) n = [e] := by
    rw [hrows, oneRow, records_cons, if_neg (by simp)]
    rfl
  have hnil : (carryPriorWork report.toPublishReport (oneRow n e)).carriedForward = [] := by
    have hjoin : (joinInto n e report.results).isSome := joinInto_isSome_iff.mpr ⟨mine, hmine, he⟩
    have hleft : (oneRow n e).results.filter (leftOver report.toPublishReport) = [] := by
      refine List.filter_eq_nil_iff.mpr fun r hr => ?_
      obtain rfl := List.mem_singleton.mp hr
      simpa [leftOver, Option.isSome_iff_ne_none] using hjoin
    rw [carryPriorWork_eq, hrows, hleft, report.fresh]
    rfl
  obtain ⟨g, hg, hfits, hg'⟩ := results_carryPriorWork report (oneRow n e)
  have hgn : g n = some (PublishEvidence.absorbInto mine e) := by
    rw [hg', hmine, hrecords]
    rfl
  have heq := h.absorbAll_eq (oneRow n e) hmine
  rw [earlierRows_carryPriorWork, hnil, List.nil_append, hg,
    records_assign hfits List.not_mem_nil hgn, hrecords] at heq
  exact heq

theorem WritesTwice.rests (h : WritesTwice report) :
    ∀ r ∈ candidates report.results, ∀ e ∈ r.evidence,
      if r.group = .submitter then ranAgain report.toPublishReport r.name
      else ∃ mine ∈ ownEvidence report.results r.name, mine.Holds e := by
  intro r hr e he
  have hnot : ¬ leftOver report.toPublishReport r := by
    have hcarried := congrArg PublishReport.carriedForward h.same
    rw [carryPriorWork_eq, earlierRows_fresh, report.fresh] at hcarried
    intro hl
    refine foldl_carryStep_ne_nil (fun b hb => ?_) (.inl ?_) hcarried
    · exact exists_evidence_of_leftOver (List.mem_filter.mp hb).2
    · exact List.ne_nil_of_mem (List.mem_filter.mpr ⟨hr, hl⟩)
  rw [leftOver, Option.mem_def.mp he] at hnot
  by_cases hs : r.group = .submitter
  · simpa [hs] using hnot
  · rw [if_neg hs]
    simp only [hs, if_false, Option.isNone_iff_eq_none] at hnot
    obtain ⟨mine, hmine, hsome⟩ :=
      joinInto_isSome_iff.mp (Option.isSome_iff_ne_none.mpr hnot)
    refine ⟨mine, hmine, ?_⟩
    have heq := h.absorbAll_eq {} hmine
    have hfirst : carryPriorWork report.toPublishReport {} = report.toPublishReport := rfl
    rw [hfirst, earlierRows_fresh] at heq
    obtain ⟨L, L', hL⟩ := List.append_of_mem (mem_records.mpr ⟨r, hr, hs, rfl, he⟩)
    have hholds := (PublishEvidence.holds_absorbInto
      (PublishEvidence.absorbPrior_isSome_of_absorbAll hsome L)).absorbAll L'
    have hall : ((mine.absorbAll L).absorbInto e).absorbAll L' = mine := by
      rw [hL, PublishEvidence.absorbAll_append] at heq
      exact heq
    rwa [hall] at hholds

/-- A path no own record names. -/
theorem exists_fresh (report : PublishReport) : ∃ x : String,
    ∀ r ∈ report.results, ∀ e ∈ r.evidence, x ∉ e.artifactPaths := by
  obtain ⟨x, hx⟩ := Infinite.exists_notMem_finset
    (report.results.flatMap fun r => r.evidence.elim [] (·.artifactPaths)).toFinset
  refine ⟨x, fun r hr e he hmem => hx (List.mem_toFinset.mpr (List.mem_flatMap.mpr ⟨r, hr, ?_⟩))⟩
  rw [Option.mem_def.mp he]
  exact hmem

theorem fresh_later {x : String} (hx : ∀ r ∈ report.results, ∀ e ∈ r.evidence, x ∉ e.artifactPaths)
    (he : e ∈ records (candidates (later n report.results)) n) : x ∉ e.artifactPaths := by
  obtain ⟨r, hr, -, -, hre⟩ := mem_records.mp he
  exact hx r (mem_of_mem_later (List.mem_filter.mp hr).1) e hre

theorem WritesTwice.submitters (h : WritesTwice report) :
    ∀ n, ∀ f ∈ firstOwn report.results n, f.group = .submitter →
      ∀ mine ∈ ownEvidence report.results n, mine.extra.kind = none := by
  intro n f hf hs mine hmine
  by_contra hn
  obtain ⟨x, hx⟩ := exists_fresh report.toPublishReport
  obtain ⟨f', hf', hfe, -⟩ := ownEvidence_eq_some_iff.mp hmine
  have hxm : x ∉ mine.artifactPaths := hx f' (mem_of_firstOwn hf').1 mine hfe
  -- An earlier record with a new path is joined once, and lost by the second write.
  have hj : (mine.absorbPrior { mine with artifactPaths := [x] }).isSome :=
    PublishEvidence.absorbPrior_isSome rfl hn
  have heq := h.absorbAll_later hmine hj
  rw [Option.mem_def.mp hf, if_pos (by simpa using hs), List.nil_append] at heq
  have hpath : x ∈ (PublishEvidence.absorbInto mine
      { mine with artifactPaths := [x] }).artifactPaths := by
    rcases PublishEvidence.holds_absorbInto hj with heq' | ⟨-, -, -, hpaths, -⟩
    · rw [heq']
      exact List.mem_singleton_self x
    · exact hpaths (List.mem_singleton_self x)
  rw [← heq] at hpath
  rcases PublishEvidence.mem_paths_absorbAll hpath with hpath | ⟨e, he, hpath⟩
  · exact hxm hpath
  · exact fresh_later hx he hpath

/-- The records of a name, where its first candidate row has one that is joined. -/
theorem records_eq_cons (hmine : ownEvidence report.results n = some mine)
    (hs : ¬ (firstOwn report.results n).any (·.group = .submitter)) :
    records (candidates report.results) n =
      mine :: records (candidates (later n report.results)) n := by
  obtain ⟨f, hf, hfe, -⟩ := ownEvidence_eq_some_iff.mp hmine
  have hfs : f.group ≠ .submitter := by simpa [hf] using hs
  rw [records_candidates, hf, Option.bind_some, if_neg hfs, hfe, Option.toList_some,
    List.singleton_append]

/-- An object named twice is rewritten twice, the second time by what was written first. -/
theorem WritesTwice.blobs_nodup (h : WritesTwice report)
    (hmine : ownEvidence report.results n = some mine)
    (hs : ¬ (firstOwn report.results n).any (·.group = .submitter)) {ts : List BlobTargetSnapshot}
    (hts : mine.extra = .blob ts)
    (hlater : ∀ e ∈ records (candidates (later n report.results)) n, e.extra.kind = some 13) :
    ((ts ++ (records (candidates (later n report.results)) n).flatMap (·.extra.blobs)).map
      BlobTargetSnapshot.target).Nodup := by
  by_contra hdup
  obtain ⟨x, hx⟩ := exists_fresh report.toPublishReport
  obtain ⟨f, hf, hfe, -⟩ := ownEvidence_eq_some_iff.mp hmine
  have hxm : x ∉ mine.artifactPaths := hx f (mem_of_firstOwn hf).1 mine hfe
  obtain ⟨z, hz⟩ := Upsert.exists_last_of_not_nodup hdup
  set us := (records (candidates (later n report.results)) n).flatMap (·.extra.blobs) with hus
  -- An earlier record says the opposite of the object's last one.
  let y : BlobTargetSnapshot := { z with overwrote := !z.overwrote }
  let e : PublishEvidence := { mine with extra := .blob [y], artifactPaths := [x] }
  have hj : (mine.absorbPrior e).isSome :=
    PublishEvidence.absorbPrior_isSome (by rw [hts]; rfl) (by rw [hts]; exact Option.some_ne_none _)
  have hne : mine ≠ e := fun heq => hxm (by rw [heq]; exact List.mem_singleton_self x)
  obtain ⟨hextra, hpaths⟩ := PublishEvidence.blobs_absorbInto hne hts (rfl : e.extra = .blob [y])
  have hpath : x ∈ (PublishEvidence.absorbInto mine e).artifactPaths := by
    rw [hpaths]
    exact mem_unionInto.mpr (.inr (List.mem_singleton_self x))
  have hne' : mine ≠ PublishEvidence.absorbInto mine e := fun heq => hxm (by rw [heq]; exact hpath)
  obtain ⟨hextra', hpaths'⟩ := PublishEvidence.blobs_absorbInto hne' hts hextra
  have heq := h.absorbAll_later hmine hj
  rw [if_neg hs, PublishEvidence.absorbAll_append] at heq
  have hblobs := PublishEvidence.blobs_absorbAll (by
    rw [hpaths']
    exact mem_unionInto.mpr (.inr hpath)) hextra' fun e he => ⟨hlater e he, fresh_later hx he⟩
  have hfixed : Upsert.upsertAll BlobTargetSnapshot.target
      (Upsert.upsert BlobTargetSnapshot.target y ts ++ us) ts =
        Upsert.upsert BlobTargetSnapshot.target y ts := by
    rw [Upsert.upsertAll_append]
    have hboth := hblobs.symm.trans ((congrArg PublishEvidence.extra heq).trans hextra)
    exact PublishEvidenceExtra.blob.inj hboth
  have hfind := congrArg (List.find? fun t : BlobTargetSnapshot => t.target = z.target) hfixed
  have hone : (Upsert.upsert BlobTargetSnapshot.target y ts).find?
      (fun t : BlobTargetSnapshot => t.target = z.target) = some y := by
    have hy := @Upsert.find?_upsertAll _ _ _ BlobTargetSnapshot.target ts [y] z.target
    rw [Upsert.upsertAll_cons, Upsert.upsertAll_nil] at hy
    rw [hy]
    exact List.find?_cons_of_pos (decide_eq_true rfl)
  rw [Upsert.find?_upsertAll, List.find?_append, hz y rfl, Option.some_or, hone,
    Option.some.injEq] at hfind
  have hflag := congrArg BlobTargetSnapshot.overwrote hfind
  exact Bool.not_ne_self z.overwrote hflag.symm

theorem WritesTwice.objects (h : WritesTwice report) (n : String) :
    ((records (candidates report.results) n).flatMap (·.extra.objects)).Nodup := by
  have hholds : ∀ e ∈ records (candidates report.results) n,
      ∃ mine ∈ ownEvidence report.results n, mine.Holds e := by
    intro e he
    obtain ⟨r, hr, hs, rfl, hre⟩ := mem_records.mp he
    have hrests := h.rests r hr e hre
    rwa [if_neg hs] at hrests
  have hnone : (∀ e ∈ records (candidates report.results) n, e.extra.objects = []) →
      ((records (candidates report.results) n).flatMap (·.extra.objects)).Nodup := by
    intro hnil
    rw [List.flatMap_eq_nil_iff.mpr hnil]
    exact List.nodup_nil
  cases hmine : ownEvidence report.results n with
  | none =>
    refine hnone fun e he => ?_
    obtain ⟨mine, hmine', -⟩ := hholds e he
    rw [hmine] at hmine'
    cases hmine'
  | some mine =>
    have hkind : ∀ e ∈ records (candidates report.results) n, mine.extra.kind = e.extra.kind := by
      intro e he
      obtain ⟨mine', hmine', hholds⟩ := hholds e he
      obtain rfl : mine = mine' := Option.some.inj (hmine.symm.trans hmine')
      rcases hholds with rfl | ⟨hk, -⟩
      · rfl
      · exact hk
    by_cases hblob : mine.extra.kind = some 13
    · obtain ⟨ts, hts⟩ := PublishEvidenceExtra.eq_blob_of_kind hblob
      have hs : ¬ (firstOwn report.results n).any (·.group = .submitter) := by
        obtain ⟨f, hf, -⟩ := ownEvidence_eq_some_iff.mp hmine
        intro hs
        have hn := h.submitters n f hf (by simpa [hf] using hs) mine hmine
        rw [hblob] at hn
        cases hn
      have hcons := records_eq_cons hmine hs
      have hnodup := h.blobs_nodup hmine hs hts fun e he =>
        (hkind e (by rw [hcons]; exact List.mem_cons_of_mem _ he)).symm.trans hblob
      rw [hcons, List.flatMap_cons]
      simpa [PublishEvidenceExtra.objects, hts, PublishEvidenceExtra.blobs, List.map_flatMap]
        using hnodup
    · exact hnone fun e he =>
        PublishEvidenceExtra.objects_eq_nil_of_kind (hkind e he ▸ hblob)

end Settle

end Anodizer
