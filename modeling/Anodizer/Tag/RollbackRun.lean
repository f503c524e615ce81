import Anodizer.Git.Tree
import Anodizer.Tag.BurnGuard

/-! # A tag rollback

The rollback of a release commit withdraws what its runs published, reverts the
commit, pushes the revert and deletes the tags at the commit, in this order.
Each step may fail and leaves its traces to the next run.
-/

namespace Anodizer.Tag

open Template (Text CharTables)
open Git Regex

/-! ### Tags -/

section Shapes

variable (u : CharTables)

def suffixChar (c : Char) : Bool := c.isAlphanum || c == '.' || c == '-'

def nameChar (c : Char) : Bool := c.isAlphanum || c == '_' || c == '-'

def versionTagRe : List Re :=
  [.lit "v", digitsRe u, .lit ".", digitsRe u, .lit ".", digitsRe u,
    .opt (.cat [.lit "-", .plus true (.char suffixChar)]),
    .opt (.cat [.lit "+", .plus true (.char suffixChar)]), .textEnd]

def lockstepTagRe : Re := .cat (.textStart :: versionTagRe u)

def perCrateTagRe : Re :=
  .cat ([.textStart, .char fun c => c.isAlpha || c == '_', .star true (.char nameChar), .lit "-"] ++
    versionTagRe u)

inductive TagKind | lockstep | perCrate
  deriving DecidableEq, Repr

inductive Scope | all | lockstep | perCrate
  deriving DecidableEq, Repr

def classifyTag (tag : Text) : Option TagKind :=
  if (matchStart (lockstepTagRe u) tag).isSome then some .lockstep
  else if (matchStart (perCrateTagRe u) tag).isSome then some .perCrate
  else none

def scopeIncludes : Scope → TagKind → Bool
  | .all, _ | .lockstep, .lockstep | .perCrate, .perCrate => true
  | _, _ => false

def deletableTag (scope : Scope) (tag : Text) : Bool :=
  (classifyTag u tag).any (scopeIncludes scope)

end Shapes

/-! ### Subjects -/

def releaseCommitPrefix : Text := "chore(release): ".toList

def rollbackSubjectPrefix : Text := releaseCommitPrefix ++ "rollback".toList

def anodizerRevertSubjectPrefix : Text := "Revert \"".toList ++ releaseCommitPrefix

def isOwnRevert (subject : Text) : Bool :=
  anodizerRevertSubjectPrefix.isPrefixOf subject || rollbackSubjectPrefix.isPrefixOf subject

/-- The first line of the message of a rollback. -/
def revertSubject (u : CharTables) (deleted : List Text) : Text :=
  let primary := ((deleted.find? fun t => (matchStart (lockstepTagRe u) t).isSome).or
    deleted.head?).getD "release".toList
  rollbackSubjectPrefix ++ ' ' :: (primary ++ " [skip ci]".toList)

theorem isOwnRevert_revertSubject (u : CharTables) (deleted : List Text) :
    isOwnRevert (revertSubject u deleted) := by
  have : rollbackSubjectPrefix.isPrefixOf (revertSubject u deleted) :=
    List.isPrefixOf_iff_prefix.mpr (List.prefix_append _ _)
  simp [isOwnRevert, this]

/-! ### The state -/

structure Commit where
  subject : Text
  tree : Tree
  deriving DecidableEq, Repr

/-- What a rollback acts on. The commits are those above the target, the newest first, and the
releases are listed by their tags. -/
structure World (ω : Type) where
  above : List Commit
  remote : List Commit
  localTags : List Text
  remoteTags : List Text
  releases : List Text
  published : ω
  deriving DecidableEq

/-- The target, the command line and what git and the guard answer. -/
structure Target where
  subject : Text
  tree : Tree
  parent : Tree
  mergeFile : MergeFile
  gitRevertSubject : Text → Text
  dirty : Bool
  scope : Scope
  guard : List Text → Except Refusal (List Text)
  recorded : Text → Bool
  github : Bool
  branch : Option Text
  containing : List Text
  current : Option Text

inductive Lookup | answers | noId | fails
  deriving DecidableEq, Repr

/-- How the external calls of one run end. -/
structure Calls (ω : Type) where
  unwound : Text → Bool
  unwind : ω → ω
  unwindOk : Bool
  revert : Bool
  amend : Bool
  push : Bool
  lookup : Text → Lookup
  deleteRelease : Text → Bool
  deleteRemote : Text → Bool
  deleteLocal : Text → Bool

inductive Stop
  | noTags | refused (refusal : Refusal) | intervening (commits : List Commit) | unwind | dirty
  | revert | conflict | nothingToCommit | amend | branch | push
  deriving DecidableEq, Repr

variable {ω : Type} (u : CharTables) (target : Target) (calls : Calls ω)

namespace World

variable (s : World ω)

def head : Tree := (s.above.head?.map (·.tree)).getD target.tree

def deletable : List Text := s.localTags.filter (deletableTag u target.scope)

/-- The tags that the evidence of a run ties to this rollback. -/
def attributed (unsummarized : List Text) : List Text :=
  (s.deletable u target).filter (· ∉ unsummarized)

end World

/-! ### The steps -/

/-- Withdraw what the runs recorded, which includes their releases. -/
def unwindPublishedState (s : World ω) : World ω :=
  { s with
    published := calls.unwind s.published
    releases := s.releases.filter fun t => !(target.recorded t && calls.unwound t) }

/-- Git makes no commit for a revert that changes nothing. -/
def revertTree (head : Tree) : Except Stop Tree :=
  match mergeTree target.mergeFile target.tree head target.parent with
  | none => .error .conflict
  | some tree => if (diffNames head tree).isEmpty then .error .nothingToCommit else .ok tree

/-- The revert, and the message in place of the one git gives. -/
def revertCommit (subject : Text) (s : World ω) : World ω × Except Stop Unit :=
  if target.dirty then (s, .error .dirty)
  else if !calls.revert then (s, .error .revert)
  else match revertTree target (s.head target) with
    | .error e => (s, .error e)
    | .ok tree =>
      if calls.amend then ({ s with above := ⟨subject, tree⟩ :: s.above }, .ok ())
      else ({ s with above := ⟨target.gitRevertSubject target.subject, tree⟩ :: s.above },
        .error .amend)

def resolvePushBranch : Option Text :=
  match target.branch with
  | some b => some b
  | none =>
    match target.containing with
    | [only] => some only
    | [] => target.current
    | _ => none

/-- The remote takes the branch only when it continues its own. -/
def pushBranch (s : World ω) : World ω × Except Stop Unit :=
  if calls.push && s.remote.isSuffixOf s.above then ({ s with remote := s.above }, .ok ())
  else (s, .error .push)

/-- Whether the tag may go, once the release of an attributed tag is gone. -/
def deleteReleaseAtTag (tag : Text) (attributed : Bool) (s : World ω) : World ω × Bool :=
  if !target.github then (s, true)
  else match calls.lookup tag with
    | .fails => (s, !attributed)
    | .noId => (s, tag ∉ s.releases || !attributed)
    | .answers =>
      if tag ∉ s.releases || !attributed then (s, true)
      else if calls.deleteRelease tag then
        ({ s with releases := s.releases.filter (· ≠ tag) }, true)
      else (s, false)

def deleteTag (attributed : List Text) (s : World ω) (tag : Text) : World ω :=
  let (s, cleared) := deleteReleaseAtTag target calls tag (tag ∈ attributed) s
  if cleared then
    { s with
      remoteTags := if calls.deleteRemote tag then s.remoteTags.filter (· ≠ tag) else s.remoteTags
      localTags := if calls.deleteLocal tag then s.localTags.filter (· ≠ tag) else s.localTags }
  else s

def deleteTags (deletable attributed : List Text) (s : World ω) : World ω :=
  deletable.foldl (deleteTag target calls attributed) s

/-- A rollback that reverts and pushes. -/
def run (s : World ω) : World ω × Except Stop Unit :=
  let deletable := s.deletable u target
  if s.localTags.isEmpty then (s, .error .noTags)
  else if deletable.isEmpty then (s, .ok ())
  else match target.guard deletable with
    | .error refusal => (s, .error (.refused refusal))
    | .ok unsummarized =>
      let attributed := s.attributed u target unsummarized
      let suspicious := s.above.filter fun c => !isOwnRevert c.subject
      if !suspicious.isEmpty then (s, .error (.intervening suspicious))
      else
        let s := unwindPublishedState target calls s
        if !calls.unwindOk then (s, .error .unwind)
        else match revertCommit target calls (revertSubject u deletable) s with
          | (s, .error e) => (s, .error e)
          | (s, .ok ()) =>
            if (resolvePushBranch target).isNone then (s, .error .branch)
            else match pushBranch calls s with
              | (s, .error e) => (s, .error e)
              | (s, .ok ()) => (deleteTags target calls deletable attributed s, .ok ())

end Anodizer.Tag
