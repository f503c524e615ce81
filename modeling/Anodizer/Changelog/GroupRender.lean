import Anodizer.Changelog.Grouping
import Anodizer.Lib.Replace

/-! # Rendering groups

The groups are rendered from the third heading level on, and what lies deeper than the sixth is not
rendered. Each commit of a rendered group is one bullet.
-/

namespace Anodizer.Changelog.Grouping

open Template (Text)

inductive LoginStyle
  | bare
  | linked
  deriving DecidableEq, Repr

structure AuthorRecord where
  name : Text
  email : Text
  username : Text
  deriving DecidableEq, Repr

/-- The variables that the format of a commit may use. -/
structure CommitVars where
  sha : Text
  shortSha : Text
  message : Text
  authorName : Text
  authorEmail : Text
  login : Text
  authorUsername : Text
  authors : Text
  authorsList : List AuthorRecord
  logins : Text
  loginsList : List Text
  allLogins : Text
  allAuthors : Text
  deriving DecidableEq, Repr

structure RenderGroupsState where
  hashAbbrev : ℤ
  tmpl : Text
  logins : Text
  allAuthors : Text
  divider : Option Text
  newline : Text
  loginStyle : LoginStyle
  deriving Repr

structure RenderError where
  tmpl : Text
  hash : Text
  cause : Text
  deriving DecidableEq, Repr

/-! ### One commit -/

def mentionSentinel : Char := '\x01'

def stripMentionSentinels (s : Text) : Text := s.filter (· ≠ mentionSentinel)

/-- The mention of a login, between sentinels. -/
def mentionSpan (login : Text) : Text := mentionSentinel :: '@' :: (login ++ [mentionSentinel])

def styledMention (login : Text) : LoginStyle → Text
  | .bare => '@' :: login
  | .linked => "[@".toList ++ login ++ "](https://github.com/".toList ++ login ++ ")".toList

def styleLoginMentions (line login : Text) (style : LoginStyle) : Text :=
  let span := mentionSpan login
  let line := Replace.replace ('@' :: span) span line
  stripMentionSentinels (Replace.replace span (styledMention login style) line)

/-- The first bytes of a text, when they end with a character. -/
def getTo : Text → ℕ → Option Text
  | _, 0 => some []
  | [], _ + 1 => none
  | c :: cs, n + 1 =>
    if c.utf8Size ≤ n + 1 then (getTo cs (n + 1 - c.utf8Size)).map (c :: ·) else none

def shortSha (hashAbbrev : ℤ) (fullHash : Text) : Text :=
  if hashAbbrev < 0 then []
  else if hashAbbrev = 0 then fullHash
  else (getTo fullHash hashAbbrev.toNat).getD fullHash

def authorsList (commit : CommitInfo) : List AuthorRecord :=
  let authorName := stripMentionSentinels commit.authorName
  (if authorName = [] then []
    else [⟨authorName, stripMentionSentinels commit.authorEmail,
      stripMentionSentinels commit.login⟩]) ++
    commit.coAuthors.map fun ca => ⟨stripMentionSentinels ca, [], []⟩

def commitVars (state : RenderGroupsState) (commit : CommitInfo) : CommitVars :=
  let sha := shortSha state.hashAbbrev commit.fullHash
  let authorName := stripMentionSentinels commit.authorName
  let login := stripMentionSentinels commit.login
  let commitLogins := if login = [] then [] else [login]
  { sha := sha
    shortSha := sha
    message := stripMentionSentinels commit.description
    authorName := authorName
    authorEmail := stripMentionSentinels commit.authorEmail
    login := login
    authorUsername := if login = [] then authorName else mentionSpan login
    authors := ", ".toList.intercalate ((authorsList commit).map (·.name))
    authorsList := authorsList commit
    logins := ", ".toList.intercalate commitLogins
    loginsList := commitLogins
    allLogins := stripMentionSentinels state.logins
    allAuthors := stripMentionSentinels state.allAuthors }

/-- The line opens with the marker of a bullet. -/
def startsWithBullet (line : Text) : Bool :=
  let trimmed := Template.trimStart line
  ["* ", "- ", "*\t", "-\t"].any fun marker => marker.toList.isPrefixOf trimmed

variable (render : Text → CommitVars → Except Text Text)

def renderCommitLine (state : RenderGroupsState) (commit : CommitInfo) : Except RenderError Text :=
  ((render state.tmpl (commitVars state commit)).mapError (⟨state.tmpl, commit.hash, ·⟩)).map
    fun rendered =>
      let login := stripMentionSentinels commit.login
      let rendered := if login = [] then stripMentionSentinels rendered
        else styleLoginMentions rendered login state.loginStyle
      if startsWithBullet rendered then rendered ++ state.newline
      else "* ".toList ++ rendered ++ state.newline

/-! ### Groups -/

/-- What is written, part by part. -/
inductive Piece
  | divider (text : Text)
  | heading (depth : ℕ) (title : Text)
  | bullet (commit : CommitInfo) (line : Text)
  | blank
  deriving Repr

def Piece.text : Piece → Text
  | divider text => text ++ ['\n']
  | heading depth title => List.replicate depth '#' ++ ' ' :: title ++ "\n\n".toList
  | bullet _ line => line
  | blank => ['\n']

/-- What stands before the commits of a group. -/
def groupHead (divider : Option Text) (depth i : ℕ) (title : Text) : List Piece :=
  (if 0 < i then divider.toList.map .divider else []) ++
    if title = [] then [] else [.heading depth title]

/-- A group, with what its subgroups render to. -/
def renderGroup (state : RenderGroupsState)
    (recurse : List GroupedCommits → Except RenderError (List Piece)) (depth i : ℕ)
    (g : GroupedCommits) : Except RenderError (List Piece) := do
  let bullets ← g.commits.mapM fun c => (renderCommitLine render state c).map (.bullet c)
  let below ← if g.subgroups.isEmpty then .ok [] else recurse g.subgroups
  .ok (groupHead state.divider depth i g.title ++ bullets ++ below ++
    if !g.commits.isEmpty || g.subgroups.isEmpty then [.blank] else [])

/-- The groups, with so many heading levels left. -/
def renderLevels : ℕ → RenderGroupsState → List GroupedCommits → Except RenderError (List Piece)
  | 0, _, _ => .ok []
  | levels + 1, state, groups =>
    (groups.zipIdx.mapM fun gi => renderGroup render state
      (renderLevels levels { state with divider := none }) (maxLevels - levels) gi.2 gi.1).map
        List.flatten

def renderGroups (state : RenderGroupsState) (groups : List GroupedCommits) (depth : ℕ) :
    Except RenderError (List Piece) :=
  renderLevels render (maxLevels + 1 - depth) state groups

def renderedText (pieces : List Piece) : Text := pieces.flatMap Piece.text

/-- The commits that have a bullet, in the order of their bullets. -/
def bulletCommits (pieces : List Piece) : List CommitInfo :=
  pieces.filterMap fun
    | .bullet commit _ => some commit
    | _ => none

end Anodizer.Changelog.Grouping
