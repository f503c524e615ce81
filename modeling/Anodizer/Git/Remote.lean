import Anodizer.Lib.SplitOnce
import Anodizer.Template.StringLit

/-! # URLs of remotes

A remote is named by a URL with a scheme or in the style of scp. Each reader takes the host, the
path or both from it.
-/

namespace Anodizer.Git

open Template (Text)

def dotGit : Text := ".git".toList

def trimEndSlashes (url : Text) : Text := url.rdropWhile (· = '/')

def stripDotGit (url : Text) : Text :=
  if dotGit <:+ url then url.take (url.length - dotGit.length) else url

/-- The text that a parser reads. There is none for an empty URL. -/
def normalizeRemoteUrl (url : Text) : Option Text :=
  let url := trimEndSlashes (Template.trim url)
  if url = [] then none else some (stripDotGit url)

def githubCom : Text := "github.com".toList

def sshGithubCom : Text := "ssh.github.com".toList

def altsshGitlabCom : Text := "altssh.gitlab.com".toList

/-- The web host behind the name that serves SSH on port 443. -/
def sshWebHost (host : Text) : Text :=
  if host = sshGithubCom then githubCom
  else if host = altsshGitlabCom then "gitlab.com".toList
  else host

/-- A host in brackets keeps the colons inside of them. -/
def stripPort (host : Text) : Text :=
  if host.head? = some '[' then
    match SplitOnce.first ']' host with
    | some (inside, _) => inside ++ [']']
    | none => host
  else host.takeWhile (· ≠ ':')

def sshScheme : Text := "ssh://".toList

def schemes : List Text := ["https://".toList, "http://".toList, sshScheme]

def stripPrefix (start url : Text) : Option Text :=
  if start <+: url then some (url.drop start.length) else none

def splitScheme (url : Text) : Option (Text × Text) :=
  schemes.findSome? fun scheme => (stripPrefix scheme url).map fun rest => (scheme, rest)

/-- What follows the last `@`, or all of it. -/
def dropUserinfo (authority : Text) : Text := authority.rtakeWhile (· ≠ '@')

def authorityHost (scheme authority : Text) : Text :=
  let host := dropUserinfo authority
  if scheme = sshScheme then sshWebHost (stripPort host) else host

def splitSchemeUrl (url : Text) : Option (Text × Text) := do
  let (scheme, rest) ← splitScheme url
  let (authority, path) ← SplitOnce.first '/' rest
  let host := authorityHost scheme authority
  if host = [] ∨ path = [] then none else some (host, path)

/-- The parts around the first colon, which for a host in brackets is the first one behind them. -/
def splitAtColon (url : Text) : Option (Text × Text) :=
  let host := dropUserinfo url
  if host.head? = some '[' then do
    let (inside, behind) ← SplitOnce.first ']' host
    let (port, path) ← SplitOnce.first ':' behind
    return (url.take (url.length - host.length) ++ inside ++ ']' :: port, path)
  else SplitOnce.first ':' url

def splitScpUrl (url : Text) : Option (Text × Text) := do
  let (start, path) ← splitAtColon url
  if '/' ∈ start ∨ '\\' ∈ start ∨ ¬ ('@' ∈ start ∨ '.' ∈ start) ∨ path = [] then none
  else some (sshWebHost (dropUserinfo start), path)

def toAsciiLowercase (s : Text) : Text := s.map Char.toLower

/-! ### The readers -/

def trimSlashes (path : Text) : Text := trimEndSlashes (path.dropWhile (· = '/'))

/-- The key of a repository, or the text of a URL in no known shape. -/
def remoteIdentity (url : Text) : Text :=
  match normalizeRemoteUrl url with
  | none => []
  | some url =>
    match (splitSchemeUrl url).or (splitScpUrl url) with
    | some (host, path) => toAsciiLowercase host ++ '/' :: trimSlashes path
    | none => url

def remoteHost (url : Text) : Option Text := do
  let url := Template.trim url
  let host ← match splitScheme url with
    | some (scheme, rest) => some (authorityHost scheme (rest.takeWhile (· ≠ '/')))
    | none => (splitScpUrl url).map Prod.fst
  let host := stripPort host
  if host = [] then none else some (toAsciiLowercase host)

/-- The path of one of two literal spellings. -/
def githubScpPath (url : Text) : Option Text :=
  (stripPrefix "git@github.com:".toList url).or (stripPrefix "git@ssh.github.com:".toList url)

def parseGithubRemote (url : Text) : Option (Text × Text) := do
  let url ← normalizeRemoteUrl url
  let path ← match splitSchemeUrl url with
    | some (host, path) => if host = githubCom then some path else none
    | none => githubScpPath url
  match path.splitOn '/' with
  | owner :: repo :: _ => if owner = [] ∨ repo = [] then none else some (owner, repo)
  | _ => none

/-- The parts around the last slash. -/
def splitOwner (path : Text) : Option (Text × Text) := do
  let (owner, repo) ← SplitOnce.last '/' path
  if owner = [] ∨ repo = [] then none else some (owner, repo)

def parseRemoteOwnerRepo (url : Text) : Option (Text × Text) := do
  let url ← normalizeRemoteUrl url
  match splitSchemeUrl url with
  | some (_, path) => splitOwner path
  | none => do
    let (_, path) ← splitScpUrl url
    splitOwner path

def webBase (host path : Text) : Text := "https://".toList ++ host ++ '/' :: path

def parseRemoteWebBase (url : Text) : Option Text := do
  let url ← normalizeRemoteUrl url
  match splitSchemeUrl url with
  | some (host, path) => some (webBase host path)
  | none => do
    let (host, path) ← splitScpUrl url
    if host = [] then none else some (webBase host path)

end Anodizer.Git
