import Anodizer.Git.Remote
import Anodizer.Lib.Lines

/-! # Spellings of a remote

A repository on a host has a URL for each scheme and one in the style of scp, with or without
userinfo, the suffix of git and trailing slashes. The readers agree on all of them, but for the
reader that knows the user and the host of GitHub in one spelling only.
-/

namespace Anodizer.Git

open Template (Text isWhitespace)

def isHostChar (c : Char) : Bool := c.isAlphanum || c == '-' || c == '.'

/-- A segment of a path. -/
def IsSegment (s : Text) : Prop :=
  s ≠ [] ∧ ∀ c ∈ s, c ≠ '/' ∧ c ≠ ':' ∧ c ≠ '@' ∧ c ≠ '[' ∧ isWhitespace c = false

/-- A repository on a host, below at least one owner. -/
structure Repository where
  host : Text
  owner : List Text
  repo : Text
  host_ne : host ≠ []
  host_chars : ∀ c ∈ host, isHostChar c
  host_web : host ≠ sshGithubCom ∧ host ≠ altsshGitlabCom
  owner_ne : owner ≠ []
  segments : ∀ s ∈ owner ++ [repo], IsSegment s
  repo_plain : ¬ dotGit <:+ repo

namespace Repository

def ownerPath (r : Repository) : Text := ['/'].intercalate r.owner

def path (r : Repository) : Text := r.ownerPath ++ '/' :: r.repo

end Repository

/-- How a remote is reached. -/
inductive Transport
  | https
  | http
  | ssh (port : Option Text)
  | scp
  deriving DecidableEq, Repr

/-- A URL of a repository. A name without a user is dotted in the style of scp. -/
structure RemoteSpelling where
  remote : Repository
  transport : Transport
  userinfo : Option Text
  suffixed : Bool
  slashes : ℕ
  userinfo_chars : ∀ u ∈ userinfo, ∀ c ∈ u, c ≠ '/' ∧ c ≠ '@' ∧ isWhitespace c = false
  port_digits : ∀ p, transport = .ssh (some p) → p ≠ [] ∧ ∀ c ∈ p, c.isDigit
  scp_user : transport = .scp → ∀ u ∈ userinfo, ':' ∉ u
  scp_host : transport = .scp → userinfo = none → '.' ∈ remote.host

namespace RemoteSpelling

def userText (s : RemoteSpelling) : Text := s.userinfo.elim [] fun u => u ++ ['@']

def portText : Transport → Text
  | .ssh (some port) => ':' :: port
  | _ => []

/-- The scheme, if there is one. -/
def scheme : Transport → Option Text
  | .https => some "https://".toList
  | .http => some "http://".toList
  | .ssh _ => some sshScheme
  | .scp => none

def separator : Transport → Char
  | .scp => ':'
  | _ => '/'

/-- The URL up to the path. -/
def front (s : RemoteSpelling) : Text :=
  (scheme s.transport).getD [] ++ (s.userText ++ s.remote.host ++ portText s.transport)

def tail (s : RemoteSpelling) : Text :=
  s.remote.path ++ (if s.suffixed then dotGit else []) ++ List.replicate s.slashes '/'

def url (s : RemoteSpelling) : Text := s.front ++ separator s.transport :: s.tail

end RemoteSpelling

variable {c : Char} {s t u : Text} {r : Repository}

/-! ### Characters of names -/

theorem toNat_of_isAlphanum (h : c.isAlphanum) : 48 ≤ c.toNat ∧ c.toNat ≤ 122 := by
  have hval : c.val.toNat = c.toNat := rfl
  have hupper : 'A'.val.toNat = 65 ∧ 'Z'.val.toNat = 90 := ⟨rfl, rfl⟩
  have hlower : 'a'.val.toNat = 97 ∧ 'z'.val.toNat = 122 := ⟨rfl, rfl⟩
  have hdigit : '0'.val.toNat = 48 ∧ '9'.val.toNat = 57 := ⟨rfl, rfl⟩
  simp only [Char.isAlphanum, Char.isAlpha, Char.isUpper, Char.isLower, Char.isDigit, Bool.or_eq_true,
    Bool.and_eq_true, decide_eq_true_eq, ge_iff_le, UInt32.le_iff_toNat_le] at h
  omega

theorem isWhitespace_eq_false (hlo : 32 < c.toNat) (hhi : c.toNat < 133) :
    isWhitespace c = false := by
  simp only [isWhitespace, Bool.or_eq_false_iff, Bool.and_eq_false_iff, decide_eq_false_iff_not,
    beq_eq_false_iff_ne]
  omega

/-- A character that is part of no host name stands apart from it. -/
theorem isHostChar_ne {d : Char} (h : isHostChar c) (hd : isHostChar d = false) : c ≠ d := by
  rintro rfl
  rw [hd] at h
  exact Bool.false_ne_true h

theorem isHostChar_not_isWhitespace (h : isHostChar c) : isWhitespace c = false := by
  simp only [isHostChar, Bool.or_eq_true, beq_iff_eq] at h
  rcases h with (h | rfl) | rfl
  · have := toNat_of_isAlphanum h
    exact isWhitespace_eq_false (by omega) (by omega)
  · decide
  · decide

namespace Repository

theorem notMem_host (r : Repository) {d : Char} (hd : isHostChar d = false) :
    d ∉ r.host := fun hmem => isHostChar_ne (r.host_chars d hmem) hd rfl

theorem mem_path (h : c ∈ r.path) : c ≠ ':' ∧ c ≠ '@' ∧ c ≠ '[' ∧ isWhitespace c = false := by
  have hslash : '/' ≠ ':' ∧ '/' ≠ '@' ∧ '/' ≠ '[' ∧ isWhitespace '/' = false := by decide
  have hseg : ∀ s ∈ r.owner ++ [r.repo], c ∈ s →
      c ≠ ':' ∧ c ≠ '@' ∧ c ≠ '[' ∧ isWhitespace c = false := fun s hs hc =>
    ((r.segments s hs).2 c hc).2
  rcases List.mem_append.mp h with h | h
  · rcases Lines.mem_intercalate h with rfl | ⟨s, hs, hc⟩
    · exact hslash
    · exact hseg s (List.mem_append_left _ hs) hc
  · rcases List.mem_cons.mp h with rfl | h
    · exact hslash
    · exact hseg r.repo (by simp) h

theorem isSegment_repo (r : Repository) : IsSegment r.repo := r.segments r.repo (by simp)

theorem slash_notMem_repo (r : Repository) : '/' ∉ r.repo := fun hmem =>
  (r.isSegment_repo.2 '/' hmem).1 rfl

theorem path_ne (r : Repository) : r.path ≠ [] := by simp [path]

theorem getLast?_path (r : Repository) : r.path.getLast? = r.repo.getLast? := by
  obtain ⟨t, d, hrepo⟩ : ∃ t d, r.repo = t ++ [d] :=
    ⟨_, _, (List.dropLast_append_getLast r.isSegment_repo.1).symm⟩
  have hpath : r.path = (r.ownerPath ++ '/' :: t) ++ [d] := by
    rw [path, hrepo]
    simp
  rw [hpath, hrepo, List.getLast?_concat, List.getLast?_concat]

theorem getLast?_repo (r : Repository) : ∀ c ∈ r.repo.getLast?, c ≠ '/' := fun _ hc heq =>
  r.slash_notMem_repo (heq ▸ List.mem_of_getLast? hc)

/-- A path begins with its first owner. -/
theorem exists_first (r : Repository) : ∃ o t, o ∈ r.owner ∧ r.ownerPath = o ++ t := by
  obtain ⟨o, os, howner⟩ := List.exists_cons_of_ne_nil r.owner_ne
  have hmem : o ∈ r.owner := howner ▸ List.mem_cons_self
  rw [ownerPath, howner]
  cases os with
  | nil => exact ⟨o, [], by simp, by simp⟩
  | cons o' os =>
    exact ⟨o, '/' :: ['/'].intercalate (o' :: os), by simp, by simp [List.intercalate_cons_cons]⟩

theorem ownerPath_cons (r : Repository) : ∃ d t, r.ownerPath = d :: t ∧ d ≠ '/' := by
  obtain ⟨o, t, hmem, hpath⟩ := r.exists_first
  obtain ⟨hne, hchars⟩ := r.segments o (List.mem_append_left _ hmem)
  obtain ⟨d, u, rfl⟩ := List.exists_cons_of_ne_nil hne
  exact ⟨d, u ++ t, hpath, (hchars d List.mem_cons_self).1⟩

theorem head?_path (r : Repository) (t : Text) : (r.path ++ t).head? ≠ some '/' := by
  obtain ⟨d, u, howner, hne⟩ := r.ownerPath_cons
  rw [path, howner]
  exact fun h => hne (Option.some.inj h)

theorem splitOwner_path (r : Repository) : splitOwner r.path = some (r.ownerPath, r.repo) := by
  obtain ⟨d, u, howner, -⟩ := r.ownerPath_cons
  have hno : ¬ (r.ownerPath = [] ∨ r.repo = []) :=
    not_or.mpr ⟨howner ▸ List.cons_ne_nil d u, r.isSegment_repo.1⟩
  rw [splitOwner, path, SplitOnce.last_append r.slash_notMem_repo]
  exact if_neg hno

/-- The segments of a path below one owner. -/
theorem splitOn_path (r : Repository) {o : Text} (h : r.owner = [o]) :
    r.path.splitOn '/' = [o, r.repo] := by
  have hpath : r.path = ['/'].intercalate [o, r.repo] := by
    rw [path, ownerPath, h]
    simp [List.intercalate_cons_cons]
  have hslash : ∀ s ∈ [o, r.repo], '/' ∉ s := by
    intro s hs hmem
    exact ((r.segments s (by rwa [h])).2 '/' hmem).1 rfl
  rw [hpath, List.splitOn_intercalate '/' hslash (List.cons_ne_nil _ _)]

end Repository

/-! ### Parts of a URL -/

theorem trim_eq_self (h : ∀ c ∈ s, isWhitespace c = false) : Template.trim s = s := by
  have hdrop : ∀ t : Text, (∀ c ∈ t, isWhitespace c = false) → t.dropWhile isWhitespace = t := by
    intro t ht
    cases t with
    | nil => rfl
    | cons c t => rw [List.dropWhile_cons_of_neg (by simp [ht c List.mem_cons_self])]
  rw [Template.trim, Template.trimStart, Template.trimStart, hdrop s h,
    hdrop s.reverse fun c hc => h c (List.mem_reverse.mp hc), List.reverse_reverse]

theorem trimEndSlashes_append (h : ∀ c ∈ s.getLast?, c ≠ '/') (n : ℕ) :
    trimEndSlashes (s ++ List.replicate n '/') = s := by
  have hall : ∀ c ∈ (List.replicate n '/').reverse, decide (c = '/') = true := by
    intro c hc
    exact decide_eq_true (List.eq_of_mem_replicate (List.mem_reverse.mp hc))
  rw [trimEndSlashes, List.rdropWhile, List.reverse_append, List.dropWhile_append_of_pos hall,
    ← List.rdropWhile, List.rdropWhile_eq_self_iff]
  intro hne hlast
  exact h _ (List.getLast?_eq_some_getLast hne) (of_decide_eq_true hlast)

theorem trimSlashes_path (r : Repository) : trimSlashes r.path = r.path := by
  obtain ⟨d, t, howner, hne⟩ := r.ownerPath_cons
  have hdrop : r.path.dropWhile (· = '/') = r.path := by
    rw [Repository.path, howner, List.cons_append, List.dropWhile_cons_of_neg (by simpa using hne)]
  have hlast : ∀ c ∈ r.path.getLast?, c ≠ '/' := r.getLast?_path ▸ r.getLast?_repo
  rw [trimSlashes, hdrop]
  simpa using trimEndSlashes_append hlast 0

theorem dropUserinfo_append (h : '@' ∉ t) (u : Text) : dropUserinfo (u ++ '@' :: t) = t := by
  have hall : ∀ c ∈ t.reverse, decide (c ≠ '@') = true := fun c hc =>
    decide_eq_true fun heq => h (heq ▸ List.mem_reverse.mp hc)
  rw [dropUserinfo, List.rtakeWhile, List.reverse_append, List.reverse_cons, List.append_assoc,
    List.takeWhile_append_of_pos hall]
  simp

theorem dropUserinfo_self (h : '@' ∉ t) : dropUserinfo t = t := by
  rw [dropUserinfo, List.rtakeWhile_eq_self_iff]
  exact fun c hc => decide_eq_true fun heq => h (heq ▸ hc)

/-- A prefix with a colon is read up to the first colon. -/
theorem stripPrefix_colon {name start x : Text} (hname : ':' ∉ name) (hstart : ':' ∉ start) :
    stripPrefix (name ++ ':' :: x) (start ++ ':' :: t) =
      if name = start ∧ x <+: t then some (t.drop x.length) else none := by
  rw [stripPrefix]
  by_cases h : name = start ∧ x <+: t
  · obtain ⟨rfl, hx⟩ := h
    have hlen : (name ++ ':' :: x).length = (name ++ [':']).length + x.length := by simp; omega
    have hcut : name ++ ':' :: t = (name ++ [':']) ++ t := by simp
    rw [if_pos ((SplitOnce.prefix_iff hname hname).mpr ⟨rfl, hx⟩), if_pos ⟨rfl, hx⟩, hlen, hcut,
      ← List.drop_drop, List.drop_left]
  · rw [if_neg fun hpre => h ((SplitOnce.prefix_iff hname hstart).mp hpre), if_neg h]

def schemeNames : List Text := ["https".toList, "http".toList, "ssh".toList]

theorem schemes_eq : schemes = schemeNames.map fun name => name ++ ':' :: ['/', '/'] := rfl

theorem splitScheme_colon {start : Text} (hstart : ':' ∉ start) :
    splitScheme (start ++ ':' :: t) = if start ∈ schemeNames ∧ ['/', '/'] <+: t then
      some (start ++ ':' :: ['/', '/'], t.drop 2) else none := by
  have hnames : ∀ name ∈ schemeNames, ':' ∉ name := by decide
  have hall : ∀ names ⊆ schemeNames, (names.map fun name => name ++ ':' :: ['/', '/']).findSome?
      (fun sch => (stripPrefix sch (start ++ ':' :: t)).map fun rest => (sch, rest)) =
        if start ∈ names ∧ ['/', '/'] <+: t then
          some (start ++ ':' :: ['/', '/'], t.drop 2) else none := by
    intro names hsub
    induction names with
    | nil => simp
    | cons name names ih =>
      obtain ⟨hname, hrest⟩ := List.cons_subset.mp hsub
      rw [List.map_cons, List.findSome?_cons, stripPrefix_colon (hnames name hname) hstart, ih hrest]
      by_cases heq : name = start
      · subst heq
        by_cases hslash : ['/', '/'] <+: t <;> simp [hslash]
      · have hmem : start ∈ name :: names ↔ start ∈ names := by
          rw [List.mem_cons, or_iff_right (Ne.symm heq)]
        simp [heq, hmem]
  rw [splitScheme, schemes_eq]
  exact hall schemeNames (List.Subset.refl _)

namespace RemoteSpelling

variable {s : RemoteSpelling}

theorem dropUserinfo_userText (h : '@' ∉ t) : dropUserinfo (s.userText ++ t) = t := by
  cases hu : s.userinfo with
  | none => rw [userText, hu]; exact dropUserinfo_self h
  | some u =>
    have htext : s.userText ++ t = u ++ '@' :: t := by
      rw [userText, hu, Option.elim_some, List.append_assoc]
      rfl
    rw [htext, dropUserinfo_append h]

theorem mem_userText (h : c ∈ s.userText) : c ≠ '/' ∧ isWhitespace c = false := by
  cases hu : s.userinfo with
  | none => rw [userText, hu] at h; exact absurd h List.not_mem_nil
  | some u =>
    rw [userText, hu, Option.elim_some] at h
    rcases List.mem_append.mp h with h | h
    · obtain ⟨hslash, -, hspace⟩ := s.userinfo_chars u hu c h
      exact ⟨hslash, hspace⟩
    · obtain rfl := List.mem_singleton.mp h
      exact ⟨by decide, by decide⟩

theorem mem_portText (h : c ∈ portText s.transport) : c = ':' ∨ c.isDigit := by
  match ht : s.transport with
  | .ssh (some port) =>
    rw [ht, portText] at h
    rcases List.mem_cons.mp h with rfl | h
    · exact .inl rfl
    · exact .inr ((s.port_digits port ht).2 c h)
  | .ssh none | .https | .http | .scp =>
    rw [ht] at h
    exact absurd h List.not_mem_nil

/-- Neither digits nor a colon. -/
theorem notMem_portText {d : Char} (hd : d.isDigit = false) (hne : d ≠ ':') :
    d ∉ portText s.transport := fun hmem => by
  rcases mem_portText hmem with rfl | h
  · exact hne rfl
  · rw [hd] at h
    exact Bool.false_ne_true h

/-- The authority of a URL with a scheme. -/
def authority (s : RemoteSpelling) : Text := s.userText ++ s.remote.host ++ portText s.transport

theorem slash_notMem_authority : '/' ∉ s.authority := by
  rw [authority, List.mem_append, List.mem_append]
  rintro ((h | h) | h)
  · exact (mem_userText h).1 rfl
  · exact s.remote.notMem_host (by decide) h
  · exact notMem_portText (by decide) (by decide) h

theorem head_host : s.remote.host.head? ≠ some '[' := fun h =>
  s.remote.notMem_host (by decide) (List.mem_of_mem_head? h)

theorem stripPort_host : stripPort (s.remote.host ++ portText s.transport) = s.remote.host := by
  have hcolon : ∀ c ∈ s.remote.host, decide (c ≠ ':') = true := fun c hc =>
    decide_eq_true fun heq => s.remote.notMem_host (by decide) (heq ▸ hc)
  have hport : (portText s.transport).takeWhile (· ≠ ':') = [] := by
    match s.transport with
    | .ssh (some port) => exact List.takeWhile_cons_of_neg (by decide)
    | .ssh none | .https | .http | .scp => rfl
  obtain ⟨d, t, hhost⟩ := List.exists_cons_of_ne_nil s.remote.host_ne
  have hhead : ¬ (s.remote.host ++ portText s.transport).head? = some '[' := by
    have := s.head_host
    rw [hhost] at this ⊢
    exact this
  rw [stripPort, if_neg hhead, List.takeWhile_append_of_pos hcolon, hport, List.append_nil]

theorem sshWebHost_host : sshWebHost s.remote.host = s.remote.host := by
  rw [sshWebHost, if_neg s.remote.host_web.1, if_neg s.remote.host_web.2]

/-- The host is what an authority names. -/
theorem authorityHost_authority {sch : Text} (h : scheme s.transport = some sch) :
    authorityHost sch s.authority = s.remote.host := by
  have hat : '@' ∉ s.remote.host ++ portText s.transport := by
    rw [List.mem_append]
    rintro (hmem | hmem)
    · exact s.remote.notMem_host (by decide) hmem
    · exact notMem_portText (by decide) (by decide) hmem
  rw [authorityHost, authority, List.append_assoc, dropUserinfo_userText hat, stripPort_host,
    sshWebHost_host]
  match ht : s.transport with
  | .ssh port => rw [ht] at h; exact if_pos (Option.some.inj h).symm
  | .https | .http => simp [portText]
  | .scp => rw [ht] at h; exact absurd h nofun

theorem url_of_scheme {sch : Text} (h : scheme s.transport = some sch) (t : Text) :
    s.front ++ separator s.transport :: t = sch ++ (s.authority ++ '/' :: t) := by
  have hsep : separator s.transport = '/' := by
    cases ht : s.transport with
    | scp => rw [ht] at h; exact absurd h nofun
    | _ => rfl
  rw [front, authority, h, hsep, Option.getD_some, List.append_assoc]

theorem exists_schemeName {sch : Text} (h : scheme s.transport = some sch) :
    ∃ name ∈ schemeNames, ':' ∉ name ∧ sch = name ++ ':' :: ['/', '/'] := by
  match ht : s.transport with
  | .https =>
    rw [ht] at h
    exact ⟨"https".toList, by decide, by decide, (Option.some.inj h).symm⟩
  | .http =>
    rw [ht] at h
    exact ⟨"http".toList, by decide, by decide, (Option.some.inj h).symm⟩
  | .ssh port =>
    rw [ht] at h
    exact ⟨"ssh".toList, by decide, by decide, (Option.some.inj h).symm⟩
  | .scp =>
    rw [ht] at h
    exact absurd h nofun

theorem splitScheme_url {sch : Text} (h : scheme s.transport = some sch) (t : Text) :
    splitScheme (s.front ++ separator s.transport :: t) = some (sch, s.authority ++ '/' :: t) := by
  obtain ⟨name, hmem, hcolon, rfl⟩ := exists_schemeName h
  rw [url_of_scheme h, List.append_assoc, List.cons_append, splitScheme_colon hcolon]
  exact if_pos ⟨hmem, List.prefix_append _ _⟩

theorem splitSchemeUrl_url {sch : Text} (h : scheme s.transport = some sch) (ht : t ≠ []) :
    splitSchemeUrl (s.front ++ separator s.transport :: t) = some (s.remote.host, t) := by
  have hne : ¬ (s.remote.host = [] ∨ t = []) := not_or.mpr ⟨s.remote.host_ne, ht⟩
  rw [splitSchemeUrl, splitScheme_url h]
  simp only [Option.bind_eq_bind, Option.bind_some, SplitOnce.first_append slash_notMem_authority,
    authorityHost_authority h, if_neg hne]

/-! ### The style of scp -/

theorem front_scp (h : s.transport = .scp) : s.front = s.userText ++ s.remote.host := by
  rw [front, h]
  exact List.append_nil _

theorem colon_notMem_front (h : s.transport = .scp) : ':' ∉ s.front := by
  rw [front_scp h, List.mem_append]
  rintro (hmem | hmem)
  · cases hu : s.userinfo with
    | none => rw [userText, hu] at hmem; exact List.not_mem_nil hmem
    | some u =>
      rw [userText, hu, Option.elim_some] at hmem
      rcases List.mem_append.mp hmem with hmem | hmem
      · exact s.scp_user h u hu hmem
      · exact absurd (List.mem_singleton.mp hmem) (by decide)
  · exact s.remote.notMem_host (by decide) hmem

theorem splitScheme_scp (h : s.transport = .scp) (ht : t.head? ≠ some '/') :
    splitScheme (s.front ++ ':' :: t) = none := by
  rw [splitScheme_colon (colon_notMem_front h)]
  refine if_neg fun hpre => ht ?_
  obtain ⟨u, rfl⟩ := hpre.2
  rfl

theorem splitSchemeUrl_scp (h : s.transport = .scp) (ht : t.head? ≠ some '/') :
    splitSchemeUrl (s.front ++ ':' :: t) = none := by
  rw [splitSchemeUrl, splitScheme_scp h ht]
  rfl

theorem splitAtColon_scp (h : s.transport = .scp) (ht : '@' ∉ t) :
    splitAtColon (s.front ++ ':' :: t) = some (s.front, t) := by
  have hat : '@' ∉ s.remote.host ++ ':' :: t := by
    rw [List.mem_append, List.mem_cons]
    rintro (hmem | heq | hmem)
    · exact s.remote.notMem_host (by decide) hmem
    · exact absurd heq (by decide)
    · exact ht hmem
  have hdrop : dropUserinfo (s.front ++ ':' :: t) = s.remote.host ++ ':' :: t := by
    rw [front_scp h, List.append_assoc, dropUserinfo_userText hat]
  obtain ⟨d, u, hhost⟩ := List.exists_cons_of_ne_nil s.remote.host_ne
  have hhead : ¬ (s.remote.host ++ ':' :: t).head? = some '[' := by
    have := s.head_host
    rw [hhost] at this ⊢
    exact this
  simp only [splitAtColon, hdrop, if_neg hhead]
  exact SplitOnce.first_append (colon_notMem_front h) t

/-- A user without a backslash is dropped. -/
theorem splitScpUrl_scp (h : s.transport = .scp) (hback : ∀ u ∈ s.userinfo, '\\' ∉ u)
    (hat : '@' ∉ t) (ht : t ≠ []) :
    splitScpUrl (s.front ++ ':' :: t) = some (s.remote.host, t) := by
  have hslash : '/' ∉ s.front := by
    rw [front_scp h, List.mem_append]
    exact not_or.mpr ⟨fun hmem => (mem_userText hmem).1 rfl, s.remote.notMem_host (by decide)⟩
  have hbackslash : '\\' ∉ s.front := by
    rw [front_scp h, List.mem_append]
    refine not_or.mpr ⟨fun hmem => ?_, s.remote.notMem_host (by decide)⟩
    cases hu : s.userinfo with
    | none => rw [userText, hu] at hmem; exact List.not_mem_nil hmem
    | some u =>
      rw [userText, hu, Option.elim_some] at hmem
      rcases List.mem_append.mp hmem with hmem | hmem
      · exact hback u hu hmem
      · exact absurd (List.mem_singleton.mp hmem) (by decide)
  have hnames : '@' ∈ s.front ∨ '.' ∈ s.front := by
    rw [front_scp h, List.mem_append, List.mem_append]
    cases hu : s.userinfo with
    | none => exact .inr (.inr (s.scp_host h hu))
    | some u => exact .inl (.inl (by rw [userText, hu]; simp))
  have hno : ¬ ('/' ∈ s.front ∨ '\\' ∈ s.front ∨ ¬ ('@' ∈ s.front ∨ '.' ∈ s.front) ∨ t = []) := by
    simp only [not_or]
    exact ⟨hslash, hbackslash, fun hnone => hnames.elim hnone.1 hnone.2, ht⟩
  have hdrop : dropUserinfo s.front = s.remote.host := by
    rw [front_scp h, dropUserinfo_userText (s.remote.notMem_host (by decide))]
  rw [splitScpUrl, splitAtColon_scp h hat]
  simp only [Option.bind_eq_bind, Option.bind_some, if_neg hno, hdrop, sshWebHost_host]

/-- The URL without suffix and slashes. -/
def body (s : RemoteSpelling) : Text := s.front ++ separator s.transport :: s.remote.path

theorem url_eq (s : RemoteSpelling) : s.url =
    s.body ++ (if s.suffixed then dotGit else []) ++ List.replicate s.slashes '/' := by
  rw [url, body, tail]
  simp

theorem body_last (s : RemoteSpelling) : s.body.getLast? = s.remote.repo.getLast? := by
  have hcut : s.body = (s.front ++ [separator s.transport]) ++ s.remote.path := by simp [body]
  rw [hcut, List.getLast?_append_of_ne_nil _ s.remote.path_ne, s.remote.getLast?_path]

theorem not_isWhitespace_of_all (h : t.all fun c => !isWhitespace c) (hc : c ∈ t) : isWhitespace c = false := by
  simpa using List.all_eq_true.mp h c hc

theorem mem_front (h : c ∈ s.front) : isWhitespace c = false := by
  rcases List.mem_append.mp h with h | h
  · exact not_isWhitespace_of_all (by cases s.transport <;> rfl) h
  · rcases List.mem_append.mp h with h | h
    · rcases List.mem_append.mp h with h | h
      · exact (mem_userText h).2
      · exact isHostChar_not_isWhitespace (s.remote.host_chars c h)
    · rcases mem_portText h with rfl | h
      · decide
      · exact isHostChar_not_isWhitespace (by simp [isHostChar, Char.isAlphanum, h])

theorem mem_url (h : c ∈ s.url) : isWhitespace c = false := by
  rw [url_eq, body] at h
  rcases List.mem_append.mp h with h | h
  · rcases List.mem_append.mp h with h | h
    · rcases List.mem_append.mp h with h | h
      · exact mem_front h
      · rcases List.mem_cons.mp h with rfl | h
        · cases s.transport <;> rfl
        · exact (Repository.mem_path h).2.2.2
    · split at h
      · exact not_isWhitespace_of_all (t := dotGit) rfl h
      · exact absurd h List.not_mem_nil
  · rw [List.eq_of_mem_replicate h]
    decide

theorem stripDotGit_body (s : RemoteSpelling) :
    stripDotGit (s.body ++ if s.suffixed then dotGit else []) = s.body := by
  cases s.suffixed with
  | true =>
    have hlen : (s.body ++ dotGit).length - dotGit.length = s.body.length := by simp
    rw [if_pos rfl, stripDotGit, if_pos (List.suffix_append _ _), hlen, List.take_left]
  | false =>
    have hno : ¬ dotGit <:+ s.body := fun h => s.remote.repo_plain <| by
      have hcut : s.body = (s.front ++ separator s.transport :: s.remote.ownerPath) ++
          '/' :: s.remote.repo := by simp [body, Repository.path]
      exact SplitOnce.suffix_of_suffix (by decide) (hcut ▸ h)
    rw [if_neg Bool.false_ne_true, List.append_nil, stripDotGit, if_neg hno]

/-- The suffix and the slashes are dropped. -/
theorem normalizeRemoteUrl_url (s : RemoteSpelling) : normalizeRemoteUrl s.url = some s.body := by
  have hlast : ∀ c ∈ (s.body ++ if s.suffixed then dotGit else []).getLast?, c ≠ '/' := by
    intro c hc
    cases hs : s.suffixed with
    | true =>
      have hlast : dotGit.getLast? = some 't' := by decide
      rw [hs, if_pos rfl, List.getLast?_append_of_ne_nil _ (by decide), hlast] at hc
      obtain rfl := Option.some.inj hc
      decide
    | false =>
      rw [hs, if_neg Bool.false_ne_true, List.append_nil, body_last] at hc
      exact s.remote.getLast?_repo c hc
  have hne : (s.body ++ if s.suffixed then dotGit else []) ≠ [] := by simp [body]
  rw [normalizeRemoteUrl, trim_eq_self fun c hc => mem_url hc, url_eq, trimEndSlashes_append hlast,
    if_neg hne, stripDotGit_body]

theorem at_notMem_tail (s : RemoteSpelling) : '@' ∉ s.tail := by
  rw [tail, List.mem_append, List.mem_append]
  rintro ((h | h) | h)
  · exact (Repository.mem_path h).2.1 rfl
  · split at h
    · exact absurd h (by decide)
    · exact absurd h List.not_mem_nil
  · exact absurd (List.eq_of_mem_replicate h) (by decide)

theorem scp_of_scheme (h : scheme s.transport = none) : s.transport = .scp := by
  cases ht : s.transport with
  | scp => rfl
  | _ => rw [ht] at h; exact absurd h nofun

/-- The user of a URL in the style of scp has no backslash, which separates paths as well. -/
def PlainUser (s : RemoteSpelling) : Prop := s.transport = .scp → ∀ u ∈ s.userinfo, '\\' ∉ u

/-! ### The readers -/

theorem tail_ne (s : RemoteSpelling) : s.tail ≠ [] := by
  have := s.remote.path_ne
  simp [tail, this]

theorem head?_tail (s : RemoteSpelling) : s.tail.head? ≠ some '/' := by
  rw [tail, List.append_assoc]
  exact s.remote.head?_path _

theorem head?_path' (s : RemoteSpelling) : s.remote.path.head? ≠ some '/' := by
  simpa using s.remote.head?_path []

theorem at_notMem_path (s : RemoteSpelling) : '@' ∉ s.remote.path := fun h =>
  (Repository.mem_path h).2.1 rfl

/-- Both kinds of URLs are split into the host and the path. -/
theorem split_body (hplain : s.PlainUser) :
    (splitSchemeUrl s.body).or (splitScpUrl s.body) = some (s.remote.host, s.remote.path) := by
  cases h : scheme s.transport with
  | some sch => rw [body, splitSchemeUrl_url h s.remote.path_ne, Option.some_or]
  | none =>
    have hscp := scp_of_scheme h
    have hsep : separator s.transport = ':' := by rw [hscp]; rfl
    rw [body, hsep, splitSchemeUrl_scp hscp s.head?_path', Option.none_or,
      splitScpUrl_scp hscp (hplain hscp) s.at_notMem_path s.remote.path_ne]

theorem splitScpUrl_body (hplain : s.PlainUser) (h : splitSchemeUrl s.body = none) :
    splitScpUrl s.body = some (s.remote.host, s.remote.path) := by
  have hsplit := split_body hplain
  rwa [h, Option.none_or] at hsplit

theorem splitSchemeUrl_body {p : Text × Text} (hplain : s.PlainUser)
    (h : splitSchemeUrl s.body = some p) : p = (s.remote.host, s.remote.path) := by
  have hsplit := split_body hplain
  rw [h, Option.some_or] at hsplit
  exact Option.some.inj hsplit

theorem remoteIdentity_url (hplain : s.PlainUser) :
    remoteIdentity s.url = toAsciiLowercase s.remote.host ++ '/' :: s.remote.path := by
  simp only [remoteIdentity, normalizeRemoteUrl_url, split_body hplain, trimSlashes_path]

theorem stripPort_bare (s : RemoteSpelling) : stripPort s.remote.host = s.remote.host := by
  have hcolon : ∀ c ∈ s.remote.host, decide (c ≠ ':') = true := fun c hc =>
    decide_eq_true fun heq => s.remote.notMem_host (by decide) (heq ▸ hc)
  rw [stripPort, if_neg s.head_host, List.takeWhile_eq_self_iff.mpr hcolon]

theorem remoteHost_url (hplain : s.PlainUser) :
    remoteHost s.url = some (toAsciiLowercase s.remote.host) := by
  have htrim : Template.trim s.url = s.url := trim_eq_self fun c hc => mem_url hc
  cases h : scheme s.transport with
  | some sch =>
    have hauthority : (s.authority ++ '/' :: s.tail).takeWhile (· ≠ '/') = s.authority := by
      have hall : ∀ c ∈ s.authority, decide (c ≠ '/') = true := fun c hc =>
        decide_eq_true fun heq => slash_notMem_authority (heq ▸ hc)
      rw [List.takeWhile_append_of_pos hall, List.takeWhile_cons_of_neg (by decide), List.append_nil]
    have hscheme : splitScheme s.url = some (sch, s.authority ++ '/' :: s.tail) :=
      splitScheme_url h s.tail
    simp only [remoteHost, htrim, hscheme, hauthority, authorityHost_authority h, stripPort_bare,
      Option.bind_eq_bind, Option.bind_some, if_neg s.remote.host_ne]
  | none =>
    have hscp := scp_of_scheme h
    have hurl : s.url = s.front ++ ':' :: s.tail := by rw [url, hscp]; rfl
    have hscheme : splitScheme s.url = none := hurl ▸ splitScheme_scp hscp s.head?_tail
    have hsplit : splitScpUrl s.url = some (s.remote.host, s.tail) :=
      hurl ▸ splitScpUrl_scp hscp (hplain hscp) s.at_notMem_tail s.tail_ne
    simp only [remoteHost, htrim, hscheme, hsplit, Option.map_some, stripPort_bare,
      Option.bind_eq_bind, Option.bind_some, if_neg s.remote.host_ne]

theorem parseRemoteOwnerRepo_url (hplain : s.PlainUser) :
    parseRemoteOwnerRepo s.url = some (s.remote.ownerPath, s.remote.repo) := by
  rw [parseRemoteOwnerRepo, normalizeRemoteUrl_url, Option.bind_eq_bind, Option.bind_some]
  cases h : splitSchemeUrl s.body with
  | some p =>
    obtain rfl := splitSchemeUrl_body hplain h
    exact s.remote.splitOwner_path
  | none =>
    simp only [splitScpUrl_body hplain h, Option.bind_eq_bind, Option.bind_some]
    exact s.remote.splitOwner_path

theorem parseRemoteWebBase_url (hplain : s.PlainUser) :
    parseRemoteWebBase s.url = some (webBase s.remote.host s.remote.path) := by
  rw [parseRemoteWebBase, normalizeRemoteUrl_url, Option.bind_eq_bind, Option.bind_some]
  cases h : splitSchemeUrl s.body with
  | some p =>
    obtain rfl := splitSchemeUrl_body hplain h
    rfl
  | none =>
    simp only [splitScpUrl_body hplain h, Option.bind_eq_bind, Option.bind_some,
      if_neg s.remote.host_ne]

/-! ### The reader of GitHub -/

/-- The path behind one of the literal spellings. -/
theorem githubScpPath_body (h : s.transport = .scp) : githubScpPath s.body =
    if s.front = "git@github.com".toList then some s.remote.path else none := by
  have hbody : s.body = s.front ++ ':' :: s.remote.path := by rw [body, h]; rfl
  have hplain : stripPrefix "git@github.com:".toList s.body =
      if s.front = "git@github.com".toList then some s.remote.path else none := by
    have hcut : "git@github.com:".toList = "git@github.com".toList ++ ':' :: [] := by decide
    rw [hcut, hbody, stripPrefix_colon (by decide) (colon_notMem_front h)]
    simp only [List.nil_prefix, and_true, List.length_nil, List.drop_zero, eq_comm]
  have halias : stripPrefix "git@ssh.github.com:".toList s.body = none := by
    have hcut : "git@ssh.github.com:".toList = "git@".toList ++ sshGithubCom ++ ':' :: [] := by decide
    rw [hcut, hbody, stripPrefix_colon (by decide) (colon_notMem_front h)]
    refine if_neg fun hfront => s.remote.host_web.1 ?_
    have hdrop := congrArg dropUserinfo hfront.1
    rw [front_scp h, dropUserinfo_userText (s.remote.notMem_host (by decide))] at hdrop
    exact hdrop.symm.trans (by decide)
  rw [githubScpPath, hplain, halias, Option.or_none]

/-- The path that is read as one of GitHub. -/
def githubPath (s : RemoteSpelling) : Option Text :=
  match splitSchemeUrl s.body with
  | some (host, path) => if host = githubCom then some path else none
  | none => githubScpPath s.body

theorem parseGithubRemote_url (s : RemoteSpelling) : parseGithubRemote s.url =
    s.githubPath.bind fun path => match path.splitOn '/' with
      | owner :: repo :: _ => if owner = [] ∨ repo = [] then none else some (owner, repo)
      | _ => none := by
  rw [parseGithubRemote, normalizeRemoteUrl_url, githubPath, Option.bind_eq_bind, Option.bind_some]
  cases splitSchemeUrl s.body with
  | none => rfl
  | some p => by_cases hhost : p.1 = githubCom <;> simp only [hhost, if_true, if_false] <;> rfl

theorem githubPath_github (hhost : s.remote.host = githubCom)
    (hgit : s.transport = .scp → s.userinfo = some "git".toList) :
    s.githubPath = some s.remote.path := by
  cases h : scheme s.transport with
  | some sch =>
    rw [githubPath, body, splitSchemeUrl_url h s.remote.path_ne]
    exact if_pos hhost
  | none =>
    have hscp := scp_of_scheme h
    have hsep : separator s.transport = ':' := by rw [hscp]; rfl
    have hfront : s.front = "git@github.com".toList := by
      rw [front_scp hscp, userText, hgit hscp, hhost]
      decide
    have hnone : splitSchemeUrl s.body = none := by
      rw [body, hsep, splitSchemeUrl_scp hscp s.head?_path']
    rw [githubPath, hnone]
    exact (githubScpPath_body hscp).trans (if_pos hfront)

theorem githubPath_other (hhost : s.remote.host ≠ githubCom) : s.githubPath = none := by
  cases h : scheme s.transport with
  | some sch =>
    rw [githubPath, body, splitSchemeUrl_url h s.remote.path_ne]
    exact if_neg hhost
  | none =>
    have hscp := scp_of_scheme h
    have hsep : separator s.transport = ':' := by rw [hscp]; rfl
    have hnone : splitSchemeUrl s.body = none := by
      rw [body, hsep, splitSchemeUrl_scp hscp s.head?_path']
    rw [githubPath, hnone]
    refine (githubScpPath_body hscp).trans (if_neg fun hfront => hhost ?_)
    have hdrop := congrArg dropUserinfo hfront
    rw [front_scp hscp, dropUserinfo_userText (s.remote.notMem_host (by decide))] at hdrop
    exact hdrop.trans (by decide)

/-- Every spelling of a repository gives its host and its path. The reader of GitHub knows one
spelling of the host, and in the style of scp one user. -/
theorem readers_agree (s : RemoteSpelling) :
    (s.PlainUser →
      remoteIdentity s.url = toAsciiLowercase s.remote.host ++ '/' :: s.remote.path ∧
      remoteHost s.url = some (toAsciiLowercase s.remote.host) ∧
      parseRemoteOwnerRepo s.url = some (['/'].intercalate s.remote.owner, s.remote.repo) ∧
      parseRemoteWebBase s.url = some (webBase s.remote.host s.remote.path)) ∧
    (∀ owner, s.remote.owner = [owner] → s.remote.host = githubCom →
      (s.transport = .scp → s.userinfo = some "git".toList) →
        parseGithubRemote s.url = some (owner, s.remote.repo)) ∧
    (toAsciiLowercase s.remote.host ≠ githubCom → parseGithubRemote s.url = none) := by
  refine ⟨fun hplain => ?_, fun owner howner hhost hgit => ?_, fun hhost => ?_⟩
  · exact ⟨remoteIdentity_url hplain, remoteHost_url hplain, parseRemoteOwnerRepo_url hplain,
      parseRemoteWebBase_url hplain⟩
  · have hne : ¬ (owner = [] ∨ s.remote.repo = []) :=
      not_or.mpr ⟨(s.remote.segments owner (by simp [howner])).1, s.remote.isSegment_repo.1⟩
    simp only [parseGithubRemote_url, githubPath_github hhost hgit, Option.bind_some,
      s.remote.splitOn_path howner, if_neg hne]
  · have hlower : toAsciiLowercase githubCom = githubCom := by decide
    have hother : s.remote.host ≠ githubCom := fun heq => hhost (heq ▸ hlower)
    rw [parseGithubRemote_url, githubPath_other hother, Option.bind_none]

/-! ### One repository -/

theorem isSegment_of_all (hne : t ≠ []) (h : t.all Char.isAlpha) : IsSegment t := by
  refine ⟨hne, fun c hc => ?_⟩
  have hhost : isHostChar c := by
    simp [isHostChar, Char.isAlphanum, List.all_eq_true.mp h c hc]
  exact ⟨isHostChar_ne hhost (by decide), isHostChar_ne hhost (by decide),
    isHostChar_ne hhost (by decide), isHostChar_ne hhost (by decide),
    isHostChar_not_isWhitespace hhost⟩

/-- A repository with the path `acme/widget`. -/
def acmeWidget (host : Text) (hchars : host.all isHostChar)
    (hweb : host ≠ [] ∧ host ≠ sshGithubCom ∧ host ≠ altsshGitlabCom) : Repository where
  host := host
  owner := ["acme".toList]
  repo := "widget".toList
  host_ne := hweb.1
  host_chars := List.all_eq_true.mp hchars
  host_web := hweb.2
  owner_ne := List.cons_ne_nil _ _
  segments := by
    intro s hs
    rcases List.mem_cons.mp hs with rfl | hs
    · exact isSegment_of_all (by decide) (by decide)
    · rw [List.mem_singleton.mp hs]
      exact isSegment_of_all (by decide) (by decide)
  repo_plain := by decide

def onGithub : Repository := acmeWidget githubCom (by decide) (by decide)

def onUpperGithub : Repository := acmeWidget "GitHub.com".toList (by decide) (by decide)

def web (r : Repository) : RemoteSpelling where
  remote := r
  transport := .https
  userinfo := none
  suffixed := false
  slashes := 0
  userinfo_chars := nofun
  port_digits := nofun
  scp_user := nofun
  scp_host := nofun

def scpOf (r : Repository) (user : Text) (h : user.all fun c => c.isAlpha || c == '\\') : RemoteSpelling where
  remote := r
  transport := .scp
  userinfo := some user
  suffixed := true
  slashes := 0
  userinfo_chars := by
    rintro u ⟨rfl⟩ c hc
    have hcase := List.all_eq_true.mp h c hc
    simp only [Bool.or_eq_true, beq_iff_eq] at hcase
    rcases hcase with halpha | rfl
    · have hhost : isHostChar c := by simp [isHostChar, Char.isAlphanum, halpha]
      exact ⟨isHostChar_ne hhost (by decide), isHostChar_ne hhost (by decide),
        isHostChar_not_isWhitespace hhost⟩
    · decide
  port_digits := nofun
  scp_user := by
    rintro - u ⟨rfl⟩ hc
    exact absurd (List.all_eq_true.mp h _ hc) (by decide)
  scp_host := nofun

/-- A user with a backslash hides the remote from all readers. The reader of GitHub sees neither
another user than that of git nor capital letters in the host. -/
theorem readers_disagree :
    remoteIdentity (scpOf onGithub "corp\\git".toList (by decide)).url ≠
      remoteIdentity (web onGithub).url ∧
    parseGithubRemote (scpOf onGithub "octocat".toList (by decide)).url ≠
      parseGithubRemote (web onGithub).url ∧
    parseGithubRemote (web onUpperGithub).url ≠ parseGithubRemote (web onGithub).url :=
  ⟨by decide, by decide, by decide⟩

/-- The user of git, in the style of scp. -/
theorem readers_agree_git :
    remoteIdentity (scpOf onGithub "git".toList (by decide)).url = "github.com/acme/widget".toList ∧
    parseGithubRemote (scpOf onGithub "git".toList (by decide)).url =
      some ("acme".toList, "widget".toList) ∧
    parseGithubRemote (web (acmeWidget "gitlab.com".toList (by decide) (by decide))).url = none :=
  ⟨((readers_agree (scpOf onGithub "git".toList (by decide))).1 (by
      rintro - u ⟨rfl⟩
      decide)).1.trans (by decide),
    (readers_agree (scpOf onGithub "git".toList (by decide))).2.1 _ rfl rfl fun _ => rfl,
    (readers_agree (web (acmeWidget "gitlab.com".toList (by decide) (by decide)))).2.2 (by decide)⟩

end RemoteSpelling

end Anodizer.Git
