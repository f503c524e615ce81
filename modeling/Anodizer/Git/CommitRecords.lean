import Anodizer.Lib.Lines
import Anodizer.Lib.SplitOnce
import Anodizer.Template.StringLit

/-! # Commit records

A log prints six fields of each commit, each with a NUL behind it. The files of a commit follow its
record, so that in a split at the NULs they stand before the hash of the next commit.
-/

namespace Anodizer.Git

open Template (Text trim)

def nul : Char := Char.ofNat 0

structure Commit where
  hash : Text
  shortHash : Text
  message : Text
  authorName : Text
  authorEmail : Text
  body : Text
  deriving DecidableEq, Repr

/-- The six texts that a NUL ends, as they are cut. -/
structure Fields where
  hash : Text
  shortHash : Text
  subject : Text
  authorName : Text
  authorEmail : Text
  body : Text

/-- Six tokens at a time, and what is left. -/
def asChunks : List Text → List Fields × List Text
  | hash :: shortHash :: subject :: authorName :: authorEmail :: body :: tokens =>
    let (chunks, rest) := asChunks tokens
    (⟨hash, shortHash, subject, authorName, authorEmail, body⟩ :: chunks, rest)
  | rest => ([], rest)

/-- The text before the hash of a record, and the record. -/
def record (fields : Fields) : Text × Fields :=
  let (leading, hash) := (SplitOnce.last '\n' fields.hash).getD ([], fields.hash)
  (leading, { fields with hash := trim hash })

def splitCommitRecords (output : Text) : List (Text × Fields) × Text :=
  let (chunks, rest) := asChunks (output.splitOn nul)
  (chunks.map record, rest.head?.getD [])

def commitFromFields (fields : Fields) : Option Commit :=
  if fields.hash = [] then none
  else
    some ⟨fields.hash, fields.shortHash, fields.subject, fields.authorName, fields.authorEmail,
      trim fields.body⟩

def parseCommitOutput (output : Text) : List Commit :=
  (splitCommitRecords output).1.filterMap fun (_, fields) => commitFromFields fields

structure CommitWithFiles where
  commit : Commit
  files : List Text
  deriving DecidableEq, Repr

def trimEndCr (line : Text) : Text := line.rdropWhile (· == '\r')

/-- The paths of a file block. -/
def filesOf (filesText : Text) : List Text :=
  ((Lines.lines filesText).map trimEndCr).filter (· ≠ [])

def parseCommitOutputWithFiles (output : Text) : List CommitWithFiles :=
  let (records, trailing) := splitCommitRecords output
  records.zipIdx.filterMap fun ((_, fields), idx) =>
    (commitFromFields fields).map fun commit =>
      -- the files of a commit stand before the hash of the next one
      ⟨commit, filesOf ((records[idx + 1]?).elim trailing Prod.fst)⟩

/-! ### What git prints -/

/-- A commit as git holds it, with the paths it touches. -/
structure LogCommit where
  fields : Fields
  files : List Text
  hash_ne : fields.hash ≠ []
  hash_line : '\n' ∉ fields.hash
  no_nul : nul ∉ fields.hash ++ fields.shortHash ++ fields.subject ++ fields.authorName ++
    fields.authorEmail ++ fields.body
  path : ∀ f ∈ files, f ≠ [] ∧ '\n' ∉ f ∧ nul ∉ f

namespace LogCommit

/-- The six fields, each with a NUL behind it. -/
def recordText (c : LogCommit) : Text :=
  c.fields.hash ++ nul :: (c.fields.shortHash ++ nul :: (c.fields.subject ++ nul ::
    (c.fields.authorName ++ nul :: (c.fields.authorEmail ++ nul :: (c.fields.body ++ [nul])))))

/-- A newline and the paths, one a line. The last newline of an output may be cut. -/
def fileBlock (closed : Bool) (c : LogCommit) : Text :=
  if c.files = [] then []
  else '\n' :: (['\n'].intercalate c.files ++ if closed then ['\n'] else [])

/-- The commit without its paths. -/
def plain (c : LogCommit) : LogCommit := { c with files := [], path := by simp }

/-- The commit that is read back. -/
def commit (c : LogCommit) : Option Commit :=
  if trim c.fields.hash = [] then none
  else
    some ⟨trim c.fields.hash, c.fields.shortHash, c.fields.subject, c.fields.authorName,
      c.fields.authorEmail, trim c.fields.body⟩

/-- The paths that are read back. -/
def paths (c : LogCommit) : List Text := (c.files.map trimEndCr).filter (· ≠ [])

end LogCommit

/-- The records with a newline between them, each with its files. -/
def logText (closed : Bool) : List LogCommit → Text
  | [] => []
  | [c] => c.recordText ++ c.fileBlock closed
  | c :: cs => c.recordText ++ (c.fileBlock true ++ '\n' :: logText closed cs)

/-! ### File blocks -/

variable {c : LogCommit} {cs : List LogCommit} {closed : Bool} {p t : Text}

theorem trimEndCr_stripCr (line : Text) : trimEndCr (Lines.stripCr line) = trimEndCr line := by
  rw [Lines.stripCr]
  split
  · next h =>
    obtain ⟨init, rfl⟩ : ∃ init, line = init ++ ['\r'] := List.getLast?_eq_some_iff.mp h
    rw [List.dropLast_concat, trimEndCr, trimEndCr, List.rdropWhile_concat_pos _ _ _ (by rfl)]
  · rfl

/-- The end of the last line makes no difference. -/
theorem filesOf_eq (t : Text) :
    filesOf t = ((t.splitOn '\n').map trimEndCr).filter (· ≠ []) := by
  obtain ⟨init, last, heq, -⟩ := Lines.splitOn_eq t
  have hinit : (init.map Lines.stripCr).map trimEndCr = init.map trimEndCr := by
    rw [List.map_map]
    exact List.map_congr_left fun l _ => trimEndCr_stripCr l
  simp only [filesOf, Lines.lines, heq, List.dropLast_concat, List.getLast?_concat,
    Option.toList_some, List.map_append, hinit]
  cases last with
  | nil => simp [trimEndCr]
  | cons a last => simp

theorem filesOf_fileBlock (closed : Bool) (c : LogCommit) :
    filesOf (c.fileBlock closed) = c.paths := by
  rw [filesOf_eq, LogCommit.fileBlock, LogCommit.paths]
  by_cases hne : c.files = []
  · simp [hne, trimEndCr]
  · have hlines : ∀ f ∈ c.files, '\n' ∉ f := fun f hf => (c.path f hf).2.1
    have hsplit : (['\n'].intercalate c.files).splitOn '\n' = c.files :=
      List.splitOn_intercalate '\n' hlines hne
    have hhead : ∀ s : Text, ('\n' :: s).splitOn '\n' = [] :: s.splitOn '\n' := fun s =>
      Lines.splitOn_append [] s
    rw [if_neg hne, hhead]
    cases closed with
    | false => simp [hsplit, trimEndCr]
    | true => simp [Lines.splitOn_append, hsplit, trimEndCr]

/-! ### Reading records -/

theorem LogCommit.nul_not_mem_fileBlock (closed : Bool) (c : LogCommit) :
    nul ∉ c.fileBlock closed := by
  have hline : nul ≠ '\n' := by decide
  rw [fileBlock]
  split
  · simp
  · intro h
    rcases List.mem_cons.mp h with h | h
    · exact hline h
    · rcases List.mem_append.mp h with h | h
      · rcases Lines.mem_intercalate h with h | ⟨f, hf, h⟩
        · exact hline h
        · exact (c.path f hf).2.2 h
      · cases closed with
        | false => simp at h
        | true => exact hline (by simpa using h)

/-- The record of a commit behind a text without a NUL is six tokens. -/
theorem splitOn_record (hp : nul ∉ p) (t : Text) : (p ++ (c.recordText ++ t)).splitOn nul =
    (p ++ c.fields.hash) :: c.fields.shortHash :: c.fields.subject :: c.fields.authorName ::
      c.fields.authorEmail :: c.fields.body :: t.splitOn nul := by
  have hcut : ∀ {s : Text}, nul ∉ s → ∀ t : Text,
      (s ++ nul :: t).splitOn nul = s :: t.splitOn nul := fun hs t => by
    rw [List.splitOn_append_cons_self, List.splitOn_eq_singleton hs, List.singleton_append]
  have hnul := c.no_nul
  simp only [List.mem_append, not_or] at hnul
  obtain ⟨⟨⟨⟨⟨hhash, hshort⟩, hsubject⟩, hname⟩, hemail⟩, hbody⟩ := hnul
  have htext : p ++ (c.recordText ++ t) = (p ++ c.fields.hash) ++ nul :: (c.fields.shortHash ++
      nul :: (c.fields.subject ++ nul :: (c.fields.authorName ++ nul :: (c.fields.authorEmail ++
        nul :: (c.fields.body ++ nul :: t))))) := by
    simp [LogCommit.recordText]
  rw [htext, hcut (by simp [hp, hhash]), hcut hshort, hcut hsubject, hcut hname, hcut hemail,
    hcut hbody]

theorem asChunks_record (hp : nul ∉ p) (t : Text) :
    asChunks ((p ++ (c.recordText ++ t)).splitOn nul) =
      ({ c.fields with hash := p ++ c.fields.hash } :: (asChunks (t.splitOn nul)).1,
        (asChunks (t.splitOn nul)).2) := by
  rw [splitOn_record hp]
  rfl

/-- The fields that are read of a commit. -/
def LogCommit.trimmed (c : LogCommit) : Fields := { c.fields with hash := trim c.fields.hash }

theorem commitFromFields_trimmed (c : LogCommit) : commitFromFields c.trimmed = c.commit := rfl

/-- The file blocks of a log. -/
def blocks (closed : Bool) : List LogCommit → List Text
  | [] => []
  | [c] => [c.fileBlock closed]
  | c :: cs => c.fileBlock true :: blocks closed cs

theorem filesOf_blocks (closed : Bool) (cs : List LogCommit) :
    (blocks closed cs).map filesOf = cs.map LogCommit.paths := by
  induction cs with
  | nil => rfl
  | cons c cs ih =>
    cases cs with
    | nil => simp [blocks, filesOf_fileBlock]
    | cons d cs => rw [blocks, List.map_cons, ih, filesOf_fileBlock, List.map_cons] <;> simp

/-- What stands before a hash is cut off at its last newline. -/
theorem record_leading {q : Text} (h : p = [] ∧ q = [] ∨ p = q ++ ['\n']) (c : LogCommit) :
    record { c.fields with hash := p ++ c.fields.hash } = (q, c.trimmed) := by
  rcases h with ⟨rfl, rfl⟩ | rfl
  · rw [List.nil_append, record, SplitOnce.last_eq_none.mpr c.hash_line]
    rfl
  · have hcut : q ++ ['\n'] ++ c.fields.hash = q ++ '\n' :: c.fields.hash := by simp
    simp only [record, hcut, SplitOnce.last_append c.hash_line, Option.getD_some]
    rfl

/-- The texts before the hashes are the file blocks, shifted by one. -/
theorem asChunks_logText (closed : Bool) {q : Text} (h : p = [] ∧ q = [] ∨ p = q ++ ['\n']) (hp : nul ∉ p)
    (c : LogCommit) (cs : List LogCommit) :
    let (chunks, rest) := asChunks ((p ++ logText closed (c :: cs)).splitOn nul)
    (chunks.map record).map Prod.snd = (c :: cs).map LogCommit.trimmed ∧
      (chunks.map record).map Prod.fst ++ [rest.head?.getD []] =
        q :: blocks closed (c :: cs) := by
  induction cs generalizing c p q with
  | nil =>
    have hrest : asChunks ((c.fileBlock closed).splitOn nul) = ([], [c.fileBlock closed]) := by
      rw [List.splitOn_eq_singleton (c.nul_not_mem_fileBlock closed)]
      rfl
    rw [logText, asChunks_record hp, hrest]
    simp [record_leading h, blocks]
  | cons d cs ih =>
    have hblock : nul ∉ c.fileBlock true ++ ['\n'] := by
      have hline : nul ≠ '\n' := by decide
      simp [c.nul_not_mem_fileBlock true, hline]
    have hnext : c.fileBlock true ++ '\n' :: logText closed (d :: cs) =
        (c.fileBlock true ++ ['\n']) ++ logText closed (d :: cs) := by simp
    obtain ⟨hfields, hleading⟩ := ih (.inr rfl) hblock d
    rw [logText, asChunks_record hp, hnext]
    · refine ⟨?_, ?_⟩
      · simp only [List.map_cons, record_leading h, hfields]
      · simp only [List.map_cons, record_leading h, List.cons_append, hleading, blocks]
    · simp

theorem splitCommitRecords_logText (closed : Bool) (cs : List LogCommit) :
    (splitCommitRecords (logText closed cs)).1.map Prod.snd = cs.map LogCommit.trimmed ∧
      ∃ q, (splitCommitRecords (logText closed cs)).1.map Prod.fst ++
        [(splitCommitRecords (logText closed cs)).2] = q :: blocks closed cs := by
  cases cs with
  | nil => exact ⟨rfl, [], rfl⟩
  | cons c cs =>
    have h := asChunks_logText closed (.inl ⟨rfl, rfl⟩) (by simp) c cs
    rw [List.nil_append] at h
    exact ⟨h.1, [], h.2⟩

/-- A record is paired with what stands before the next one, or with the trailing text. -/
theorem zipIdx_next {records : List (Text × Fields)} {trailing q : Text} {bs : List Text}
    (h : records.map Prod.fst ++ [trailing] = q :: bs) :
    records.zipIdx.map (fun (r, idx) => (r.2, (records[idx + 1]?).elim trailing Prod.fst)) =
      (records.map Prod.snd).zip bs := by
  have hlen : records.length = bs.length := by simpa using congrArg List.length h
  refine List.ext_getElem (by simp [hlen]) fun i hi _ => ?_
  have hi : i < records.length := by simpa using hi
  have hget : (records.map Prod.fst ++ [trailing])[i + 1]? = bs[i]? := by rw [h]; rfl
  rw [List.getElem?_eq_getElem (show i < bs.length by omega)] at hget
  have hnext : (records[i + 1]?).elim trailing Prod.fst = bs[i] := by
    by_cases hlast : i + 1 < records.length
    · rw [List.getElem?_append_left (by simpa using hlast), List.getElem?_map,
        List.getElem?_eq_getElem hlast] at hget
      rw [List.getElem?_eq_getElem hlast]
      exact Option.some.inj hget
    · rw [List.getElem?_eq_none (by omega), Option.elim_none]
      rw [List.getElem?_append_right (by simp; omega), List.length_map,
        show i + 1 - records.length = 0 by omega] at hget
      exact Option.some.inj hget
  simp [hnext]

/-! ### Reading a log back -/

/-- The commit with its fields as they are, but for the ends of its body. -/
def LogCommit.exact (c : LogCommit) : Commit where
  hash := c.fields.hash
  shortHash := c.fields.shortHash
  message := c.fields.subject
  authorName := c.fields.authorName
  authorEmail := c.fields.authorEmail
  body := trim c.fields.body

/-- A log, with or without paths, gives back the commits, each with its own paths. -/
def ReadsBack (closed : Bool) (cs : List LogCommit) : Prop :=
  parseCommitOutput (logText closed (cs.map LogCommit.plain)) = cs.map LogCommit.exact ∧
    parseCommitOutput (logText closed cs) = cs.map LogCommit.exact ∧
    parseCommitOutputWithFiles (logText closed cs) = cs.map fun c => ⟨c.exact, c.files⟩

theorem parseCommitOutput_logText (closed : Bool) (cs : List LogCommit) :
    parseCommitOutput (logText closed cs) = cs.filterMap LogCommit.commit := by
  obtain ⟨hfields, -⟩ := splitCommitRecords_logText closed cs
  rw [parseCommitOutput]
  generalize splitCommitRecords (logText closed cs) = s at hfields
  calc s.1.filterMap (fun r => commitFromFields r.2)
      = (s.1.map Prod.snd).filterMap commitFromFields := by
        rw [List.filterMap_map]
        rfl
    _ = cs.filterMap LogCommit.commit := by
        rw [hfields, List.filterMap_map]
        rfl

theorem parseCommitOutputWithFiles_logText (closed : Bool) (cs : List LogCommit) :
    parseCommitOutputWithFiles (logText closed cs) =
      cs.filterMap fun c => c.commit.map (⟨·, c.paths⟩) := by
  obtain ⟨hfields, q, hleading⟩ := splitCommitRecords_logText closed cs
  rw [parseCommitOutputWithFiles]
  generalize splitCommitRecords (logText closed cs) = s at hfields hleading
  obtain ⟨records, trailing⟩ := s
  let read : Fields × List Text → Option CommitWithFiles := fun r =>
    (commitFromFields r.1).map (⟨·, r.2⟩)
  calc records.zipIdx.filterMap (fun ((_, fields), idx) => (commitFromFields fields).map
        (⟨·, filesOf ((records[idx + 1]?).elim trailing Prod.fst)⟩))
      = (records.zipIdx.map fun (r, idx) =>
          (r.2, (records[idx + 1]?).elim trailing Prod.fst)).filterMap
            (read ∘ Prod.map id filesOf) := by
        rw [List.filterMap_map]
        rfl
    _ = ((cs.map LogCommit.trimmed).zip (cs.map LogCommit.paths)).filterMap read := by
        rw [zipIdx_next hleading, ← List.filterMap_map, ← List.zip_map, List.map_id, hfields,
          filesOf_blocks]
    _ = cs.filterMap fun c => c.commit.map (⟨·, c.paths⟩) := by
        rw [List.zip_map', List.filterMap_map]
        rfl

/-- A commit that touches a file whose name ends in a carriage return. -/
def crCommit : LogCommit where
  fields := ⟨"a1".toList, "a1".toList, "fix".toList, "n".toList, "e".toList, []⟩
  files := ["x\r".toList]
  hash_ne := by decide
  hash_line := by decide
  no_nul := by decide
  path := by decide

end Anodizer.Git
