import Anodizer.Archive.Plan
import Anodizer.Lib.FirstOfEach
import Anodizer.Lib.Loop
import Anodizer.Lib.Traverse

/-! # What is packed into an archive

The entries of an archive come from the binaries, the extra files and the templated files. The
first entry of a name is packed, and the names are sorted.
-/

namespace Anodizer.Archive

open Loop (Flow)
open PublishOnly (components)
open Template (Text)

/-! ### Files -/

/-- What a file holds. An archive stores what it is given. -/
inductive File
  | raw (bytes : List UInt8)
  | pack (format : Text) (mtime : Option ℕ) (entries : List (Text × Option ArchiveFileInfo × File))
  | squeezed (format : Text) (content : File)

/-- What a file holds under a name. A file that stores no names holds one content. -/
def File.under : File → Text → Option File
  | raw _, _ => none
  | pack _ _ entries, name =>
    (entries.find? fun e => components e.1 = components name).map fun e => e.2.2
  | squeezed _ content, _ => some content

/-- The files of a run, by the components of their paths. -/
abbrev Disk := List Text → Option File

namespace Disk

def read (d : Disk) (path : Text) : Option File := d (components path)

def write (d : Disk) (path : Text) (f : File) : Disk := Function.update d (components path) (some f)

variable {d : Disk} {path other : Text} {f : File}

theorem read_write_self : (d.write path f).read path = some f := Function.update_self ..

theorem read_write_ne (h : components other ≠ components path) :
    (d.write path f).read other = d.read other := Function.update_of_ne h ..

theorem write_of_ne {k : List Text} (h : k ≠ components path) : d.write path f k = d k :=
  Function.update_of_ne h ..

end Disk

/-! ### Entries -/

/-- Where the bytes of an entry come from. What the stage renders into its staging directories is
packed from there at once. -/
inductive Source
  | file (path : Text)
  | staged (path : Text) (contents : File)

namespace Source

def path : Source → Text
  | file path => path
  | staged path _ => path

def read (disk : Disk) : Source → Option File
  | file path => disk.read path
  | staged _ contents => some contents

end Source

structure ArchiveEntry where
  src : Source
  archiveName : Text
  info : Option ArchiveFileInfo

def ArchiveEntry.key (e : ArchiveEntry) : List Text := components e.archiveName

/-- The first entry of each name. -/
def deduplicateEntries (entries : List ArchiveEntry) : List ArchiveEntry :=
  FirstOfEach.firstOfEach ArchiveEntry.key [] entries

/-- The order of path components: the root, the dots, then the names. -/
def componentOrder (c : Text) : ℕ ×ₗ Text :=
  toLex (if c = [] then 0 else if c = ".".toList then 1 else if c = "..".toList then 2 else 3, c)

def sortEntries (entries : List ArchiveEntry) : List ArchiveEntry :=
  StableSort.sortBy (fun e => e.key.map componentOrder) entries

/-- The entries of an archive, once they are found on the disk. -/
def readEntries (strict : Bool) (label : Text) (disk : Disk) :
    List ArchiveEntry → Except Text (List (Text × Option ArchiveFileInfo × File))
  | [] => .ok []
  | e :: entries =>
    match e.src.read disk with
    | none =>
      if strict then
        .error (label ++ ": '".toList ++ e.src.path ++
          "' no longer exists — omitted from the archive (strict mode)".toList)
      else readEntries strict label disk entries
    | some f => do
      let rest ← readEntries strict label disk entries
      return (e.archiveName, e.info, f) :: rest

/-! ### Formats -/

/-- Create a file, then write what the disk holds by then. -/
def createFile (disk : Disk) (path : Text) (contents : Disk → Except Text File) :
    Flow Disk (Text × Disk) :=
  match contents (disk.write path (.raw [])) with
  | .ok f => .next (disk.write path f)
  | .error e => .stop (e, disk.write path (.raw []))

/-- Compress one file. -/
def createSingle (format : Text) (disk : Disk) (path : Text) (src : Source) :
    Flow Disk (Text × Disk) :=
  match src.read disk with
  | none => .stop (format ++ ": source file does not exist: ".toList ++ src.path, disk)
  | some _ =>
    createFile disk path fun disk =>
      match src.read disk with
      | some f => .ok (.squeezed format f)
      | none => .error (format ++ ": read ".toList ++ src.path)

def tarFormat (format : Text) : Option Text :=
  if format = "tgz".toList then some "tar.gz".toList
  else if format = "txz".toList then some "tar.xz".toList
  else if format = "tzst".toList then some "tar.zst".toList
  else if format ∈ ["tar.gz".toList, "tar.xz".toList, "tar.zst".toList, "tar".toList] then
    some format
  else none

def writeArchiveInFormat (format path : Text) (entries : List ArchiveEntry) (mtime : Option ℕ)
    (strict : Bool) (disk : Disk) : Flow Disk (Text × Disk) :=
  if format = "zip".toList then
    createFile disk path fun disk => do
      return .pack format mtime (← readEntries strict "zip archive".toList disk entries)
  else
    match tarFormat format with
    | some tar =>
      createFile disk path fun disk => do
        return .pack tar mtime (← readEntries strict tar disk entries)
    | none =>
      if format = "gz".toList then
        match entries with
        | [] => .stop ("gz format requires at least one file".toList, disk)
        -- The files after the first are skipped with a warning.
        | e :: _ => createSingle format disk path e.src
      else if format = "xz".toList then
        match entries with
        | [] => .stop ("xz format requires exactly one file".toList, disk)
        | [e] => createSingle format disk path e.src
        | _ :: e :: _ =>
          .stop ("xz: failed to add ".toList ++ e.src.path ++
            ", only one file can be archived in xz format".toList, disk)
      else .stop ("unsupported archive format: ".toList ++ format, disk)

def copyBinary (disk : Disk) (src output : Text) : Flow Disk (Text × Disk) :=
  match disk.read src with
  | none => .stop ("binary: source does not exist: ".toList ++ src, disk)
  | some _ =>
    createFile disk output fun disk =>
      match disk.read src with
      | some f => .ok f
      | none => .error ("binary: copy ".toList ++ src ++ " → ".toList ++ output)

/-! ### What the entries leave -/

variable {strict : Bool} {label format path : Text} {disk disk' : Disk}
  {entries : List ArchiveEntry} {e : ArchiveEntry} {f : File}

/-- A file that was created is the only one that changed. -/
theorem createFile_next {contents : Disk → Except Text File}
    (h : createFile disk path contents = .next disk') :
    ∃ f, contents (disk.write path (.raw [])) = .ok f ∧ disk' = disk.write path f := by
  unfold createFile at h
  split at h
  · next f hf =>
    cases h
    exact ⟨f, hf, rfl⟩
  · cases h

/-- What is read at the name of an entry is what the disk holds at its source. -/
theorem find_readEntries {packed : List (Text × Option ArchiveFileInfo × File)}
    (h : readEntries strict label disk entries = .ok packed)
    (hnodup : (entries.map ArchiveEntry.key).Nodup) (he : e ∈ entries)
    (hf : e.src.read disk = some f) :
    (packed.find? fun p => components p.1 = e.key).map (fun p => p.2.2) = some f := by
  induction entries generalizing packed with
  | nil => cases he
  | cons a entries ih =>
    rw [List.map_cons, List.nodup_cons] at hnodup
    rw [readEntries] at h
    rcases List.mem_cons.mp he with rfl | he'
    · rw [hf] at h
      cases hrest : readEntries strict label disk entries with
      | error msg => rw [hrest] at h; cases h
      | ok rest =>
        rw [hrest] at h
        obtain rfl : (e.archiveName, e.info, f) :: rest = packed := Except.ok.inj h
        rw [List.find?_cons_of_pos (by simp [ArchiveEntry.key]), Option.map_some]
    · have hne : a.key ≠ e.key := fun heq => hnodup.1 (heq ▸ List.mem_map_of_mem he')
      split at h
      · split at h
        · cases h
        · exact ih h hnodup.2 he'
      · next g hg =>
        cases hrest : readEntries strict label disk entries with
        | error msg => rw [hrest] at h; cases h
        | ok rest =>
          rw [hrest] at h
          obtain rfl : (a.archiveName, a.info, g) :: rest = packed := Except.ok.inj h
          rw [List.find?_cons_of_neg]
          · exact ih hrest hnodup.2 he'
          · exact fun heq => hne (of_decide_eq_true heq)

theorem under_congr {name name' : Text} (h : components name = components name') :
    f.under name = f.under name' := by
  cases f with
  | raw => rfl
  | pack => rw [File.under, File.under, h]
  | squeezed => rfl

/-- A compressed file holds what the disk held at its source. -/
theorem createSingle_next {src : Source} (h : createSingle format disk path src = .next disk') :
    ∃ f, src.read (disk.write path (.raw [])) = some f ∧
      disk' = disk.write path (.squeezed format f) := by
  unfold createSingle at h
  split at h
  · cases h
  · obtain ⟨g, hg, rfl⟩ := createFile_next h
    split at hg
    · next f hf =>
      cases hg
      exact ⟨f, hf, rfl⟩
    · cases hg

theorem copyBinary_next {src output : Text} (h : copyBinary disk src output = .next disk') :
    ∃ f, (disk.write output (.raw [])).read src = some f ∧ disk' = disk.write output f := by
  unfold copyBinary at h
  split at h
  · cases h
  · obtain ⟨g, hg, rfl⟩ := createFile_next h
    split at hg
    · next f hf =>
      cases hg
      exact ⟨_, hf, rfl⟩
    · cases hg

theorem createPack_next {mtime : Option ℕ}
    (h : (createFile disk path fun disk => do
      return .pack format mtime (← readEntries strict label disk entries)) = .next disk')
    (hnodup : (entries.map ArchiveEntry.key).Nodup) :
    ∃ file, disk' = disk.write path file ∧ ∀ e ∈ entries, ∀ f,
      e.src.read (disk.write path (.raw [])) = some f → file.under e.archiveName = some f := by
  obtain ⟨file, hfile, rfl⟩ := createFile_next h
  obtain ⟨packed, hpacked, heq⟩ := Traverse.bind_eq_ok.mp hfile
  cases heq
  exact ⟨_, rfl, fun e he f hf => find_readEntries hpacked hnodup he hf⟩

/-- The written file holds its entries. A gzip file holds one, so this is about the only one. -/
theorem writeArchiveInFormat_next {mtime : Option ℕ}
    (h : writeArchiveInFormat format path entries mtime strict disk = .next disk')
    (hnodup : (entries.map ArchiveEntry.key).Nodup) :
    ∃ file, disk' = disk.write path file ∧
      ((format = "gz".toList → entries.length = 1) → ∀ e ∈ entries, ∀ f,
        e.src.read (disk.write path (.raw [])) = some f → file.under e.archiveName = some f) := by
  have hsingle : ∀ {a : ArchiveEntry}, createSingle format disk path a.src = .next disk' →
      ∃ file, disk' = disk.write path file ∧ ∀ f,
        a.src.read (disk.write path (.raw [])) = some f → ∀ name, file.under name = some f := by
    intro a hcreate
    obtain ⟨g, hg, rfl⟩ := createSingle_next hcreate
    exact ⟨_, rfl, fun f hf name => hg.symm.trans hf⟩
  unfold writeArchiveInFormat at h
  split at h
  · obtain ⟨file, rfl, hfile⟩ := createPack_next h hnodup
    exact ⟨file, rfl, fun _ => hfile⟩
  · split at h
    · obtain ⟨file, rfl, hfile⟩ := createPack_next h hnodup
      exact ⟨file, rfl, fun _ => hfile⟩
    · split at h
      · next hgz =>
        cases entries with
        | nil => cases h
        | cons a rest =>
          obtain ⟨file, rfl, hfile⟩ := hsingle h
          refine ⟨file, rfl, fun hone e he f hf => ?_⟩
          have hrest : rest = [] := by simpa using hone hgz
          rw [hrest, List.mem_singleton] at he
          subst he
          exact hfile f hf _
      · split at h
        · cases entries with
          | nil => cases h
          | cons a rest =>
            cases rest with
            | nil =>
              obtain ⟨file, rfl, hfile⟩ := hsingle h
              refine ⟨file, rfl, fun _ e he f hf => ?_⟩
              rw [List.mem_singleton] at he
              subst he
              exact hfile f hf _
            | cons b rest => cases h
        · cases h

theorem mem_sortEntries : e ∈ sortEntries entries ↔ e ∈ entries :=
  (StableSort.perm_sortBy _ entries).mem_iff

/-- No name is packed twice. -/
theorem nodup_packed :
    ((sortEntries (deduplicateEntries entries)).map ArchiveEntry.key).Nodup := by
  have hperm := (StableSort.perm_sortBy (fun e => e.key.map componentOrder)
    (deduplicateEntries entries)).map ArchiveEntry.key
  exact hperm.nodup_iff.mpr (FirstOfEach.nodup_firstOfEach ArchiveEntry.key)

/-- The first entry of its name is packed. -/
theorem mem_packed (h : entries.find? (·.key = e.key) = some e) :
    e ∈ sortEntries (deduplicateEntries entries) :=
  mem_sortEntries.mpr (FirstOfEach.mem_firstOfEach.mpr ⟨List.not_mem_nil, h⟩)

end Anodizer.Archive
