import Mathlib.Data.List.Sort
import Mathlib.Data.List.Dedup
import Mathlib.Data.String.Basic

/-! # Workspace dependencies in a manifest

Two scanners read the dependency tables of a crate's `Cargo.toml`: one derives
`depends_on`, by table key; the other collects what must be on the index, by
effective package name.
-/

namespace Anodizer

/-- A parsed TOML value; `other` stands for numbers, dates and arrays. -/
inductive Toml where
  | string (s : String)
  | bool (b : Bool)
  | table (entries : List (String × Toml))
  | other

namespace Toml

def asStr : Toml → Option String
  | string s => some s
  | _ => none

def asBool : Toml → Option Bool
  | bool b => some b
  | _ => none

def asTable : Toml → Option (List (String × Toml))
  | table entries => some entries
  | _ => none

def get (doc : Toml) (key : String) : Option Toml :=
  doc.asTable.bind (·.lookup key)

/-- The entries of a table, none when the value is absent or is no table. -/
def entriesOf (item : Option Toml) : List (String × Toml) :=
  (item.bind asTable).getD []

def workspaceInherit (value : Toml) : Bool :=
  (value.get "workspace").bind asBool == some true

end Toml

open Toml

/-! ### Deriving `depends_on` -/

/-- The keys of a dependency table that name a member and whose value is kept, sorted. -/
def extractDeps (keep : Toml → Bool) (dependencies : Option Toml) (memberNames : List String) :
    List String :=
  (((entriesOf dependencies).filter fun e => e.1 ∈ memberNames && keep e.2).map
    Prod.fst).insertionSort (· ≤ ·)

def extractWorkspaceDeps : Option Toml → List String → List String :=
  extractDeps fun value => (value.get "path").isSome || value.workspaceInherit

/-- Only a versioned or inherited dev-dependency survives in the published manifest. -/
def extractPublishableDevDeps : Option Toml → List String → List String :=
  extractDeps fun value =>
    ((value.get "path").isSome || value.workspaceInherit) &&
      ((value.get "version").isSome || value.workspaceInherit)

def packageName (doc : Toml) : Option String :=
  ((doc.get "package").bind (·.get "name")).bind asStr

/-- The values of the `[target.*]` tables. -/
def targetTables (doc : Toml) : List Toml :=
  (entriesOf (doc.get "target")).map Prod.snd

def deriveDependsOnFromCargoToml (doc : Option Toml) (memberNames : List String) :
    List String :=
  match doc with
  | none => []
  | some doc =>
    let deps :=
      extractWorkspaceDeps (doc.get "dependencies") memberNames ++
        extractWorkspaceDeps (doc.get "build-dependencies") memberNames ++
        extractPublishableDevDeps (doc.get "dev-dependencies") memberNames ++
        (targetTables doc).flatMap fun target =>
          extractWorkspaceDeps (target.get "dependencies") memberNames
    (deps.filter fun d => some d ≠ packageName doc).dedup.insertionSort (· ≤ ·)

/-! ### What the index must hold -/

/-- A literal version: a bare string, or the `version` of a table that does not inherit. -/
def extractVersionPin : Toml → Option String
  | string s => some s
  | value => if value.workspaceInherit then none else (value.get "version").bind asStr

structure RootDepPin where
  package : String
  version : String

def renamedPackage (value : Toml) : Option String :=
  (value.get "package").bind asStr

/-- The `[workspace.dependencies]` of the root manifest. -/
def workspaceDependencyEntries (root : Option Toml) : List (String × RootDepPin) :=
  (entriesOf ((root.bind (·.get "workspace")).bind (·.get "dependencies"))).map fun e =>
    (e.1, { package := (renamedPackage e.2).getD e.1
            version := (extractVersionPin e.2).getD "" })

structure WorkspaceDepEntry where
  key : String
  package : String
  version : String
  deriving DecidableEq, Repr

/-- The root entry that a `workspace = true` dependency without its own rename inherits. -/
def inheritedEntry (root : List (String × RootDepPin)) (key : String) (value : Toml) :
    Option RootDepPin :=
  if (renamedPackage value).isNone && value.workspaceInherit then root.lookup key else none

/-- The package cargo resolves: the leaf's rename, then the root's, then the key. -/
def effectivePackage (root : List (String × RootDepPin)) (key : String) (value : Toml) :
    String :=
  (renamedPackage value <|> (inheritedEntry root key value).map (·.package)).getD key

def requiredVersion (root : List (String × RootDepPin)) (key : String) (value : Toml) :
    String :=
  (extractVersionPin value <|>
    ((inheritedEntry root key value).map (·.version)).filter (· ≠ "")).getD ""

/-- A package seen again only fills in a missing version. -/
def addEntry (out : List WorkspaceDepEntry) (entry : WorkspaceDepEntry) :
    List WorkspaceDepEntry :=
  if out.any (·.package = entry.package) then
    out.map fun e =>
      if e.package = entry.package ∧ e.version = "" then { e with version := entry.version } else e
  else out ++ [entry]

def visitTable (root : List (String × RootDepPin)) (names : List String)
    (out : List WorkspaceDepEntry) (item : Option Toml) : List WorkspaceDepEntry :=
  (entriesOf item).foldl (fun out e =>
    if effectivePackage root e.1 e.2 ∈ names then
      addEntry out
        { key := e.1
          package := effectivePackage root e.1 e.2
          version := requiredVersion root e.1 e.2 }
    else out) out

/-- The dependency tables of the sections, plain ones first, then those of each target. -/
def sectionTables (doc : Toml) (sections : List String) : List (Option Toml) :=
  sections.map doc.get ++ (targetTables doc).flatMap fun target => sections.map target.get

/-- The manifests a run reads: a crate's own, and the root of the workspace it lives under. -/
structure Disk where
  manifest : String → Option Toml
  workspaceRoot : String → Option Toml

def collectWorkspaceDepEntries (disk : Disk) (path : String) (names sections : List String) :
    List WorkspaceDepEntry :=
  match disk.manifest path with
  | none => []
  | some doc =>
    (sectionTables doc sections).foldl
      (visitTable (workspaceDependencyEntries (disk.workspaceRoot path)) names) []

def publishRequiredWorkspaceDeps (disk : Disk) (path : String) (names : List String) :
    List WorkspaceDepEntry :=
  collectWorkspaceDepEntries disk path names ["dependencies", "build-dependencies"]

/-! ### Where the two scanners agree -/

theorem mem_extractDeps {keep : Toml → Bool} {dependencies : Option Toml}
    {memberNames : List String} {d : String} :
    d ∈ extractDeps keep dependencies memberNames ↔
      d ∈ memberNames ∧ ∃ value, (d, value) ∈ entriesOf dependencies ∧ keep value = true := by
  simp only [extractDeps, List.mem_insertionSort, List.mem_map, List.mem_filter,
    Bool.and_eq_true, decide_eq_true_eq]
  constructor
  · rintro ⟨⟨key, value⟩, ⟨hm, hin, hk⟩, rfl⟩
    exact ⟨hin, value, hm, hk⟩
  · rintro ⟨hin, value, hm, hk⟩
    exact ⟨(d, value), ⟨hm, hin, hk⟩, rfl⟩

/-- The tables whose entries the derivation reads by key, dev-dependencies apart. -/
def derivedTables (doc : Toml) : List (Option Toml) :=
  [doc.get "dependencies", doc.get "build-dependencies"] ++
    (targetTables doc).map (·.get "dependencies")

theorem mem_derive {doc : Toml} {memberNames : List String} {item : Option Toml} {d : String}
    (hi : item ∈ derivedTables doc) (hd : d ∈ extractWorkspaceDeps item memberNames)
    (hself : packageName doc ≠ some d) :
    d ∈ deriveDependsOnFromCargoToml (some doc) memberNames := by
  simp only [derivedTables, List.mem_append, List.mem_cons, List.not_mem_nil, or_false,
    List.mem_map] at hi
  simp only [deriveDependsOnFromCargoToml, List.mem_insertionSort, List.mem_dedup,
    List.mem_filter, List.mem_append, List.mem_flatMap, decide_eq_true_eq]
  refine ⟨?_, hself.symm⟩
  rcases hi with (rfl | rfl) | ⟨target, ht, rfl⟩
  · exact .inl (.inl (.inl hd))
  · exact .inl (.inl (.inr hd))
  · exact .inr ⟨target, ht, hd⟩

theorem package_addEntry {out : List WorkspaceDepEntry} {entry e : WorkspaceDepEntry}
    (h : e ∈ addEntry out entry) : e.package = entry.package ∨ ∃ o ∈ out, o.package = e.package := by
  unfold addEntry at h
  split at h
  · obtain ⟨o, ho, rfl⟩ := List.mem_map.mp h
    right
    refine ⟨o, ho, ?_⟩
    split <;> rfl
  · rcases List.mem_append.mp h with ho | he
    · exact .inr ⟨e, ho, rfl⟩
    · exact .inl (by rw [List.mem_singleton.mp he])

/-- The package of a collected entry is the effective package of some declaration. -/
def Declares (root : List (String × RootDepPin)) (names : List String)
    (items : List (Option Toml)) (package : String) : Prop :=
  package ∈ names ∧ ∃ item ∈ items, ∃ e ∈ entriesOf item, effectivePackage root e.1 e.2 = package

def AllDeclared (root : List (String × RootDepPin)) (names : List String)
    (items : List (Option Toml)) (out : List WorkspaceDepEntry) : Prop :=
  ∀ e ∈ out, Declares root names items e.package

theorem declares_visitTable {root : List (String × RootDepPin)} {names : List String}
    {items : List (Option Toml)} {item : Option Toml} (hi : item ∈ items)
    {out : List WorkspaceDepEntry} (ho : AllDeclared root names items out) :
    AllDeclared root names items (visitTable root names out item) := by
  refine List.foldlRecOn (motive := AllDeclared root names items) (entriesOf item) _ ho ?_
  intro out ho e he
  split
  · next hin =>
    intro o hm
    rcases package_addEntry hm with hp | ⟨o', ho', hp⟩
    · rw [hp]
      exact ⟨hin, item, hi, e, he, rfl⟩
    · exact hp ▸ ho o' ho'
  · exact ho

theorem declares_of_mem {disk : Disk} {path : String} {names sections : List String}
    {doc : Toml} (hdoc : disk.manifest path = some doc) :
    AllDeclared (workspaceDependencyEntries (disk.workspaceRoot path)) names
      (sectionTables doc sections) (collectWorkspaceDepEntries disk path names sections) := by
  rw [collectWorkspaceDepEntries, hdoc]
  refine List.foldlRecOn (motive := AllDeclared _ names (sectionTables doc sections))
    (sectionTables doc sections) _ ?_ ?_
  · intro e he
    simp at he
  · intro out ho item hi
    exact declares_visitTable hi ho

/-- A declaration that the derivation reads as well: under the package's own name, as a local
entry, in a table both scanners visit. -/
structure DeclaredPlainly (root : List (String × RootDepPin)) (doc : Toml) (package : String) :
    Prop where
  noTargetBuild : ∀ target ∈ targetTables doc, ∀ e ∈ entriesOf (target.get "build-dependencies"),
    effectivePackage root e.1 e.2 ≠ package
  ownName : ∀ item ∈ derivedTables doc, ∀ e ∈ entriesOf item,
    effectivePackage root e.1 e.2 = package → e.1 = package
  localEntry : ∀ item ∈ derivedTables doc, ∀ e ∈ entriesOf item,
    effectivePackage root e.1 e.2 = package →
      ((e.2.get "path").isSome || e.2.workspaceInherit) = true

/-- A plainly declared dependency that the index must hold is a derived `depends_on`. -/
theorem derived_of_required {disk : Disk} {path : String} {names memberNames : List String}
    {doc : Toml} (hdoc : disk.manifest path = some doc) {e : WorkspaceDepEntry}
    (he : e ∈ publishRequiredWorkspaceDeps disk path names)
    (hplain : DeclaredPlainly (workspaceDependencyEntries (disk.workspaceRoot path)) doc e.package)
    (hm : e.package ∈ memberNames) (hself : packageName doc ≠ some e.package) :
    e.package ∈ deriveDependsOnFromCargoToml (some doc) memberNames := by
  obtain ⟨-, item, hi, kv, hkv, heff⟩ := declares_of_mem hdoc e he
  have hd : item ∈ derivedTables doc := by
    simp only [sectionTables, List.map_cons, List.map_nil, List.mem_append, List.mem_cons,
      List.not_mem_nil, or_false, List.mem_flatMap] at hi
    rcases hi with hi | ⟨target, ht, rfl | rfl⟩
    · simp only [derivedTables, List.mem_append, List.mem_cons, List.not_mem_nil, or_false]
      exact .inl hi
    · exact List.mem_append_right _ (List.mem_map_of_mem ht)
    · exact absurd heff (hplain.noTargetBuild target ht kv hkv)
  apply mem_derive hd _ hself
  rw [extractWorkspaceDeps, mem_extractDeps]
  have hkey := hplain.ownName item hd kv hkv heff
  exact ⟨hm, kv.2, hkey ▸ hkv, hplain.localEntry item hd kv hkv heff⟩

end Anodizer
