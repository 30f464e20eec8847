import Mathlib.Data.List.Infix

/-!
# Modules — files of modules

`parse_mod` of `parse/items.rs` with `module_directory`, `resolve_mod_file` and `parent_dir_for`,
and `normalize_path` of `source.rs`.  A module has its items from a file or from braces in one.

* `ItemNode` — the items of a file, as far as they tell of modules.
* `LocalModSym`, `ModBodySource` — modules, with where their items come from.
* `moduleDirectory`, `resolveModFile`, `parseMod`.
-/

namespace Sage.Modules

abbrev SourcePath := List Char

/-! ### Paths -/

def stripSuffix (suffix text : List Char) : Option (List Char) :=
  if suffix.isSuffixOf text then some (text.take (text.length - suffix.length)) else none

/-- A parent component takes back the one before it, unless that is one itself. -/
def normalizePart (parts : List (List Char)) (part : List Char) : List (List Char) :=
  if part = [] ∨ part = ['.'] then parts
  else if part = ['.', '.'] ∧ parts.getLast?.any (· ≠ ['.', '.']) then parts.dropLast
  else parts ++ [part]

def normalizePath (path : List Char) : SourcePath :=
  ['/'].intercalate ((path.splitOn '/').foldl normalizePart [])

/-- The path up to its last slash: `rsplit_once('/')`, with the slash. -/
def directoryOf (path : SourcePath) : List Char := (path.reverse.dropWhile (· ≠ '/')).reverse

def parentDirFor (path : SourcePath) : List Char :=
  if path = "lib.rs".toList ∨ path = "main.rs".toList then []
  else
    match stripSuffix "/mod.rs".toList path with
    | some before => before ++ ['/']
    | none =>
        match stripSuffix ".rs".toList path with
        | some stem => stem ++ ['/']
        | none => []

/-! ### Items and modules -/

/-- An item whose configuration predicates are true.  A module has its `#[path]`, and it is active
if it has an attribute that could replace it. -/
inductive ItemNode where
  | mod_ (name : List Char) (start : Nat) (path : Option (List Char)) (active : Bool)
      (body : Option (List ItemNode))
  | macroInvocation (id : Nat) (active : Bool)
  | impl (id : Nat) (active : Bool)
  | error
  | other (id : Nat) (active : Bool)

inductive ModBodySource where
  | file (path : SourcePath)
  | inline (directory : Option (List Char))

/-- A module of the crate; only its root has no parent. -/
inductive LocalModSym where
  | root (file : SourcePath)
  | child (parent : LocalModSym) (name : List Char) (bodySource : ModBodySource) (start : Nat)

/-- What items are parsed from; macros and derives write items too. -/
inductive ParseSource where
  | sourceFile (path : SourcePath)
  | expansion

namespace LocalModSym

/-- The directories of the inline modules around an item, innermost first. -/
def inlineDirectories : LocalModSym → List (List Char)
  | root _ => []
  | child parent name (.inline directory) _ => directory.getD name :: parent.inlineDirectories
  | child _ _ (.file _) _ => []

/-- The files a module is nested in, innermost first. -/
def files : LocalModSym → List SourcePath
  | root file => [file]
  | child parent _ (.inline _) _ => parent.files
  | child parent _ (.file path) _ => path :: parent.files

end LocalModSym

/-- The source files, by their paths. -/
abbrev SourceFiles := List (SourcePath × List ItemNode)

def sourceFile (sources : SourceFiles) (path : SourcePath) : Option SourcePath :=
  if (sources.lookup path).isSome then some path else none

/-! ### Resolution -/

/-- The directory of a file's modules, below the inline modules around them. -/
def directoryIn (path : SourcePath) (inline : List (List Char)) (explicit : Bool) : List Char :=
  let directory := if explicit && inline.isEmpty then directoryOf path else parentDirFor path
  inline.reverse.foldl (fun directory name => directory ++ name ++ ['/']) directory

def moduleDirectory (source : ParseSource) (scope : LocalModSym) (explicit : Bool) :
    Option (List Char) :=
  match source with
  | .sourceFile path => some (directoryIn path scope.inlineDirectories explicit)
  | .expansion => none

/-- One of two files, unless both exist. -/
def resolveCandidates (sources : SourceFiles) (parentDir modName : List Char) :
    Option SourcePath :=
  let candidates :=
    [parentDir ++ modName ++ ".rs".toList, parentDir ++ modName ++ "/mod.rs".toList]
  match candidates.filterMap fun candidate => sourceFile sources (normalizePath candidate) with
  | [file] => some file
  | _ => none

def resolveModFile (sources : SourceFiles) (source : ParseSource) (scope : LocalModSym)
    (modName : List Char) : Option SourcePath := do
  let parentDir ← moduleDirectory source scope false
  resolveCandidates sources parentDir modName

/-- The file of a module without braces. -/
def modFile (sources : SourceFiles) (source : ParseSource) (scope : LocalModSym) (name : List Char)
    (explicitPath : Option (List Char)) : Option SourcePath :=
  match explicitPath with
  | some path => do
      let parent ← moduleDirectory source scope true
      sourceFile sources (normalizePath (parent ++ path))
  | none => resolveModFile sources source scope name

theorem sourceFile_eq_some {sources : SourceFiles} {path file : SourcePath}
    (h : sourceFile sources path = some file) :
    path = file ∧ ∃ nodes, sources.lookup file = some nodes := by
  unfold sourceFile at h
  split at h
  · next hlookup =>
      cases h
      exact ⟨rfl, Option.isSome_iff_exists.mp hlookup⟩
  · cases h

theorem resolveCandidates_lookup {sources : SourceFiles} {dir name : List Char} {file : SourcePath}
    (h : resolveCandidates sources dir name = some file) :
    ∃ nodes, sources.lookup file = some nodes := by
  simp only [resolveCandidates] at h
  split at h
  · next file' hfile =>
      cases h
      obtain ⟨candidate, -, hg⟩ := List.mem_filterMap.mp (hfile ▸ List.mem_singleton_self file)
      exact (sourceFile_eq_some hg).2
  · cases h

theorem modFile_lookup {sources : SourceFiles} {source : ParseSource} {scope : LocalModSym}
    {name : List Char} {path : Option (List Char)} {file : SourcePath}
    (h : modFile sources source scope name path = some file) :
    ∃ nodes, sources.lookup file = some nodes := by
  cases path with
  | some path =>
      obtain ⟨parent, -, hfile⟩ := Option.bind_eq_some_iff.mp h
      exact (sourceFile_eq_some hfile).2
  | none =>
      obtain ⟨dir, -, hfile⟩ := Option.bind_eq_some_iff.mp h
      exact resolveCandidates_lookup hfile

/-- A module, with what its items are parsed from. -/
structure Module where
  sym : LocalModSym
  source : ParseSource
  nodes : List ItemNode

/-- The module of a declaration; without a file for it, the declaration is an error. -/
def parseMod (sources : SourceFiles) (source : ParseSource) (scope : LocalModSym) (name : List Char)
    (start : Nat) (explicitPath : Option (List Char)) (body : Option (List ItemNode)) :
    Option Module :=
  match body with
  | some nodes => some ⟨.child scope name (.inline explicitPath) start, source, nodes⟩
  | none => do
      let file ← modFile sources source scope name explicitPath
      let nodes ← sources.lookup file
      return ⟨.child scope name (.file file) start, .sourceFile file, nodes⟩

end Sage.Modules
