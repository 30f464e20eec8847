import Mathlib.Data.List.Sort
import Mathlib.Data.List.Destutter
import Mathlib.Data.Prod.Lex
import Mathlib.Data.String.Basic
import Sage.Meta.Document

/-!
# Meta — the correspondence index

Which Rust declarations carry which architectural items, and what an observed source location
belongs to.

* `CorrespondenceIndex` — the inventory: annotated sites, functions with a body, opaque macros.
* `CorrespondenceIndex.lookup` — the item of the innermost function at a line.
-/

namespace Sage.Meta

inductive RustItemKind where
  | type
  | trait
  | module
  | function
  | method
  | traitMethod
deriving DecidableEq

structure RustSite where
  file : String
  line : Nat
  endLine : Nat
  column : Nat
  endColumn : Nat
  rustPath : String
  crateName : String
  target : String
  kind : RustItemKind
  cfg : List String
  macroInput : Bool
  /-- The declaration has a function body. -/
  executable : Bool
  span : Span
  annotationSpan : Span
deriving DecidableEq

structure CorrespondenceMatch where
  sageItem : String
  site : RustSite
deriving DecidableEq

inductive LookupError where
  | missing (file : String) (line : Nat)
  | ambiguous (file : String) (line : Nat) (candidates : List String)
  | sourceMismatch (file : String)
deriving DecidableEq

def LookupError.message : LookupError → String
  | missing file line => "unmapped Rust query at " ++ file ++ ":" ++ line.repr
  | ambiguous file line candidates =>
      "ambiguous Rust query at " ++ file ++ ":" ++ line.repr ++ ": " ++ ", ".intercalate candidates
  | sourceMismatch file => "Rust source does not match the compiled snapshot: " ++ file

structure SourceRange where
  file : String
  line : Nat
  endLine : Nat
  span : Span
deriving DecidableEq

def SourceRange.contains (region : SourceRange) (file : String) (line : Nat) : Bool :=
  region.file = file ∧ region.line ≤ line ∧ line ≤ region.endLine

/-- The lines of `inner` are some of those of `outer`, and not all of them. -/
def SourceRange.within (inner outer : SourceRange) : Bool :=
  inner.line ≥ outer.line ∧ inner.endLine ≤ outer.endLine ∧
    (inner.line > outer.line ∨ inner.endLine < outer.endLine)

/-- `entries` has one member for each item, in the order of their names. -/
structure CorrespondenceIndex where
  entries : List (String × List RustSite)
  files : List (String × String)
  /-- The components of the workspace root. -/
  workspace : Option (List String)
  callables : List SourceRange
  opaqueMacros : List SourceRange

/-! ### Paths -/

def dropCurrent : List Char → List Char
  | '.' :: '/' :: path => dropCurrent path
  | path => path

/-- Separators are slashes, and a path does not start at the current directory. -/
def normalize (file : String) : String :=
  String.ofList (dropCurrent (file.toList.map fun c => if c = '\\' then '/' else c))

/-- A path after its separators and references to the current directory. -/
def skipSeparators : List Char → List Char
  | '/' :: path => skipSeparators path
  | '.' :: '/' :: path => skipSeparators path
  | ['.'] => []
  | path => path

def stripComponents : List String → List Char → Option (List Char)
  | [], path => some (skipSeparators (skipSeparators path).reverse).reverse
  | component :: components, path =>
      let path := skipSeparators path
      if String.ofList (path.takeWhile (· ≠ '/')) = component then
        stripComponents components (path.dropWhile (· ≠ '/'))
      else none

/-- What a path is under an absolute directory. -/
def stripDirectory (components : List String) (file : String) : Option String :=
  match file.toList with
  | '/' :: path => (stripComponents components path).map String.ofList
  | _ => none

namespace CorrespondenceIndex

def sourceKey (index : CorrespondenceIndex) (file : String) : String :=
  match index.workspace.bind (stripDirectory · file) with
  | some relative => normalize relative
  | none => normalize file

def verifySource (index : CorrespondenceIndex) (file compiledSource : String) :
    Except LookupError Unit :=
  let file := index.sourceKey file
  if index.files.lookup file = some compiledSource then .ok ()
  else .error (.sourceMismatch file)

/-! ### Lookup -/

/-- The functions at a line that have no other one at this line within their lines. -/
def regions (index : CorrespondenceIndex) (file : String) (line : Nat) : List SourceRange :=
  let regions := index.callables.filter fun region => region.contains file line
  let regions := regions.filter fun outer =>
    !index.callables.any fun inner => inner.contains file line && inner.within outer
  let regions := regions.insertionSort fun a b => a.span.start ≤ b.span.start
  regions.destutter fun a b => (a.span.start, a.span.stop) ≠ (b.span.start, b.span.stop)

def siteKey (entry : String × RustSite) : String ×ₗ String ×ₗ Nat :=
  toLex (entry.1, toLex (entry.2.rustPath, entry.2.span.start))

/-- The items of a function. -/
def sites (index : CorrespondenceIndex) (file : String) (span : Span) :
    List (String × RustSite) :=
  let sites := index.entries.flatMap fun (name, sites) => sites.map (name, ·)
  let sites := sites.filter fun (_, site) =>
    site.executable ∧ site.file = file ∧ site.span = span
  let sites := sites.insertionSort fun a b => siteKey a ≤ siteKey b
  sites.destutter fun a b => ¬(b.1 = a.1 ∧ b.2.file = a.2.file ∧ b.2.span = a.2.span ∧
    b.2.rustPath = a.2.rustPath)

def lookup (index : CorrespondenceIndex) (file : String) (line : Nat) :
    Except LookupError CorrespondenceMatch :=
  let file := index.sourceKey file
  if index.opaqueMacros.any fun region => region.contains file line then
    .error (.missing file line)
  else
    match index.regions file line with
    | [] => .error (.missing file line)
    | [region] =>
        match index.sites file region.span with
        | [] => .error (.missing file line)
        | [(sageItem, site)] => .ok ⟨sageItem, site⟩
        | sites => .error (.ambiguous file line (sites.map fun (name, site) =>
            name ++ " (" ++ site.rustPath ++ ")"))
    | regions => .error (.ambiguous file line (regions.map fun region =>
        "Rust declaration at " ++ region.file ++ ":" ++ region.line.repr))

end CorrespondenceIndex

end Sage.Meta
