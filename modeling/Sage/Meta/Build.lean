import Sage.Meta.Model

/-!
# Meta — building the model

A crate document names the modules of its crate; a module document belongs to the crate whose
directory contains it.  What does not fit is an error of the model.

* `Manifest` — what the crate documents say, after the first pass.
* `buildModel` — the model of the documents, after the second.
-/

namespace Sage.Meta

open Std (TreeMap TreeSet)

/-- The start of a document. -/
def Span.zero : Span := ⟨0, 0⟩

structure Manifest where
  roots : TreeMap String (List String)
  expectedModules : TreeSet String
  model : Model

namespace Manifest

def error (s : Manifest) (document : Document) (message : String) : Manifest :=
  { s with model := s.model.error document .zero message }

def addModule (document : Document) (name : String) (s : Manifest) (module : String) : Manifest :=
  let s' := { s with expectedModules := s.expectedModules.insert (qualified name module) }
  if s.expectedModules.contains (qualified name module) then
    s'.error document ("duplicate module " ++ module)
  else s'

def addDocument (s : Manifest) (document : Document) : Manifest :=
  match document.header with
  | .module _ => s
  | .crate name dependencies modules =>
      let s :=
        if fileName document.file = some "crate.sage" then s
        else s.error document "crate declarations belong in crate.sage"
      let duplicate := s.roots.contains name
      let s := { s with roots := s.roots.insert name (parent document.file) }
      let s := if duplicate then s.error document ("duplicate crate " ++ name) else s
      let deps := TreeSet.ofList dependencies
      let s :=
        if deps.size ≠ dependencies.length ∨ deps.contains name then
          s.error document "duplicate or self crate dependency"
        else s
      let s := { s with model := { s.model with
        dependencies := s.model.dependencies.insert name deps } }
      modules.foldl (addModule document name) s

def build (documents : List Document) : Manifest :=
  documents.foldl addDocument ⟨∅, ∅, .empty⟩

/-- The crate with the innermost directory around a file. -/
def owner (s : Manifest) (file : String) : Option (String × List String) :=
  (s.roots.toList.filter fun root => root.2 <+: components file).foldl
    (fun best root =>
      match best with
      | some other => if other.2.length ≤ root.2.length then some root else best
      | none => some root) none

end Manifest

/-- The second pass, with the modules that it has seen. -/
structure Building where
  manifest : Manifest
  seenModules : TreeSet String
  model : Model

namespace Building

def error (s : Building) (document : Document) (span : Span) (message : String) : Building :=
  { s with model := s.model.error document span message }

/-- The namespace of a document, if it has one. -/
def scope (s : Building) (document : Document) : Option String × Building :=
  match document.header with
  | .crate name dependencies _ =>
      let missing := dependencies.filter fun dep => !s.manifest.roots.contains dep
      (some name, missing.foldl
        (fun s dep => s.error document .zero ("missing dependency crate $" ++ dep)) s)
  | .module path =>
      match s.manifest.owner document.file, path.segments with
      | none, _ => (none, s.error document path.span "module has no containing crate.sage")
      | some (name, root), [module] =>
          if path.root ≠ "crate" then
            (none, s.error document path.span
              "module must name one manifest module: crate::name")
          else
            let s :=
              if components document.file = root ++ [module ++ ".sage"] then s
              else s.error document path.span "module path does not match its file"
            let scope := qualified name module
            let s :=
              if s.manifest.expectedModules.contains scope then s
              else s.error document path.span "module is not declared in crate.sage"
            let s' := { s with seenModules := s.seenModules.insert scope }
            (some scope,
              if s.seenModules.contains scope then s'.error document path.span "duplicate module"
              else s')
      | some _, _ =>
          (none, s.error document path.span "module must name one manifest module: crate::name")

def addDeclaration (document : Document) (scope : String) (s : Building)
    (declaration : Declaration) : Building :=
  let (name, span, arity) : String × Span × Nat :=
    match declaration with
    | .type decl => (decl.name, decl.span, decl.parameters.length)
    | .class decl => (decl.name, decl.span, 0)
  let key := qualified scope name
  let duplicate := s.model.types.contains key
  let s := { s with model := { s.model with types := s.model.types.insert key arity } }
  let s :=
    if duplicate then s.error document span ("duplicate declaration " ++ key)
    else s
  match declaration with
  | .type decl => { s with model := { s.model with
      values := s.model.values ++ [(document, scope, decl)] } }
  | .class decl => { s with model := { s.model with
      classes := s.model.classes.insert key ⟨document, scope, decl⟩ } }

def addDocument (s : Building) (document : Document) : Building :=
  match s.scope document with
  | (none, s) => s
  | (some scope, s) => document.declarations.foldl (addDeclaration document scope) s

/-- The modules of the manifests that no document is for. -/
def missingModules (s : Building) : List Diagnostic :=
  (s.manifest.expectedModules.toList.filter fun scope => !s.seenModules.contains scope).map
    fun scope =>
      ⟨joined ((s.manifest.roots[firstSegment scope]?.getD []) ++ ["crate.sage"]), .zero,
        "missing module " ++ scope⟩

end Building

def buildModel (documents : List Document) : Model :=
  let manifest := Manifest.build documents
  let s := documents.foldl Building.addDocument ⟨manifest, ∅, manifest.model⟩
  { s.model with errors := s.model.errors ++ s.missingModules }

end Sage.Meta
