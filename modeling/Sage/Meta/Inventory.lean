import Mathlib.Data.String.Basic
import Sage.Library.SortedMap
import Sage.Library.Text
import Sage.Meta.Correspondence

/-!
# Meta — the inventory of Rust sources

How the correspondence index is filled: the items of a file are visited, and the bodies of its
functions, each in the module it is loaded under.

* `RustFile` — the syntax of a file, with its spans placed in its text.
* `RustSyntax.visit` — what one load of a file finds.
* `RustSyntax.functions` — every function with a body that is written in a file.
-/

namespace Sage.Meta

/-- A `sage::item` attribute; the segments of its path, if that is a plain one. -/
structure Annotation where
  span : Span
  path : Option (List String)

structure RustDeclaration where
  name : String
  span : Span
  annotations : List Annotation
  conditions : List String

/-- Rust syntax, by what the visitors look for in it. -/
inductive RustSyntax where
  | module (declaration : RustDeclaration) (contents : List RustSyntax)
  | function (declaration : RustDeclaration) (signature : List RustSyntax) (hasBody : Bool)
      (body : List RustSyntax)
  /-- A structure, an enumeration, a union or a type alias. -/
  | type_ (declaration : RustDeclaration) (parts : List RustSyntax)
  | trait_ (declaration : RustDeclaration) (parts members : List RustSyntax)
  | impl_ (selfType : String) (conditions : List String) (parts members : List RustSyntax)
  /-- An invocation of `define_kind_symbols`. -/
  | definitions (conditions : List String) (declarations : List RustDeclaration)
  /-- An item that is any other invocation of a macro. -/
  | macroItem (span : Span)
  /-- A constant, a static, an import or any other item or member. -/
  | item (parts : List RustSyntax)
  /-- An invocation of a macro within a body. -/
  | invocation (span : Span)
  /-- A block, a statement, an expression, a type or a pattern. -/
  | other (parts : List RustSyntax)

structure Context where
  module : String
  crateName : String
  target : String
  file : String
  cfg : List String
  macroInput : Bool

def Context.enter (context : Context) (name : String) (conditions : List String) : Context :=
  { context with
    module := context.module ++ "::" ++ name
    cfg := context.cfg ++ conditions }

/-! ### Text -/

/-- The line that a position of a text is on. -/
def lineAt (text : List Char) (position : Nat) : Nat :=
  (Text.takeBytes position text).count '\n' + 1

def columnAt (text : List Char) (position : Nat) : Nat :=
  ((Text.takeBytes position text).reverse.takeWhile (· ≠ '\n')).length

/-! ### The spans of syntax -/

mutual

/-- The syntax is written between two positions, and its parts are in order. -/
def RustSyntax.Placed (low high : Nat) : RustSyntax → Prop
  | .module d contents =>
      low ≤ d.span.start ∧ d.span.start < d.span.stop ∧ d.span.stop ≤ high ∧
        PlacedAll d.span.start d.span.stop contents
  | .function d signature _ body =>
      low ≤ d.span.start ∧ d.span.start < d.span.stop ∧ d.span.stop ≤ high ∧
        ∃ middle, PlacedAll d.span.start middle signature ∧ PlacedAll middle d.span.stop body
  | .type_ d parts =>
      low ≤ d.span.start ∧ d.span.start < d.span.stop ∧ d.span.stop ≤ high ∧
        PlacedAll d.span.start d.span.stop parts
  | .trait_ d parts members =>
      low ≤ d.span.start ∧ d.span.start < d.span.stop ∧ d.span.stop ≤ high ∧
        ∃ middle, PlacedAll d.span.start middle parts ∧ PlacedAll middle d.span.stop members
  | .impl_ _ _ parts members =>
      ∃ middle, PlacedAll low middle parts ∧ PlacedAll middle high members
  | .definitions _ _ => low ≤ high
  | .macroItem _ => low ≤ high
  | .item parts => PlacedAll low high parts
  | .invocation _ => low ≤ high
  | .other parts => PlacedAll low high parts

def PlacedAll (low high : Nat) : List RustSyntax → Prop
  | [] => low ≤ high
  | part :: parts => ∃ middle, part.Placed low middle ∧ PlacedAll middle high parts

end

structure RustFile where
  text : List Char
  items : List RustSyntax
  placed : PlacedAll 0 (Text.byteLength text) items

/-! ### What a visit finds -/

inductive Finding where
  | callable (region : SourceRange)
  | annotated (sageItem : String) (site : RustSite)
  | opaqueMacro (region : SourceRange)

/-- The region of a span in the file of a context. -/
def Context.region (context : Context) (text : List Char) (span : Span) : SourceRange where
  file := context.file
  line := lineAt text span.start
  endLine := lineAt text span.stop
  span := span

/-- The item an annotation names. -/
def Annotation.item (mark : Annotation) (context : Context) : Option String :=
  match mark.path with
  | none | some [] => none
  | some (first :: rest) =>
      if first = "crate" then some ("::".intercalate (context.crateName :: rest))
      else if first = "self" ∨ first = "super" ∨ rest = [] ∧ first ≠ context.crateName then none
      else some ("::".intercalate (first :: rest))

def Context.site (context : Context) (text : List Char) (kind : RustItemKind)
    (executable : Bool) (d : RustDeclaration) : RustSite where
  file := context.file
  line := lineAt text d.span.start
  endLine := lineAt text d.span.stop
  column := columnAt text d.span.start
  endColumn := columnAt text d.span.stop
  rustPath := context.module ++ "::" ++ d.name
  crateName := context.crateName
  target := context.target
  kind := kind
  cfg := context.cfg ++ d.conditions
  macroInput := context.macroInput
  executable := executable
  span := d.span
  annotationSpan := ⟨0, 0⟩

/-- A declaration, with the sites of its annotations. -/
def record (text : List Char) (kind : RustItemKind) (executable : Bool) (context : Context)
    (d : RustDeclaration) : List Finding :=
  (if executable then [.callable (context.region text d.span)] else []) ++
    d.annotations.filterMap fun mark =>
      (mark.item context).map fun sageItem =>
        .annotated sageItem
          { context.site text kind executable d with annotationSpan := mark.span }

/-- Where syntax stands: among items, among the members of a trait or an implementation, or in
a body. -/
inductive Position where
  | item
  | member (kind : RustItemKind)
  | body

mutual

def RustSyntax.visit (text : List Char) (position : Position) (context : Context) :
    RustSyntax → List Finding
  | .module d contents =>
      match position with
      | .member _ => []
      | _ =>
          record text .module false context d ++
            visitAll text .item (context.enter d.name d.conditions) contents
  | .function d _ hasBody body =>
      match position with
      | .member kind =>
          record text kind hasBody context d ++
            if hasBody then visitAll text .body context body else []
      | _ =>
          record text .function hasBody context d ++
            if hasBody then visitAll text .body (context.enter d.name d.conditions) body else []
  | .type_ d _ =>
      match position with
      | .member _ => []
      | _ => record text .type false context d
  | .trait_ d _ members =>
      match position with
      | .member _ => []
      | _ =>
          record text .trait false context d ++
            visitAll text (.member .traitMethod) (context.enter d.name d.conditions) members
  | .impl_ selfType conditions _ members =>
      match position with
      | .member _ => []
      | _ => visitAll text (.member .method) (context.enter selfType conditions) members
  | .definitions conditions declarations =>
      match position with
      | .member _ => []
      | _ =>
          let context := { context with macroInput := true, cfg := context.cfg ++ conditions }
          declarations.flatMap (record text .type false context)
  | .macroItem span =>
      match position with
      | .member _ => []
      | _ => [.opaqueMacro (context.region text span)]
  | .item _ => []
  | .invocation span =>
      match position with
      | .body => [.opaqueMacro (context.region text span)]
      | _ => []
  | .other parts =>
      match position with
      | .body => visitAll text .body context parts
      | _ => []

def visitAll (text : List Char) (position : Position) (context : Context) :
    List RustSyntax → List Finding
  | [] => []
  | part :: parts => part.visit text position context ++ visitAll text position context parts

end

/-! ### The index -/

structure Load where
  context : Context
  source : RustFile

def Load.findings (load : Load) : List Finding :=
  visitAll load.source.text .item load.context load.source.items

/-- Sources as they are loaded; a file has one text, however many modules it is loaded under. -/
structure Sources where
  workspace : Option (List String)
  loads : List Load
  coherent : ∀ load ∈ loads, ∀ other ∈ loads, load.context.file = other.context.file →
    load.source = other.source

def CorrespondenceIndex.add (index : CorrespondenceIndex) :
    Finding → CorrespondenceIndex
  | .callable region => { index with callables := index.callables ++ [region] }
  | .annotated sageItem site =>
      { index with entries := SortedMap.push sageItem site index.entries }
  | .opaqueMacro region => { index with opaqueMacros := index.opaqueMacros ++ [region] }

def CorrespondenceIndex.load (index : CorrespondenceIndex) (load : Load) :
    CorrespondenceIndex :=
  let text := String.ofList load.source.text
  load.findings.foldl CorrespondenceIndex.add
    { index with files := SortedMap.upsert load.context.file (fun _ => text) index.files }

def Sources.index (sources : Sources) : CorrespondenceIndex :=
  sources.loads.foldl CorrespondenceIndex.load
    { entries := [], files := [], workspace := sources.workspace, callables := []
      opaqueMacros := [] }

/-! ### The functions of a file -/

mutual

/-- Every function or method with a body, wherever it is written. -/
def RustSyntax.functions : RustSyntax → List RustDeclaration
  | .module _ contents => functionsAll contents
  | .function d signature hasBody body =>
      (if hasBody then [d] else []) ++ functionsAll signature ++ functionsAll body
  | .type_ _ parts => functionsAll parts
  | .trait_ _ parts members => functionsAll parts ++ functionsAll members
  | .impl_ _ _ parts members => functionsAll parts ++ functionsAll members
  | .definitions _ _ => []
  | .macroItem _ => []
  | .item parts => functionsAll parts
  | .invocation _ => []
  | .other parts => functionsAll parts

def functionsAll : List RustSyntax → List RustDeclaration
  | [] => []
  | part :: parts => part.functions ++ functionsAll parts

end

def Load.functions (load : Load) : List RustDeclaration := functionsAll load.source.items

end Sage.Meta
