import Mathlib.Data.List.MinMax
import Sage.Library.PartialMap
import Sage.Meta.Source

/-!
# Meta — implementation references

Line comments of a Rust source name specification anchors: points, and regions that a later
comment closes.

* `marker` — the anchor that a comment names.
* `indexSource` — the sites of a source and what is wrong with its comments.
-/

namespace Sage.Meta

open Text

inductive EvidenceStatus where
  | ordinary
  | todo
  | notApplicable
deriving DecidableEq

/-- A raw identifier is the one without its marks. -/
def trimRaw : List Char → List Char
  | 'r' :: '#' :: name => trimRaw name
  | name => name

/-- Special modules nest, and one of each kind is not possible. -/
def placeholderStatus (module : String) : Except String EvidenceStatus :=
  let components := (module.splitOn "::").tail.map fun component => trimRaw component.toList
  let todo := components.contains "todo".toList
  let notApplicable := components.contains "not_applicable".toList
  if todo && notApplicable then
    .error ("module " ++ module ++ " is nested under both todo and not_applicable")
  else if todo then .ok .todo
  else if notApplicable then .ok .notApplicable
  else .ok .ordinary

structure ImplementationSite where
  file : String
  crateName : String
  target : String
  module : String
  cfg : List String
  status : EvidenceStatus
  explanation : Option (List Char)
  line : Nat
  endLine : Nat
  span : Span
  annotationSpan : Span
  excerpt : List Char
  region : Bool
deriving DecidableEq

structure SourceContext where
  file : String
  crateName : String
  target : String
  module : String
  cfg : List String

/-! ### Scopes -/

/-- The items and modules of a file, as they are nested. -/
inductive ScopeSyntax where
  | item (span : Span) (conditions : List String) (contents : List ScopeSyntax)
  | module (ident : String) (span : Span) (conditions : List String) (contents : List ScopeSyntax)

structure FileSyntax where
  conditions : List String
  items : List ScopeSyntax

structure EvidenceScope where
  span : Span
  module : String
  cfg : List String

mutual

def visitItem (module : String) (cfg : List String) : ScopeSyntax → List EvidenceScope
  | .item span conditions contents =>
      let cfg := cfg ++ conditions
      ⟨span, module, cfg⟩ :: visitItems module cfg contents
  | .module ident span conditions contents =>
      let module := module ++ "::" ++ String.ofList (trimRaw ident.toList)
      let cfg := cfg ++ conditions
      ⟨span, module, cfg⟩ :: visitItems module cfg contents

def visitItems (module : String) (cfg : List String) : List ScopeSyntax → List EvidenceScope
  | [] => []
  | item :: items => visitItem module cfg item ++ visitItems module cfg items

end

/-- The scope of a file, and those of what is in it. -/
def fileScopes (source : List Char) (syntax_ : FileSyntax) (context : SourceContext) :
    EvidenceScope × List EvidenceScope :=
  let cfg := context.cfg ++ syntax_.conditions
  (⟨⟨0, byteLength source⟩, context.module, cfg⟩, visitItems context.module cfg syntax_.items)

/-- The shortest scope around a comment; the file is around all of them. -/
def scopeOf (scopes : EvidenceScope × List EvidenceScope) (comment : Comment) : EvidenceScope :=
  let around := (scopes.1 :: scopes.2).reverse.filter fun scope =>
    scope.span.start ≤ comment.span.start ∧ comment.span.stop ≤ scope.span.stop
  (around.argmin fun scope => scope.span.stop - scope.span.start).getD scopes.1

/-! ### Markers -/

def isIdentStart (c : Char) : Bool := c.isAlpha || c = '_'

def isIdentContinue (c : Char) : Bool := c.isAlphanum || c = '_'

def validAnchorName (name : List Char) : Bool :=
  (name.splitOn '.').all fun component =>
    match component with
    | first :: rest => isIdentStart first && rest.all isIdentContinue
    | [] => false

def backquote : Char := Char.ofNat 0x60

def anchorMark : List Char := "{anchor}".toList

def closerMark : List Char := ">>".toList

/-- The name of an anchor, and whether it opens a region. -/
def marker (text : List Char) : Option (List Char × Bool) :=
  match text.dropPrefix? (anchorMark ++ [backquote]) with
  | none => none
  | some rest =>
      if backquote ∉ rest then none
      else
        let name := rest.takeWhile (· ≠ backquote)
        let tail := (rest.dropWhile (· ≠ backquote)).tail
        if validAnchorName name = false then none
        else if tail = [] then some (name, false)
        else if tail = "<<".toList then some (name, true)
        else none

/-- What a comment is for the index. -/
inductive CommentKind where
  | closer
  | malformed
  | anchor (name : List Char) (region : Bool)
  | other
deriving DecidableEq

def Comment.kind (comment : Comment) (source : List Char) : CommentKind :=
  let text := trim (comment.text source)
  if text = closerMark ∧ comment.standalone source = true then .closer
  else if anchorMark.isPrefixOf text = false then .other
  else
    match marker text with
    | none => .malformed
    | some (name, region) => .anchor name region

/-! ### Explanations -/

/-- Marker text and delimiters are no explanation. -/
def isExplanation (text : List Char) : Bool :=
  text ≠ [] ∧ text ≠ closerMark ∧ anchorMark.isPrefixOf text = false

def Span.covers (span : Span) (comment : Comment) : Bool :=
  span.start ≤ comment.span.start ∧ comment.span.stop ≤ span.stop

def explanation (source : List Char) (comments : List Comment) (span : Span) :
    Option (List Char) :=
  let texts := (comments.filter span.covers).map fun comment => trim (comment.text source)
  let text := "\n".toList.intercalate (texts.filter isExplanation)
  if text = [] then none else some text

/-! ### The index -/

structure IndexState where
  pending : List (List Char × ImplementationSite)
  /-- The pending regions that are open, with the innermost first. -/
  opened : List Nat
  diagnostics : List Diagnostic

section

variable (source : List Char) (context : SourceContext)
  (scopes : EvidenceScope × List EvidenceScope)

def closeRegion (comment : Comment) (site : ImplementationSite) : ImplementationSite :=
  let lines := Lines.new source
  let endLine := lines.number comment.span.start
  { site with endLine, span := ⟨site.span.start, lines.stop endLine⟩ }

/-- The site of an anchor, which for a region is that of its opening line. -/
def openSite (comment : Comment) (region : Bool) : ImplementationSite :=
  let lines := Lines.new source
  let scope := scopeOf scopes comment
  let line := lines.number comment.span.start
  let endLine := if region then line else min (line + 5) lines.count
  { file := context.file
    crateName := context.crateName
    target := context.target
    module := scope.module
    cfg := scope.cfg
    status :=
      match placeholderStatus scope.module with
      | .ok status => status
      | .error _ => .ordinary
    explanation := none
    line
    endLine
    span := ⟨lines.start line, lines.stop endLine⟩
    annotationSpan := comment.span
    excerpt := []
    region }

def unopenedMessage : String := "implementation region closer has no opening marker"

def unclosedMessage : String := "implementation region opener has no closing // >> delimiter"

def malformedMessage : String :=
  "malformed implementation reference; expected // \x7banchor\x7d" ++
    String.ofList (backquote :: "full.name".toList ++ [backquote]) ++
      " optionally followed immediately by <<"

def placeholderDiagnostics (comment : Comment) : List Diagnostic :=
  match placeholderStatus (scopeOf scopes comment).module with
  | .ok _ => []
  | .error message => [⟨context.file, comment.span, message⟩]

@[grind =] def readComment (state : IndexState) (comment : Comment) : IndexState :=
  match comment.kind source with
  | .closer =>
      match state.opened with
      | index :: opened =>
          { state with
            opened
            pending := state.pending.modify index fun (name, site) =>
              (name, closeRegion source comment site) }
      | [] =>
          { state with diagnostics :=
              state.diagnostics ++ [⟨context.file, comment.span, unopenedMessage⟩] }
  | .other => state
  | .malformed =>
      { state with diagnostics :=
          state.diagnostics ++ [⟨context.file, comment.span, malformedMessage⟩] }
  | .anchor name region =>
      { pending := state.pending ++ [(name, openSite source context scopes comment region)]
        -- the site is the next one of those pending
        opened := if region then state.pending.length :: state.opened else state.opened
        diagnostics := state.diagnostics ++ placeholderDiagnostics context scopes comment }

/-- The preview of a point may show other entries; what explains it ends before them. -/
def explanationSpan (comments : List Comment) (site : ImplementationSite) : Span :=
  if site.region then site.span
  else
    match comments.find? fun comment =>
      comment.span.start > site.annotationSpan.start ∧
        (anchorMark.isPrefixOf (trim (comment.text source)) = true ∨
          trim (comment.text source) = closerMark) with
    | some next => ⟨site.span.start, min site.span.stop next.span.start⟩
    | none => site.span

def explainSite (comments : List Comment) (site : ImplementationSite) : ImplementationSite :=
  { site with
    explanation := explanation source comments (explanationSpan source comments site)
    excerpt := slice source site.span }

end

/-- The entries of the sites by the names of their anchors. -/
abbrev Implementations := PartialMap (List Char) (List ImplementationSite)

def pushSite (entries : Implementations) (name : List Char) (site : ImplementationSite) :
    Implementations :=
  PartialMap.insert entries name ((entries name).getD [] ++ [site])

/-- `literals` and `syntax_` are what the parser says of the source. -/
def indexSource (source : List Char) (literals : List Span) (syntax_ : FileSyntax)
    (context : SourceContext) (entries : Implementations) (diagnostics : List Diagnostic) :
    Implementations × List Diagnostic :=
  let comments := lineComments source literals
  let scopes := fileScopes source syntax_ context
  let state := comments.foldl (readComment source context scopes) ⟨[], [], diagnostics⟩
  let unclosed := state.opened.reverse.filterMap fun index =>
    state.pending[index]?.map fun (_, site) =>
      ⟨context.file, site.annotationSpan, unclosedMessage⟩
  (state.pending.foldl (fun entries (name, site) =>
      pushSite entries name (explainSite source comments site)) entries,
    state.diagnostics ++ unclosed)

end Sage.Meta
