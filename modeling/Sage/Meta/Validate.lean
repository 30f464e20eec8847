import Sage.Library.Search
import Sage.Meta.Build

/-!
# Meta — validation

What is wrong with a model: with its value types, with each of its classes, and with the calls that
a method forbids.

* `Model.valueErrors` — the fields and the variants of the value types.
* `Model.classErrors` — the base, the members and the completeness of a class.
* `Model.pathErrors` — the calls that reach what is forbidden.
-/

namespace Sage.Meta

open Std (TreeMap TreeSet)

/-- Each element with those before it. -/
def withEarlier {α : Type} : List α → List (List α × α)
  | [] => []
  | x :: rest => ([], x) :: (withEarlier rest).map fun later => (x :: later.1, later.2)

def reportIf (condition : Bool) (file : String) (span : Span) (message : String) :
    List Diagnostic :=
  if condition then [⟨file, span, message⟩] else []

def reportError {α : Type} (file : String) (span : Span) : Except String α → List Diagnostic
  | .ok _ => []
  | .error message => [⟨file, span, message⟩]

def TypeExpr.span : TypeExpr → Span
  | .named _ _ span => span
  | .tuple _ span => span

namespace Model

variable (m : Model)

/-! ### Value types -/

def typeErrors (file scope : String) (parameters : List String) (ty : TypeExpr) :
    List Diagnostic :=
  reportError file ty.span (m.resolveType scope parameters ty)

def valueFieldErrors (file scope : String) (parameters : List String) (fields : List ValueField) :
    List Diagnostic :=
  (withEarlier fields).flatMap fun (earlier, field) =>
    reportIf (earlier.any fun other => other.name = field.name) file field.span
      ("duplicate field " ++ field.name) ++
    m.typeErrors file scope parameters field.ty

def shapeErrors (file scope : String) (parameters : List String) : TypeShape → List Diagnostic
  | .opaqueValue => []
  | .struct fields => m.valueFieldErrors file scope parameters fields
  | .enum variants =>
      (withEarlier variants).flatMap fun (earlier, variant) =>
        reportIf (earlier.any fun other => other.name = variant.name) file variant.span
          ("duplicate variant " ++ variant.name) ++
        match variant.fields with
        | .unit => []
        | .named fields => m.valueFieldErrors file scope parameters fields
        | .tuple types => types.flatMap (m.typeErrors file scope parameters)

def valueErrors : List Diagnostic :=
  m.values.flatMap fun (document, scope, decl) =>
    ((withEarlier decl.parameters).flatMap fun (earlier, parameter) =>
      reportIf (parameter ∈ earlier) document.file decl.span
        ("duplicate type parameter " ++ parameter) ++
      reportIf (parameter ∈ ["crate", "self"]) document.file decl.span
        ("reserved type parameter " ++ parameter)) ++
    m.shapeErrors document.file scope decl.parameters decl.shape

/-! ### Classes -/

def baseErrors (key : String) (entry : Entry) : List Diagnostic :=
  match entry.decl.base with
  | none => []
  | some base =>
      match m.resolve entry base with
      | .error message => [⟨entry.document.file, base.span, message⟩]
      | .ok target =>
          match m.classes[target]? with
          | none => [⟨entry.document.file, base.span, "unknown base class " ++ target⟩]
          | some targetEntry =>
              reportIf (key ∈ m.ancestors target) entry.document.file base.span
                "inheritance cycle" ++
              reportIf ((entry.decl.kind = .context) ≠ (targetEntry.decl.kind = .context))
                entry.document.file base.span
                "contexts and symbol classes cannot inherit from each other"

def fieldErrors (key : String) (entry : Entry) : List Diagnostic :=
  (withEarlier entry.decl.fields).flatMap fun (earlier, field) =>
    reportIf (earlier.any fun other => other.name = field.name) entry.document.file field.span
      ("duplicate member " ++ field.name) ++
    reportIf (field.kind = .state ∧ entry.decl.kind ≠ .context) entry.document.file field.span
      "state fields require a context" ++
    reportIf (((m.ancestors key).drop 1).any fun base => m.classes[base]?.any fun entry =>
        entry.decl.fields.any fun other => other.name = field.name)
      entry.document.file field.span "inherited fields cannot be redeclared" ++
    m.typeErrors entry.document.file entry.scope [] field.ty

/-- The declaration with a qualified name. -/
def declaration (selected : String) : Option (Entry × Method) := do
  let (owner, name) ← rsplitOnce selected
  let entry ← m.classes[owner]?
  let method ← entry.decl.methods.find? fun method => method.name = name
  some (entry, method)

/-- The method that one of this name in the class overrides. -/
def inherited (key name : String) : Option String := do
  let base ← m.base key
  m.method base name

def overrideErrors (key : String) (entry : Entry) (method : Method) : List Diagnostic :=
  reportIf (method.isOverride ≠ (m.inherited key method.name).isSome) entry.document.file
    method.span "override must exactly match an inherited method" ++
  match (m.inherited key method.name).bind m.declaration with
  | none => []
  | some (baseEntry, baseMethod) =>
      reportIf (baseMethod.kind ≠ method.kind ∨
          m.resolveType baseEntry.scope [] baseMethod.result ≠
            m.resolveType entry.scope [] method.result)
        entry.document.file method.span "override must preserve method kind and result type"

def effectErrors (key : String) (entry : Entry) (earlier : List Effect) :
    Effect → List Diagnostic
  | .invokes path => reportError entry.document.file path.span (m.targets key entry path)
  | .forbidTransitive path =>
      reportError entry.document.file path.span (m.targets key entry path)
  | .reads path =>
      let valid := path.root = "self" ∧ ∃ name ∈ path.segments, path.segments = [name] ∧
        (m.ancestors key).any fun ancestor => m.classes[ancestor]?.any fun entry =>
          entry.decl.fields.any fun field => field.name = name
      reportIf (¬valid) entry.document.file path.span
        "reads must reference an existing self field"
  | .creates name context =>
      reportIf (earlier.any fun
          | .creates other _ => other = name
          | _ => false)
        entry.document.file context.span ("duplicate context binding " ++ name) ++
      match m.resolve entry context with
      | .error message => [⟨entry.document.file, context.span, message⟩]
      | .ok target =>
          reportIf (!m.classes[target]?.any fun entry => entry.decl.kind = .context)
            entry.document.file context.span ("not a context: " ++ target)

def methodErrors (key : String) (entry : Entry) : List Diagnostic :=
  (withEarlier entry.decl.methods).flatMap fun (earlier, method) =>
    reportIf (earlier.any (fun other => other.name = method.name) ||
        entry.decl.fields.any fun field => field.name = method.name)
      entry.document.file method.span ("duplicate member " ++ method.name) ++
    m.typeErrors entry.document.file entry.scope [] method.result ++
    m.overrideErrors key entry method ++
    match method.envelope with
    | none => reportIf (entry.decl.kind ≠ .abstract) entry.document.file method.span
        "abstract methods require an abstract class"
    | some effects => (withEarlier effects).flatMap fun (earlier, effect) =>
        m.effectErrors key entry earlier effect

/-- A declaration without an envelope. -/
def selectsAbstract (selected : String) : Bool :=
  (rsplitOnce selected).any fun (owner, name) => m.classes[owner]?.any fun entry =>
    entry.decl.methods.any fun method => method.name = name && method.envelope.isNone

def completenessErrors (key : String) (entry : Entry) : List Diagnostic :=
  if entry.decl.kind = .abstract then []
  else
    (m.ancestors key).flatMap fun ancestor => m.classes[ancestor]?.toList.flatMap fun base =>
      base.decl.methods.flatMap fun method => (m.method key method.name).toList.flatMap
        fun selected => reportIf (m.selectsAbstract selected) entry.document.file
          entry.decl.span ("concrete class does not implement " ++ selected)

def classErrors (key : String) (entry : Entry) : List Diagnostic :=
  m.baseErrors key entry ++ m.fieldErrors key entry ++ m.methodErrors key entry ++
    m.completenessErrors key entry

/-! ### Forbidden calls -/

/-- The methods that a method invokes, by its own envelope. -/
def calls (key : String) (entry : Entry) (method : Method) : List String :=
  (method.envelope.getD []).flatMap fun
    | .invokes path =>
        match m.targets key entry path with
        | .ok targets => targets.toList
        | .error _ => []
    | _ => []

def addCalls (graph : TreeMap String (TreeSet String)) (key : String) (targets : List String) :
    TreeMap String (TreeSet String) :=
  graph.insert key (targets.foldl TreeSet.insert (graph.getD key ∅))

/-- Every method with what it invokes. -/
def callTable : List (String × List String) :=
  m.classes.toList.flatMap fun (key, entry) => entry.decl.methods.map fun method =>
    (qualified key method.name, m.calls key entry method)

def callGraph : TreeMap String (TreeSet String) :=
  m.callTable.foldl (fun graph row => addCalls graph row.1 row.2) ∅

structure Prohibition where
  start : String
  forbidden : TreeSet String
  file : String
  span : Span

def prohibitions : List Prohibition :=
  m.classes.toList.flatMap fun (key, entry) => entry.decl.methods.flatMap fun method =>
    (method.envelope.getD []).flatMap fun
      | .forbidTransitive path =>
          match m.targets key entry path with
          | .ok targets => [⟨qualified key method.name, targets, entry.document.file, path.span⟩]
          | .error _ => []
      | _ => []

/-- What is selected for a declaration in its class and in the subclasses. -/
def implementations (start : String) : List String :=
  match rsplitOnce start with
  | none => []
  | some (owner, name) =>
      (TreeSet.ofList ((m.descendants owner).filterMap (m.method · name))).toList

def forbiddenPath (graph : TreeMap String (TreeSet String)) (prohibition : Prohibition) :
    Option (List String) :=
  let next (method : String) := (graph.getD method ∅).toList
  let queue := (m.implementations prohibition.start).flatMap fun implementation =>
    (next implementation).map ([implementation], ·)
  -- every method is expanded once, so that its calls are queued once
  Search.search next (prohibition.forbidden.contains ·)
    (queue.length + (graph.keys.flatMap next).length + 1) queue []

def pathErrors (prohibition : Prohibition) : List Diagnostic :=
  ((m.forbiddenPath m.callGraph prohibition).map fun path =>
    ⟨prohibition.file, prohibition.span,
      "forbidden transitive call: " ++ " -> ".intercalate path⟩).toList

def check : List Diagnostic :=
  m.errors ++ m.valueErrors ++ m.classes.toList.flatMap (fun (key, entry) =>
    m.classErrors key entry) ++ m.prohibitions.flatMap m.pathErrors

end Model

/-- The errors of a closed set of documents. -/
def validate (documents : List Document) : List Diagnostic := (buildModel documents).check

end Sage.Meta
