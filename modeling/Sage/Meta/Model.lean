import Std.Data.TreeMap
import Std.Data.TreeSet
import Sage.Library.Orbit
import Sage.Meta.Document

/-!
# Meta — the model of a document set

The classes and types of all documents under their qualified names, and how names are resolved.

* `Model.resolvePath`, `Model.resolveType` — the name and the type that a path spells.
* `Model.base`, `Model.ancestors`, `Model.method` — the hierarchy and the method it selects.
* `Model.targets` — what a call may reach.
-/

namespace Sage.Meta

open Std (TreeMap TreeSet)

structure Model.Entry where
  document : Document
  /-- The crate or the module that the class belongs to. -/
  scope : String
  decl : Class

/-- Classes and types stand under their qualified names. -/
structure Model where
  classes : TreeMap String Model.Entry
  types : TreeMap String Nat
  values : List (Document × String × TypeDecl)
  dependencies : TreeMap String (TreeSet String)
  errors : List Diagnostic

namespace Model

def empty : Model := ⟨∅, ∅, [], ∅, []⟩

def error (m : Model) (document : Document) (span : Span) (message : String) : Model :=
  { m with errors := m.errors ++ [⟨document.file, span, message⟩] }

/-! ### Names -/

/-- What follows a leading `$`. -/
def external (root : String) : Option String :=
  match root.toList with
  | '$' :: rest => some (String.ofList rest)
  | _ => none

def resolvePath (m : Model) (scope : String) (path : Path) : Except String String :=
  let owner := firstSegment scope
  let from' (root : String) := "::".intercalate (root :: path.segments)
  if path.root = "crate" then .ok (from' owner)
  else
    match external path.root with
    | some crate =>
        if crate ≠ owner ∧ (m.dependencies[owner]?.any (·.contains crate)) = false then
          .error ("undeclared dependency $" ++ crate)
        else .ok (from' crate)
    | none => .error "self is only valid for field reads and method calls"

def resolve (m : Model) (entry : Entry) (path : Path) : Except String String :=
  m.resolvePath entry.scope path

/-! ### The hierarchy -/

def base (m : Model) (key : String) : Option String := do
  let entry ← m.classes[key]?
  let path ← entry.decl.base
  (m.resolve entry path).toOption

/-- A class and those above it, the nearest first, up to a repetition. -/
def ancestors (m : Model) (key : String) : List String :=
  Orbit.follow m.base (m.classes.size + 1) [] (some key)

def declares (m : Model) (key name : String) : Bool :=
  m.classes[key]?.any fun entry => entry.decl.methods.any fun method => method.name = name

/-- The nearest declaration of a method. -/
def method (m : Model) (key name : String) : Option String :=
  ((m.ancestors key).find? fun ancestor => m.declares ancestor name).map (qualified · name)

/-- The class and the name of a method path. -/
def methodPath (m : Model) (key : String) (entry : Entry) (path : Path) :
    Except String (String × String) :=
  match if path.root = "self" then path.segments else [] with
  | [name] => .ok (key, name)
  | _ => do
      let resolved ← m.resolve entry path
      match rsplitOnce resolved with
      | some parts => .ok parts
      | none => .error "expected a class method path"

def descendants (m : Model) (key : String) : List String :=
  m.classes.keys.filter fun descendant => key ∈ m.ancestors descendant

/-- The methods that a call may reach: the one declared and those of all subclasses. -/
def targets (m : Model) (key : String) (entry : Entry) (path : Path) :
    Except String (TreeSet String) := do
  let (owner, name) ← m.methodPath key entry path
  if !m.classes.contains owner then .error ("unknown class " ++ owner)
  else
    match m.method owner name with
    | none => .error ("unknown method " ++ qualified owner name)
    | some declared =>
        .ok (((m.descendants owner).filterMap (m.method · name)).foldl TreeSet.insert {declared})

/-! ### Types -/

def namedType (m : Model) (scope : String) (parameters : List String) (path : Path) :
    Except String (String × Nat) :=
  if path.root = "crate" ∨ (external path.root).isSome then do
    let key ← m.resolvePath scope path
    match m.types[key]? with
    | some arity => .ok (key, arity)
    | none => .error ("unknown type " ++ key)
  else if path.root = "self" ∨ path.segments ≠ [] then
    .error "type names must be local names or crate-qualified paths"
  else if path.root ∈ parameters then .ok ("parameter::" ++ path.root, 0)
  else
    let localName := qualified scope path.root
    match m.types[localName]? with
    | some arity => .ok (localName, arity)
    | none =>
        if path.root ∈ ["Vec", "Option"] then .ok ("builtin::" ++ path.root, 1)
        else if path.root ∈ ["bool", "u32", "u64", "String"] then
          .ok ("builtin::" ++ path.root, 0)
        else .error ("unknown type " ++ path.root)

mutual

/-- A spelling of the type that does not depend on how its names are written. -/
def resolveType (m : Model) (scope : String) (parameters : List String) :
    TypeExpr → Except String String
  | .tuple items _ => do
      let items ← m.resolveTypes scope parameters items
      .ok ("(" ++ ",".intercalate items ++ ")")
  | .named path arguments _ => do
      let (key, arity) ← m.namedType scope parameters path
      if arguments.length ≠ arity then
        .error ("type " ++ key ++ " expects " ++ arity.repr ++ " type arguments, found " ++
          arguments.length.repr)
      else
        let arguments ← m.resolveTypes scope parameters arguments
        .ok (key ++ "<" ++ ",".intercalate arguments ++ ">")

def resolveTypes (m : Model) (scope : String) (parameters : List String) :
    List TypeExpr → Except String (List String)
  | [] => .ok []
  | ty :: types => do
      let ty ← m.resolveType scope parameters ty
      let types ← m.resolveTypes scope parameters types
      .ok (ty :: types)

end

end Model

end Sage.Meta
