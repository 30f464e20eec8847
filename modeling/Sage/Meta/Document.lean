import Sage.Meta.Names

/-!
# Meta — documents

The declarations of an architecture model, as the parser leaves them.  A document belongs to a
crate or to a module of one.
-/

namespace Sage.Meta

/-- A byte range in the source. -/
structure Span where
  start : Nat
  stop : Nat
deriving DecidableEq

structure Diagnostic where
  file : String
  span : Span
  message : String
deriving DecidableEq

structure Path where
  /-- `crate`, `self`, an external crate after `$`, or the name of a local type. -/
  root : String
  segments : List String
  span : Span
deriving DecidableEq

inductive Header where
  | crate (name : String) (dependencies modules : List String)
  | module (path : Path)
deriving DecidableEq

inductive TypeExpr where
  | named (path : Path) (arguments : List TypeExpr) (span : Span)
  | tuple (items : List TypeExpr) (span : Span)

structure ValueField where
  name : String
  ty : TypeExpr
  span : Span

inductive VariantFields where
  | unit
  | tuple (fields : List TypeExpr)
  | named (fields : List ValueField)

structure Variant where
  name : String
  fields : VariantFields
  span : Span

inductive TypeShape where
  | opaqueValue
  | struct (fields : List ValueField)
  | enum (variants : List Variant)

structure TypeDecl where
  name : String
  parameters : List String
  shape : TypeShape
  span : Span

inductive ClassKind where
  | concrete
  | abstract
  | context
deriving DecidableEq

inductive FieldKind where
  | identity
  | input
  | state
deriving DecidableEq

structure Field where
  name : String
  kind : FieldKind
  ty : TypeExpr
  span : Span

inductive MethodKind where
  | function
  | query
deriving DecidableEq

inductive Effect where
  | invokes (path : Path)
  | forbidTransitive (path : Path)
  | reads (path : Path)
  | creates (name : String) (context : Path)

structure Method where
  name : String
  word : IsWord name
  kind : MethodKind
  isOverride : Bool
  result : TypeExpr
  /-- An abstract method has none, a leaf computation the empty one. -/
  envelope : Option (List Effect)
  span : Span

structure Class where
  name : String
  kind : ClassKind
  base : Option Path
  fields : List Field
  methods : List Method
  span : Span

inductive Declaration where
  | type (decl : TypeDecl)
  | class (decl : Class)

structure Document where
  file : String
  header : Header
  declarations : List Declaration

end Sage.Meta
