import Sage.Check.TyTree
import Sage.Library.PartialMap
import Sage.Resolve.Symbols

/-!
# Check — scopes of a body

`resolve/ribs.rs`, `check/infer_ctx.rs` and the binding forms of `check/expr.rs`: what a body check
does with names.  An expression is checked in a scope it does not change; a form that binds names
works on a clone.  Local identities are counted for the whole body.

* `Ribs`, `Scope` — the names in scope, and the types of the locals among them.
* `PatCst`, `ExprCst` — bodies as written.
* `PatCst.check`, `ExprCst.check`, `FnBody.check` — the check; `none` is a panic.
-/

namespace Sage.Check

open Resolve (Namespace)

/-! ### Ribs -/

inductive Resolution where
  | loc (id : LocalId)
  | param (p : GenericParam)
  | sym (sym : Symbol)
  | selfTy (ty : Ty)
deriving DecidableEq

/-- The scopes, innermost first, each with its latest entry first: the source reads the vectors
from their ends. -/
structure Ribs where
  scopes : List (List (Name × Namespace × Resolution))

namespace Ribs

def pushScope (ribs : Ribs) : Ribs := ⟨[] :: ribs.scopes⟩

/-- An entry of the innermost scope; without a scope it is dropped. -/
def add (ribs : Ribs) (name : Name) (ns : Namespace) (entry : Resolution) : Ribs :=
  match ribs.scopes with
  | [] => ribs
  | scope :: scopes => ⟨((name, ns, entry) :: scope) :: scopes⟩

def addGenericParams (ribs : Ribs) (params : List (Option Name × GenericParam)) : Ribs :=
  params.foldl
    (fun ribs param =>
      match param.1 with
      | some name => ribs.add name .type (.param param.2)
      | none => ribs)
    ribs.pushScope

def lookup (ribs : Ribs) (name : Name) (ns : Namespace) : Option Resolution :=
  ribs.scopes.findSome? fun scope => scope.findSome? fun entry =>
    if entry.1 = name ∧ entry.2.1 = ns then some entry.2.2 else none

end Ribs

/-- What a definition is to an identifier pattern. -/
inductive ValueKind where
  | unitStruct
  | unitVariant
  | constant
  | static
  | other
deriving DecidableEq

/-- What lookup finds from the module of the body. -/
structure ModuleNames where
  /-- `flexibly_resolve_name_from_module`. -/
  resolveName : Name → Namespace → List Symbol
  /-- `resolve_path_in_module`. -/
  resolvePath : Path → Namespace → List Symbol
  kind : Symbol → ValueKind

/-! ### Scopes -/

structure Scope where
  ribs : Ribs
  /-- Nested scopes can have locals that are absent here. -/
  locals : PartialMap LocalId Ty

/-- What became of an event of the body. -/
inductive Occurrence where
  | scope
  | bound (id : LocalId)
  | resolved (res : PathResolution)
deriving DecidableEq

/-- The part of the context names have to do with.  The typed tree is kept as what became of its
bindings and paths, in the order they are checked. -/
structure BodyCx where
  localVars : List LocalVar
  typeVars : Nat
  occurrences : List Occurrence

namespace BodyCx

def new : BodyCx := ⟨[], 0, []⟩

def note (cx : BodyCx) (occurrence : Occurrence) : BodyCx :=
  { cx with occurrences := cx.occurrences ++ [occurrence] }

def addLocalVar (cx : BodyCx) (var : LocalVar) : BodyCx :=
  { cx with localVars := cx.localVars ++ [var] }

def freshTyVar (cx : BodyCx) : Ty × BodyCx :=
  (.inferVar cx.typeVars, { cx with typeVars := cx.typeVars + 1 })

end BodyCx

namespace Scope

def pushScope (scope : Scope) : Scope := { scope with ribs := scope.ribs.pushScope }

def localType (scope : Scope) (id : LocalId) : Option Ty := scope.locals id

/-- A local with a type; its identity is the number of locals before it. -/
def bindLocal (scope : Scope) (cx : BodyCx) (name : Name) (span : RelativeSpan) (ty : Ty) :
    LocalId × Scope × BodyCx :=
  let id : LocalId := ⟨cx.localVars.length⟩
  (id,
    { ribs := scope.ribs.add name .value (.loc id)
      locals := scope.locals.insert id ty },
    (cx.addLocalVar ⟨name, span⟩).note (.bound id))

def addBinding (scope : Scope) (cx : BodyCx) (name : Name) (span : RelativeSpan) :
    LocalId × Scope × BodyCx :=
  let (ty, cx) := cx.freshTyVar
  scope.bindLocal cx name span ty

end Scope

/-- The parameter of a function; without a name its pattern is not an identifier. -/
structure ParamCst where
  name : Option Name
  span : RelativeSpan

def Scope.bindParams : List (ParamCst × Ty) → Scope → BodyCx → Scope × BodyCx
  | [], scope, cx => (scope, cx)
  | (param, ty) :: params, scope, cx =>
      match param.name with
      | some name =>
          let (_, scope, cx) := scope.bindLocal cx name param.span ty
          Scope.bindParams params scope cx
      | none => Scope.bindParams params scope cx

/-! ### Paths -/

/-- `Resolver::resolve_path`: the ribs come first for a single segment. -/
def Ribs.resolvePath (m : ModuleNames) (ribs : Ribs) (path : Path) (ns : Namespace) :
    List Resolution :=
  if path = .anchored .self_ [] ∧ ns = .value then
    (ribs.lookup "self" ns).toList
  else
    match path with
    | .relative first [] =>
        match ribs.lookup first ns with
        | some entry => [entry]
        | none => (m.resolveName first ns).map .sym
    | path => (m.resolvePath path ns).map .sym

/-- One result is what the path means; several are ambiguous, and none is unresolved. -/
def pathResolution : List Resolution → PathResolution
  | [.sym sym] => .defn sym
  | [.loc id] => .loc id
  | _ => .error ⟨⟩

def resolvePath (m : ModuleNames) (scope : Scope) (path : Path) (ns : Namespace) :
    PathResolution :=
  pathResolution (scope.ribs.resolvePath m path ns)

/-- `res_to_ty` on a local; the types of definitions come from their interfaces. -/
def resToTy (scope : Scope) : PathResolution → Option (Option Ty)
  | .loc id => (scope.localType id).map some
  | .defn _ | .error _ => some none

/-! ### Bodies as written -/

/-- Patterns; field patterns are in the order they are written. -/
inductive PatCst where
  | wildcard
  | bind (name : Name) (m : Mutability) (span : RelativeSpan)
  | path (path : Path)
  | tuple (pats : List PatCst)
  | struct (path : Path) (fields : List PatCst)
  | tupleStruct (path : Path) (pats : List PatCst)
  | ref (inner : PatCst) (m : Mutability)
  | literal (lit : Literal)
  | or (pats : List PatCst)
  | rest
  | missing

/-- The forms that bind nothing and name nothing themselves. -/
inductive NodeKind where
  | literal (lit : Literal)
  | call
  | methodCall (name : Name)
  | field (name : Name)
  | binary (op : BinaryOp)
  | unary (op : UnaryOp)
  | ref (m : Mutability)
  | ifExpr
  | loop
  | whileExpr
  | breakExpr
  | continueExpr
  | returnExpr
  | assign
  | await
  | tryExpr
  | tuple
  | array
  | index
  | cast
  | range
  | missing

mutual

/-- Expressions.  The parts of a `node` are those the form has, in the order it checks them, which
is the order they are written in. -/
inductive ExprCst where
  | path (path : Path)
  | block (stmts : List StmtCst) (tail : Option ExprCst)
  | ifLet (pat : PatCst) (scrutinee ifTrue : ExprCst) (ifFalse : Option ExprCst)
  | matchExpr (scrutinee : ExprCst) (arms : List MatchArmCst)
  | whileLet (pat : PatCst) (scrutinee body : ExprCst)
  | forExpr (pat : PatCst) (iterator body : ExprCst)
  | closure (params : List PatCst) (body : ExprCst)
  | structLit (path : Path) (fields : List ExprCst)
  | node (kind : NodeKind) (parts : List ExprCst)

inductive StmtCst where
  | letStmt (pat : PatCst) (init : Option ExprCst)
  | expr (e : ExprCst)

inductive MatchArmCst where
  | mk (pat : PatCst) (guard : Option ExprCst) (body : ExprCst)

end

/-- A function as its body check sees it.  Every parameter has a type from the signature. -/
structure FnBody where
  generics : List (Option Name × GenericParam)
  ownerSelfTy : Option Ty
  params : List (ParamCst × Ty)
  body : Option ExprCst

/-! ### The check -/

mutual

def PatCst.check (m : ModuleNames) : PatCst → Scope → BodyCx → Option (Scope × BodyCx)
  | .bind name _ span, scope, cx => do
      let (_, cx) := cx.freshTyVar
      let (id, scope, cx) := scope.addBinding cx name span
      let _ ← scope.localType id
      return (scope, cx)
  | .path path, scope, cx =>
      let (_, cx) := cx.freshTyVar
      some (scope, cx.note (.resolved (resolvePath m scope path .value)))
  | .struct path fields, scope, cx =>
      let (_, cx) := cx.freshTyVar
      checkPats m fields scope (cx.note (.resolved (resolvePath m scope path .type)))
  | .tupleStruct path pats, scope, cx =>
      let (_, cx) := cx.freshTyVar
      checkPats m pats scope (cx.note (.resolved (resolvePath m scope path .value)))
  | .tuple pats, scope, cx
  | .or pats, scope, cx => checkPats m pats scope cx.freshTyVar.2
  | .ref inner _, scope, cx => inner.check m scope cx.freshTyVar.2
  | .wildcard, scope, cx
  | .literal _, scope, cx
  | .rest, scope, cx
  | .missing, scope, cx => some (scope, cx.freshTyVar.2)

/-- Each pattern sees what the patterns before it bind. -/
def checkPats (m : ModuleNames) : List PatCst → Scope → BodyCx → Option (Scope × BodyCx)
  | [], scope, cx => some (scope, cx)
  | pat :: pats, scope, cx => do
      let (scope, cx) ← pat.check m scope cx
      checkPats m pats scope cx

end

mutual

/-- A clone of the scope is dropped where its form ends. -/
def ExprCst.check (m : ModuleNames) : ExprCst → Scope → BodyCx → Option BodyCx
  | .path path, scope, cx => do
      let res := resolvePath m scope path .value
      let _ ← resToTy scope res
      return cx.note (.resolved res)
  | .block stmts tail, scope, cx => do
      let (scope, cx) ← checkStmts m stmts scope.pushScope (cx.note .scope)
      let cx ← checkOption m tail scope cx
      return cx.note .scope
  | .ifLet pat scrutinee ifTrue ifFalse, scope, cx => do
      let cx ← scrutinee.check m scope cx
      let (inner, cx) ← pat.check m scope.pushScope (cx.note .scope)
      let cx ← ifTrue.check m inner cx
      checkOption m ifFalse scope (cx.note .scope)
  | .matchExpr scrutinee arms, scope, cx => do
      let cx ← scrutinee.check m scope cx
      checkArms m arms scope cx
  | .whileLet pat head body, scope, cx
  | .forExpr pat head body, scope, cx => do
      let cx ← head.check m scope cx
      let (scope, cx) ← pat.check m scope.pushScope (cx.note .scope)
      let cx ← body.check m scope cx
      return cx.note .scope
  | .closure params body, scope, cx => do
      let (scope, cx) ← checkPats m params scope.pushScope (cx.note .scope)
      let cx ← body.check m scope cx
      return cx.note .scope
  | .structLit path fields, scope, cx =>
      checkExprs m fields scope (cx.note (.resolved (resolvePath m scope path .type)))
  | .node _ parts, scope, cx => checkExprs m parts scope cx

def checkOption (m : ModuleNames) : Option ExprCst → Scope → BodyCx → Option BodyCx
  | none, _, cx => some cx
  | some e, scope, cx => e.check m scope cx

def checkExprs (m : ModuleNames) : List ExprCst → Scope → BodyCx → Option BodyCx
  | [], _, cx => some cx
  | e :: es, scope, cx => do
      let cx ← e.check m scope cx
      checkExprs m es scope cx

/-- A `let` changes the scope of the block it is in. -/
def StmtCst.check (m : ModuleNames) : StmtCst → Scope → BodyCx → Option (Scope × BodyCx)
  | .letStmt pat init, scope, cx => do
      let cx ← checkOption m init scope cx
      pat.check m scope cx
  | .expr e, scope, cx => do
      let cx ← e.check m scope cx
      return (scope, cx)

def checkStmts (m : ModuleNames) : List StmtCst → Scope → BodyCx → Option (Scope × BodyCx)
  | [], scope, cx => some (scope, cx)
  | stmt :: stmts, scope, cx => do
      let (scope, cx) ← stmt.check m scope cx
      checkStmts m stmts scope cx

def MatchArmCst.check (m : ModuleNames) : MatchArmCst → Scope → BodyCx → Option BodyCx
  | .mk pat guard body, scope, cx => do
      let (scope, cx) ← pat.check m scope.pushScope (cx.note .scope)
      let cx ← checkOption m guard scope cx
      let cx ← body.check m scope cx
      return cx.note .scope

def checkArms (m : ModuleNames) : List MatchArmCst → Scope → BodyCx → Option BodyCx
  | [], _, cx => some cx
  | arm :: arms, scope, cx => do
      let cx ← arm.check m scope cx
      checkArms m arms scope cx

end

/-- The scope a body starts in: its generic parameters, and `Self` where it has an owner. -/
def FnBody.initialRibs (f : FnBody) : Ribs :=
  let ribs := (Ribs.pushScope ⟨[]⟩).addGenericParams f.generics
  match f.ownerSelfTy with
  | some ty => ribs.add "Self" .type (.selfTy ty)
  | none => ribs

def FnBody.check (m : ModuleNames) (f : FnBody) : Option BodyCx :=
  let (scope, cx) := Scope.bindParams f.params ⟨f.initialRibs, PartialMap.empty⟩ BodyCx.new
  checkOption m f.body scope cx

end Sage.Check
