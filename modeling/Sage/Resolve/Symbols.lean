import Sage.Parse.UseTree

/-!
# Resolve — symbols

`symbol/mod.rs`: the definitions names resolve to, local and external, and what a resolution
context asks of the database: the expanded items of a module, the imports of a `use`, the
children an external module exports.

* `Symbol`, `ModSymbol` — definition identities.
* `SymbolDb` — the queries lookup makes.
-/

namespace Sage.Resolve

inductive MacroKind where
  | bang
  | attr
  | derive
deriving DecidableEq

/-- Each module maps names independently per namespace. -/
inductive Namespace where
  | type
  | value
  | macros (kind : MacroKind)
deriving DecidableEq

inductive SymExtKind where
  | fn
  | struct
  | tupleStructCtor
  | enum
  | variant
  | variantCtor
  | trait
  | impl
  | mod
  | typeAlias
  | const
  | static
  | macroDef
  | use
  | other
deriving DecidableEq

/-- A definition of another crate. -/
structure SymExt where
  crateNum : Nat
  defIndex : Nat
  kind : SymExtKind
deriving DecidableEq

/-- A module of the local crate; only the crate root has no parent. -/
inductive LocalModSym where
  | root
  | child (parent : LocalModSym) (id : Nat)
deriving DecidableEq

inductive ModSymbol where
  | «local» (module : LocalModSym)
  | ext (module : SymExt)
deriving DecidableEq

/-- The local definitions other than modules and `use` items. -/
inductive LocalKind where
  | fn
  | struct
  | enum
  | variant (unit : Bool)
  | variantCtor
  | trait
  | typeAlias
  | const
  | static
  | impl
  | macroDef
  | intrinsicType
  | macroInvocation
deriving DecidableEq

inductive Symbol where
  | mod (module : ModSymbol)
  | use (id : Nat)
  | «local» (kind : LocalKind) (id : Nat)
  | ext (definition : SymExt)
deriving DecidableEq

/-- The items a local module can have. -/
inductive LocalModItemSym where
  | mod (module : LocalModSym)
  | use (id : Nat)
  | other (kind : LocalKind) (id : Nat)
deriving DecidableEq

def LocalModItemSym.symbol : LocalModItemSym → Symbol
  | .mod module => .mod (.local module)
  | .use id => .use id
  | .other kind id => .local kind id

/-- An external definition as a symbol. -/
def SymExt.symbol (definition : SymExt) : Symbol :=
  if definition.kind = .mod then .mod (.ext definition) else .ext definition

/-- The root module of an external crate. -/
def SymExt.root (crateNum : Nat) : SymExt := ⟨crateNum, 0, .mod⟩

def LocalKind.nameSpace : LocalKind → Option Namespace
  | .fn => some .value
  | .struct => some .type
  | .enum => some .type
  | .variant unit => some (if unit then .value else .type)
  | .variantCtor => some .value
  | .trait => some .type
  | .typeAlias => some .type
  | .const => some .value
  | .static => some .value
  | .impl => none
  | .macroDef => some (.macros .bang)
  | .intrinsicType => some .type
  | .macroInvocation => none

def SymExtKind.nameSpace : SymExtKind → Option Namespace
  | .fn => some .value
  | .struct => some .type
  | .tupleStructCtor => some .value
  | .enum => some .type
  | .variant => some .type
  | .variantCtor => some .value
  | .trait => some .type
  | .impl => none
  | .mod => some .type
  | .typeAlias => some .type
  | .const => some .value
  | .static => some .value
  | .macroDef => some (.macros .bang)
  | .use => some .type
  | .other => none

/-- The kinds that `Symbol::data` converts; the others end in its unimplemented branch. -/
def SymExtKind.isRepresented : SymExtKind → Bool
  | .tupleStructCtor | .other => false
  | _ => true

def Symbol.isRepresented : Symbol → Bool
  | .ext definition => definition.kind.isRepresented
  | _ => true

/-- What lookup asks of the database. -/
structure SymbolDb where
  /-- The name a definition is written with. -/
  text : Symbol → Option Name
  /-- `local_expanded_module_items`. -/
  expandedItems : LocalModSym → List LocalModItemSym
  /-- The imports of a `use` item. -/
  imports : Nat → List UseImport
  /-- Whether an attribute of a `use` item is yet to be expanded. -/
  useIsActive : Nat → Bool
  variants : Symbol → List Symbol
  /-- The definitions an external module exports, with the kind of each. -/
  moduleChildren : SymExt → List SymExt
  namedChildren : SymExt → Name → Namespace → List SymExt
  externCrate : Name → Option Nat
  intrinsic : Name → Option Symbol
  /-- The name of the edition's prelude module. -/
  preludeModule : Name

namespace Symbol

def module : Symbol → Option ModSymbol
  | .mod module => some module
  | _ => none

def isEnum : Symbol → Bool
  | .local .enum _ => true
  | .ext definition => definition.kind = .enum
  | _ => false

def name (db : SymbolDb) (symbol : Symbol) : Option (Name × Namespace) :=
  let space : Option Namespace :=
    match symbol with
    | .mod _ => some .type
    | .use _ => none
    | .local kind _ => kind.nameSpace
    | .ext definition => definition.kind.nameSpace
  match db.text symbol, space with
  | some text, some ns => some (text, ns)
  | _, _ => none

end Symbol

/-- The children of an enum; nothing else outside modules has any. -/
def SymbolDb.children (db : SymbolDb) (symbol : Symbol) : List Symbol :=
  if symbol.isEnum then db.variants symbol else []

end Sage.Resolve
