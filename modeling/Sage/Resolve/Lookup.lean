import Sage.Library.FlatMap
import Sage.Resolve.Symbols

/-!
# Resolve — module lookup

`check/resolve/mod.rs`: resolving paths and names through the items and imports of modules.  A
stack of the queries in flight cuts cycles through `use` chains.  The recursion takes fuel here;
`none` is a lookup without enough of it, or the panic on an item of an external module whose kind
is not implemented.

* `resolveNameFromModule` — one query: the items and imports of a module, then its globs; during
  macro expansion both at once.
* `flexiblyResolve` — the first segment of a path, which may also name a prelude entry.
* `resolvePath` — a path from a module, with no query in flight and no local bindings.
-/

namespace Sage.Resolve

open Loop

inductive ResolvePhase where
  | macroExpansion
  | normal
deriving DecidableEq

structure InFlightQuery where
  module : ModSymbol
  name : Name
  ns : Namespace
deriving DecidableEq

inductive NamedLookup where
  | none
  | all
deriving DecidableEq

structure LookupFilter where
  named : NamedLookup
  globs : Bool

namespace LocalModSym

def parent : LocalModSym → Option LocalModSym
  | .root => none
  | .child parent _ => some parent

def crateRoot : LocalModSym → LocalModSym
  | .root => .root
  | .child parent _ => parent.crateRoot

end LocalModSym

def parentModule : ModSymbol → Option ModSymbol
  | .local module => module.parent.map .local
  | .ext _ => none

def crateRootOf : ModSymbol → ModSymbol
  | .local module => .local module.crateRoot
  | .ext module => .ext (.root module.crateNum)

namespace SymbolDb

variable (db : SymbolDb)

def lookupExternPrelude (name : Name) (ns : Namespace) : Option Symbol :=
  if ns ≠ .type then none
  else (db.externCrate name).map fun crateNum => .mod (.ext (.root crateNum))

def lookupLangPrelude (name : Name) (ns : Namespace) : Option Symbol :=
  if ns ≠ .type then none else db.intrinsic name

/-- The modules an anchor stands for. -/
def resolveAnchor (module : ModSymbol) : PathAnchorKind → List ModSymbol
  | .self_ => [module]
  | .currentCrate => [crateRootOf module]
  | .super inner => (resolveAnchor module inner).filterMap parentModule
  | .externCrate name => ((db.lookupExternPrelude name .type).bind Symbol.module).toList

/-- The members of a module, with their names. -/
def expandedModuleItems : ModSymbol → List Symbol
  | .local module => (db.expandedItems module).map LocalModItemSym.symbol
  | .ext module => (db.moduleChildren module).map SymExt.symbol

/-! ### One query, over a lookup for the queries it makes -/

section Recurse

variable (recurse : ModSymbol → Name → Namespace → Option (List Symbol))

/-- Look up a name inside a container. -/
def resolveNameIn (symbol : Symbol) (name : Name) (ns : Namespace) :
    Option (List Symbol) :=
  match symbol.module with
  | some (.ext module) => some ((db.namedChildren module name ns).map SymExt.symbol)
  | some (.local module) => recurse (.local module) name ns
  | none => some ((db.children symbol).filter fun item => item.name db = some (name, ns))

/-- A name through a glob import of these. -/
def resolveGlob (globFrom : List Symbol) (name : Name) (ns : Namespace) :
    Option (List Symbol) :=
  flatMapM (fun symbol =>
    match symbol.module with
    | some module => recurse module name ns
    | none =>
        if symbol.isEnum then db.resolveNameIn recurse symbol name ns else some [])
    globFrom

def lookupStdPrelude (name : Name) (ns : Namespace) : Option (List Symbol) :=
  match (db.lookupExternPrelude "std" .type).bind Symbol.module with
  | none => some []
  | some stdModule => do
      let preludes ← recurse stdModule "prelude" .type
      let editions ← flatMapM (fun module => recurse module db.preludeModule .type)
        (preludes.filterMap Symbol.module)
      db.resolveGlob recurse editions name ns

/-- The first segment of a path: the module, the extern prelude, the standard library's and the
language's. -/
def flexiblyResolve (module : ModSymbol) (name : Name) (ns : Namespace) :
    Option (List Symbol) := do
  let results ← recurse module name ns
  if results ≠ [] then return results
  match db.lookupExternPrelude name ns with
  | some symbol => return [symbol]
  | none =>
      let results ← db.lookupStdPrelude recurse name ns
      if results ≠ [] then return results
      return (db.lookupLangPrelude name ns).toList

/-- Each further segment names a child of what the one before it resolved to. -/
def resolveRemainingSegments (ns : Namespace) : List Name → List Symbol → Option (List Symbol)
  | [], _ => some []
  | [final], symbols => flatMapM (fun symbol => db.resolveNameIn recurse symbol final ns) symbols
  | next :: rest, symbols =>
      flatMapM (fun symbol => do
        let nextSymbols ← db.resolveNameIn recurse symbol next .type
        resolveRemainingSegments ns rest nextSymbols) symbols

def resolvePathInModule (module : ModSymbol) (path : Path) (ns : Namespace) :
    Option (List Symbol) :=
  match path with
  | .relative first [] => db.flexiblyResolve recurse module first ns
  | .relative first rest => do
      let symbols ← db.flexiblyResolve recurse module first .type
      db.resolveRemainingSegments recurse ns rest symbols
  | .anchored anchor [] =>
      if ns ≠ .type then some []
      else some ((db.resolveAnchor module anchor).map .mod)
  | .anchored anchor rest =>
      db.resolveRemainingSegments recurse ns rest ((db.resolveAnchor module anchor).map .mod)

/-- The target of a `use` import. -/
def resolveUse (originModule : ModSymbol) (path : Path) (ns : Namespace) :
    Option (List Symbol) :=
  db.resolvePathInModule recurse originModule path ns

/-- What one import supplies. -/
def lookupImport (filter : LookupFilter) (module : ModSymbol) (name : Name)
    (ns : Namespace) (imported : UseImport) : Option (List Symbol) :=
  match imported.kind with
  | .named binding =>
      if binding = name ∧ filter.named = .all then
        db.resolveUse recurse module imported.path ns
      else some []
  | .glob =>
      if filter.globs then do
        let globFrom ← db.resolveUse recurse module imported.path .type
        db.resolveGlob recurse globFrom name ns
      else some []
  | .unnamed => some []

/-- What one item supplies. -/
def lookupItem (filter : LookupFilter) (module : ModSymbol) (name : Name)
    (ns : Namespace) (item : Symbol) : Option (List Symbol) :=
  match item with
  | .use id =>
      if db.useIsActive id then some []
      else flatMapM (db.lookupImport recurse filter module name ns) (db.imports id)
  | .ext ⟨_, _, .use⟩ => none
  | item =>
      if item.isRepresented = false then none
      else if filter.named = .all ∧ item.name db = some (name, ns) then some [item]
      else some []

def lookupInModule (filter : LookupFilter) (module : ModSymbol) (name : Name)
    (ns : Namespace) : Option (List Symbol) :=
  match module, ns with
  | .ext external, .macros kind =>
      if filter.named = .all then
        some ((db.namedChildren external name (.macros kind)).map SymExt.symbol)
      else some []
  | module, ns =>
      flatMapM (db.lookupItem recurse filter module name ns)
        (db.expandedModuleItems module)

/-- The first bucket with a result; macro expansion has a single one. -/
def lookupByPhase (phase : ResolvePhase) (module : ModSymbol) (name : Name)
    (ns : Namespace) : Option (List Symbol) :=
  match phase with
  | .macroExpansion => db.lookupInModule recurse ⟨.all, true⟩ module name ns
  | .normal => do
      let results ← db.lookupInModule recurse ⟨.all, false⟩ module name ns
      if results ≠ [] then return results
      db.lookupInModule recurse ⟨.none, true⟩ module name ns

end Recurse

/-! ### The recursion -/

/-- A query already in flight finds nothing; routes to one definition are one result. -/
def resolveNameFromModule (phase : ResolvePhase) : Nat → List InFlightQuery → ModSymbol → Name →
    Namespace → Option (List Symbol)
  | 0, _, _, _, _ => none
  | fuel + 1, inFlight, module, name, ns =>
      if ⟨module, name, ns⟩ ∈ inFlight then some []
      else
        (db.lookupByPhase
          (resolveNameFromModule phase fuel (⟨module, name, ns⟩ :: inFlight))
          phase module name ns).map List.eraseDups

/-- A path, where there are no local bindings, as during macro expansion. -/
def resolvePath (phase : ResolvePhase) (fuel : Nat) (module : ModSymbol) (path : Path)
    (ns : Namespace) : Option (List Symbol) :=
  db.resolvePathInModule (db.resolveNameFromModule phase fuel []) module path ns

end SymbolDb

end Sage.Resolve
