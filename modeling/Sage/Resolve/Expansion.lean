import Sage.Library.Strata
import Sage.Resolve.Finite

/-!
# Resolve — macro expansion

`local_syms/mods.rs`: the items of a module after macro expansion.  Macro names resolve against
the expanded items themselves, so the query is evaluated in rounds from the empty list, each
resolving against the list of the round before.

* `localExpandedModuleItems` — one round.
* `ReachesFixedPoint` — the rounds reach a list that the next one reproduces.
* `LayeredBy` — no macro lookup depends, through what is expanded, on its own result.
-/

namespace Sage.Resolve

open Loop

structure AttrCst where
  isDocComment : Bool
  path : Path
  /-- The names a derive lists. -/
  args : List Name

/-- The items of a module before expansion. -/
inductive UnexpandedItem where
  | item (symbol : LocalModItemSym)
  | macroInvocation (id : Nat)
  | error

inductive MacroDefSymbol where
  | «local» (id : Nat)
  | ext (definition : SymExt)
deriving DecidableEq

structure DeriveExpansion where
  deriveName : Name
  sourceItem : LocalModItemSym
  attributeIndex : Nat
  deriveIndex : Nat
  macroDef : MacroDefSymbol

/-- A local module, with what its expansion asks of the database. -/
structure LocalModule where
  module : LocalModSym
  unexpandedItems : List UnexpandedItem
  /-- The lookups of the crate; the expanded items come from the next field. -/
  db : SymbolDb
  /-- The other modules, evaluated where this one has the items given. -/
  others : List LocalModItemSym → List (LocalModSym × List LocalModItemSym)
  attrs : UnexpandedItem → List AttrCst
  macroPath : Nat → Path
  /-- The parsed output of a macro for an invocation. -/
  parseOutput : Nat → MacroDefSymbol → List UnexpandedItem
  isBuiltinDerive : SymExt → Bool
  /-- Whether the expansion of a derive of this name is represented for an item. -/
  expandBuiltinDerive : Name → LocalModItemSym → Bool
  /-- The impl that a represented derive writes. -/
  derivedImpl : DeriveExpansion → Nat

/-- The macros an expansion looks up: the path of an invocation, the name of a derive. -/
inductive MacroUse where
  | bang (path : Path)
  | derive (name : Name)
deriving DecidableEq

def isKnownInertItemAttribute (name : Name) : Bool :=
  name ∈ ["inline", "repr", "allow", "deny", "warn", "forbid"]

def symbolMacroDefinition : Symbol → Option MacroDefSymbol
  | .local .macroDef id => some (.local id)
  | .ext definition => if definition.kind = .macroDef then some (.ext definition) else none
  | _ => none

/-- The macro, when exactly one is visible. -/
def definiteMacro (symbols : List Symbol) : Option MacroDefSymbol :=
  match symbols.filterMap symbolMacroDefinition with
  | [macroDef] => some macroDef
  | _ => none

/-- Maximum nesting depth for macro expansion. -/
def maxExpansionDepth : Nat := 128

namespace LocalModule

variable (M : LocalModule)

/-! ### Attributes -/

def isActiveAttribute (item : UnexpandedItem) (attr : AttrCst) : Bool :=
  if attr.isDocComment then false
  else
    match attr.path with
    | .relative first [] =>
        if first = "derive" then
          match item with
          | .item (.other .struct _) => false
          | .item (.other .enum _) => false
          | _ => true
        else !isKnownInertItemAttribute first
    | _ => true

def itemHasUnexpandedActiveAttribute (item : UnexpandedItem) : Bool :=
  (M.attrs item).any (isActiveAttribute item)

/-- The derives of an item, with the places where they are written. -/
def derives (item : UnexpandedItem) : List (Nat × Nat × Name) :=
  (M.attrs item).zipIdx.flatMap fun (attr, attributeIndex) =>
    match attr.path with
    | .relative first [] =>
        if !isKnownInertItemAttribute first ∧ first = "derive" then
          attr.args.zipIdx.map fun (name, deriveIndex) => (attributeIndex, deriveIndex, name)
        else []
    | _ => []

/-! ### Expansion, over a resolution of macros -/

section Resolve

variable (resolve : MacroUse → Option (Option MacroDefSymbol))

def expandDerive (item : LocalModItemSym) (entry : Nat × Nat × Name) :
    Option (List LocalModItemSym) := do
  match ← resolve (.derive entry.2.2) with
  | none => return []
  | some macroDef =>
      if M.expandBuiltinDerive entry.2.2 item then
        return [.other .impl (M.derivedImpl ⟨entry.2.2, item, entry.1, entry.2.1, macroDef⟩)]
      else return []

@[grind =]
def expandAttributeMacrosAndDerives (item : LocalModItemSym) : Option (List LocalModItemSym) :=
  if M.itemHasUnexpandedActiveAttribute (.item item) then some []
  else do
    let derived ← flatMapM (M.expandDerive resolve item) (M.derives (.item item))
    return item :: derived

def macroDefIsActive : MacroDefSymbol → Bool
  | .local id => M.itemHasUnexpandedActiveAttribute (.item (.other .macroDef id))
  | .ext _ => false

/-- One item, with the depth that is left. -/
@[grind =] def expandItem : Nat → UnexpandedItem → Option (List LocalModItemSym)
  | _, .error => some []
  | _, .item item => M.expandAttributeMacrosAndDerives resolve item
  | 0, .macroInvocation _ => some []
  | remaining + 1, .macroInvocation id =>
      if M.itemHasUnexpandedActiveAttribute (.macroInvocation id) then some []
      else
        match resolve (.bang (M.macroPath id)) with
        | none => none
        | some none => some []
        | some (some macroDef) =>
            if M.macroDefIsActive macroDef then some []
            else flatMapM (expandItem remaining) (M.parseOutput id macroDef)

def expandUnexpandedItems : Option (List LocalModItemSym) :=
  flatMapM (M.expandItem resolve maxExpansionDepth) M.unexpandedItems

end Resolve

/-! ### One round -/

/-- The database in which the module has the items given. -/
def dbAt (items : List LocalModItemSym) : SymbolDb :=
  { M.db with
    expandedItems := fun module =>
      if module = M.module then items else ((M.others items).lookup module).getD [] }

theorem dbAt_expandedItems (items : List LocalModItemSym) (module : LocalModSym) :
    (M.dbAt items).expandedItems module =
      if module = M.module then items else ((M.others items).lookup module).getD [] := rfl

def resolveMacro (fuel : Nat) (items : List LocalModItemSym) :
    MacroUse → Option (Option MacroDefSymbol)
  | .bang path => do
      let symbols ←
        (M.dbAt items).resolvePath .macroExpansion fuel (.local M.module) path (.macros .bang)
      return definiteMacro symbols
  | .derive name => do
      let symbols ← (M.dbAt items).resolvePath .macroExpansion fuel (.local M.module)
        (.relative name []) (.macros .derive)
      match definiteMacro symbols with
      | some (.ext definition) =>
          return if M.isBuiltinDerive definition then some (.ext definition) else none
      | _ => return none

/-- One round, with the list of the round before for its own items. -/
def localExpandedModuleItems (fuel : Nat) (previous : List LocalModItemSym) :
    Option (List LocalModItemSym) :=
  M.expandUnexpandedItems (M.resolveMacro fuel previous)

/-! ### Rounds -/

def Round (previous items : List LocalModItemSym) : Prop :=
  ∃ fuel, M.localExpandedModuleItems fuel previous = some items

/-- The lists of the rounds, from the empty one. -/
inductive Rounds : Nat → List LocalModItemSym → Prop
  | initial : Rounds 0 []
  | next {n previous items} (h : Rounds n previous) (hr : M.Round previous items) :
      Rounds (n + 1) items

/-- What a macro name resolves to where the module has the items given. -/
def Resolves (items : List LocalModItemSym) (use : MacroUse) (macroDef : Option MacroDefSymbol) :
    Prop :=
  ∃ fuel, M.resolveMacro fuel items use = some macroDef

/-- The macros that an item's expansion looks up. -/
def macroUses (selection : MacroUse → Option MacroDefSymbol) : Nat → UnexpandedItem → List MacroUse
  | _, .error => []
  | _, .item item =>
      if M.itemHasUnexpandedActiveAttribute (.item item) then []
      else (M.derives (.item item)).map fun entry => .derive entry.2.2
  | 0, .macroInvocation _ => []
  | remaining + 1, .macroInvocation id =>
      if M.itemHasUnexpandedActiveAttribute (.macroInvocation id) then []
      else .bang (M.macroPath id) ::
        match selection (.bang (M.macroPath id)) with
        | none => []
        | some macroDef =>
            if M.macroDefIsActive macroDef then []
            else (M.parseOutput id macroDef).flatMap (macroUses selection remaining)

/-- The macros that the expansion of the module looks up. -/
def Uses (selection : MacroUse → Option MacroDefSymbol) (use : MacroUse) : Prop :=
  ∃ item ∈ M.unexpandedItems, use ∈ M.macroUses selection maxExpansionDepth item

/-- The expansion of the module where macro names resolve as selected. -/
def Expands (selection : MacroUse → Option MacroDefSymbol) (items : List LocalModItemSym) : Prop :=
  M.expandUnexpandedItems (fun use => some (selection use)) = some items

/-- The rounds reach a list that the next one reproduces, and the macros it was expanded with,
found in the list before, are those found in itself. -/
def ReachesFixedPoint : Prop :=
  ∃ n previous items selection, M.Rounds n previous ∧ M.Round previous items ∧
    M.Round items items ∧ M.Expands selection items ∧
    ∀ use, M.Uses selection use →
      M.Resolves previous use (selection use) ∧ M.Resolves items use (selection use)

/-- A choice among the macros that names may resolve to. -/
def Within (candidates : MacroUse → Set (Option MacroDefSymbol))
    (selection : MacroUse → Option MacroDefSymbol) : Prop :=
  ∀ use, selection use ∈ candidates use

/-- Macro lookups stand in finitely many layers: what a lookup finds in a round, among the
candidates it has, is determined by what the lookups in lower layers found in the round before. -/
structure LayeredBy (candidates : MacroUse → Set (Option MacroDefSymbol))
    (layer : MacroUse → Nat) (height : Nat) : Prop where
  initial : ∀ use r, M.Resolves [] use r → r ∈ candidates use
  closed : ∀ selection items, Within candidates selection → M.Expands selection items →
    ∀ use r, M.Resolves items use r → r ∈ candidates use
  below : ∀ selection, Within candidates selection → ∀ use, M.Uses selection use →
    layer use < height
  determined : ∀ selection selection' items items', Within candidates selection →
    Within candidates selection' → M.Expands selection items → M.Expands selection' items' →
    ∀ use r r', (∀ lower, layer lower < layer use → selection lower = selection' lower) →
      M.Resolves items use r → M.Resolves items' use r' → layer use < height → r = r'

end LocalModule

end Sage.Resolve
