import Sage.Resolve.FixedPoint

/-!
# Resolve — impl discovery

`local_syms/mods.rs` and `local_syms/impls.rs`: the impls of a trait among the expanded items of a
crate, with whether expansion can have hidden another one.  A second walk over the unexpanded
items looks for what the expansion leaves out.

* `bangMacroExpansionComplete`, `moduleExpansionCompleteForTrait` — the second walk.
* `localImplCandidates` — the impls found, module by module.
-/

namespace Sage.Resolve

/-- The modules of a crate, expanded. -/
structure LocalCrate where
  root : LocalModSym
  module : LocalModSym → LocalModule
  /-- `local_expanded_module_items`. -/
  items : LocalModSym → List LocalModItemSym
  /-- The rounds of every module have settled, each in the view of the others. -/
  settled : ∀ m, (module m).Round (items m) (items m)
  expanded : ∀ m m', ((module m).dbAt (items m)).expandedItems m' = items m'
  hasTraitPath : Nat → Bool
  /-- What the trait path of an impl header resolves to. -/
  traitSymbol : Nat → Option Symbol
  /-- The trait of the lowered header. -/
  sigTrait : Nat → Option Symbol
  /-- The trait a derive is taken for by its name. -/
  builtinDeriveTrait : Name → Option Symbol

structure LocalImplCandidates where
  impls : List Nat
  complete : Bool

/-- Structs and enums can have derives. -/
def LocalModItemSym.mayHaveDerive : LocalModItemSym → Bool
  | .other .struct _ => true
  | .other .enum _ => true
  | _ => false

namespace LocalModule

variable (M : LocalModule) (resolve : MacroUse → Option (Option MacroDefSymbol))

/-- Everything an invocation expands to is known, with the depth that is left. -/
def bangMacroExpansionComplete : Nat → Nat → Option Bool
  | 0, _ => some false
  | remaining + 1, invocation =>
      if M.itemHasUnexpandedActiveAttribute (.macroInvocation invocation) then some false
      else
        match resolve (.bang (M.macroPath invocation)) with
        | none => none
        | some none => some false
        | some (some macroDef) =>
            if M.macroDefIsActive macroDef then some false
            else (M.parseOutput invocation macroDef).allM fun item =>
              if M.itemHasUnexpandedActiveAttribute item then some false
              else
                match item with
                | .macroInvocation nested => bangMacroExpansionComplete remaining nested
                | .error => some false
                | .item _ => some true

def unexpandedItemComplete (item : UnexpandedItem) : Option Bool :=
  if M.itemHasUnexpandedActiveAttribute item then some false
  else
    match item with
    | .macroInvocation invocation =>
        M.bangMacroExpansionComplete resolve maxExpansionDepth invocation
    | .error => some false
    | .item _ => some true

end LocalModule

namespace LocalCrate

variable (C : LocalCrate) (fuel : Nat)

def resolveMacro (module : LocalModSym) : MacroUse → Option (Option MacroDefSymbol) :=
  (C.module module).resolveMacro fuel (C.items module)

def deriveCompleteForTrait (module : LocalModSym) (item : LocalModItemSym) (deriveName : Name)
    (targetTrait : Symbol) : Option Bool := do
  match ← C.resolveMacro fuel module (.derive deriveName) with
  | none => return false
  | some _ =>
      if (C.module module).expandBuiltinDerive deriveName item then return true
      else
        match C.builtinDeriveTrait deriveName with
        | some derivedTrait => return derivedTrait ≠ targetTrait
        | none => return false

def expandedItemComplete (module : LocalModSym) (targetTrait : Symbol) (item : LocalModItemSym) :
    Option Bool :=
  if (C.module module).itemHasUnexpandedActiveAttribute (.item item) then some false
  else if !item.mayHaveDerive then some true
  else ((C.module module).derives (.item item)).allM fun entry =>
    C.deriveCompleteForTrait fuel module item entry.2.2 targetTrait

def moduleExpansionCompleteForTrait (module : LocalModSym) (targetTrait : Symbol) :
    Option Bool := do
  let unexpanded ← (C.module module).unexpandedItems.allM
    ((C.module module).unexpandedItemComplete (C.resolveMacro fuel module))
  if unexpanded then
    (C.items module).allM (C.expandedItemComplete fuel module targetTrait)
  else return false

/-- What an impl adds to the candidates. -/
def visitImpl (module : LocalModSym) (targetTrait : Symbol) (impl : Nat)
    (found : LocalImplCandidates) : LocalImplCandidates :=
  if (C.module module).itemHasUnexpandedActiveAttribute (.item (.other .impl impl)) then
    { found with complete := false }
  else
    match C.traitSymbol impl with
    | some traitSymbol =>
        if traitSymbol = targetTrait then
          if C.sigTrait impl = some targetTrait then { found with impls := found.impls ++ [impl] }
          else { found with complete := false }
        else found
    | none => if C.hasTraitPath impl then { found with complete := false } else found

/-- The candidates of a module and its children, added to those found. -/
def visit (targetTrait : Symbol) :
    Nat → LocalModSym → LocalImplCandidates → Option LocalImplCandidates
  | 0, _, _ => none
  | depth + 1, module, found => do
      let complete ← C.moduleExpansionCompleteForTrait fuel module targetTrait
      (C.items module).foldlM (fun found item =>
        match item with
        | .other .impl impl => some (C.visitImpl module targetTrait impl found)
        | .mod child =>
            if (C.module module).itemHasUnexpandedActiveAttribute (.item (.mod child)) then
              some { found with complete := false }
            else visit targetTrait depth child found
        | _ => some found) { found with complete := found.complete && complete }

def localImplCandidates (targetTrait : Symbol) : Option LocalImplCandidates :=
  C.visit fuel targetTrait fuel C.root ⟨[], true⟩

end LocalCrate

end Sage.Resolve
