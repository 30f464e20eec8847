import Sage.Infer.Egraph
import Sage.Solve.Goal

/-!
# Solve — canonical queries

`canonical.rs`: a goal over a caller's egraph becomes a query over numbered parameters.  The
assumptions are visited first, then the goal; a representative that is a variable becomes an
existential input, a parameter a rigid one, each when it is first met, and the parameters of
binders are numbered in the same sequence.  Universes are made relative to the oldest of the
inputs and the current one.
-/

namespace Sage

/-- What an input of a query stands for in the caller. -/
inductive CallerCanonicalVar where
  | rigid (param : GenericParam)
  | existential (index : InferVarIndex)
deriving DecidableEq

structure CanonicalMapping where
  absoluteUniverseBase : Universe
  inputs : List CallerCanonicalVar
deriving DecidableEq

structure InputInfo where
  param : AlphaEquivParam
  kind : GenericParamKind
  role : CanonicalVarRole
  absoluteUniverse : Universe
  domain : InferDomain
  caller : CallerCanonicalVar

structure Canonicalizer where
  nextParam : Nat
  freeParams : GenericParam → Option AlphaEquivParam
  inferVars : InferVarIndex → Option AlphaEquivParam
  inputs : List InputInfo

namespace Canonicalizer

def new : Canonicalizer := ⟨0, fun _ => none, fun _ => none, []⟩

/-- A traversal that updates the maps; it gives nothing without enough fuel. -/
abbrev Fold := StateT Canonicalizer Option

variable (g : VersionedEGraph) (version : Version)

def freshAlpha (kind : GenericParamKind) : Fold AlphaEquivParam := fun c =>
  some (⟨kind, c.nextParam⟩, { c with nextParam := c.nextParam + 1 })

def pushInput (info : InputInfo) : Fold Unit := fun c =>
  some ((), { c with inputs := c.inputs ++ [info] })

@[grind =] def foldGenericParam (binders : Binders) (param : GenericParam) : Fold GenericParam := do
  match binders param with
  | some mapped => return mapped
  | none =>
      match (← get).freeParams param with
      | some mapped => return .alphaEquiv mapped
      | none =>
          let alpha ← freshAlpha param.kind
          modify fun c => { c with freeParams := Function.update c.freeParams param (some alpha) }
          pushInput ⟨alpha, param.kind, .rigidPlaceholder, g.placeholderUniverse param, .any,
            .rigid param⟩
          return .alphaEquiv alpha

def foldConst (binders : Binders) : Const → Fold Const
  | .param param => return .param (← foldGenericParam g binders param)
  | other => return other

/-- An unresolved representative: an input of the query from its first occurrence on. -/
def foldInferVar (index : InferVarIndex) : Fold AlphaEquivParam := do
  match (← get).inferVars index with
  | some param => return param
  | none =>
      let param ← freshAlpha .type
      modify fun c => { c with inferVars := Function.update c.inferVars index (some param) }
      pushInput ⟨param, .type, .existentialInput, g.currentUniverse version index,
        (g.effectiveDomain version (.inferVar index)).getD .any, .existential index⟩
      return param

@[grind =] def foldTy : Nat → Binders → Ty → Fold Ty
  | 0, _, _ => failure
  | fuel + 1, binders, ty =>
      match g.find version ty with
      | .param param => return .param (← foldGenericParam g binders param)
      | .inferVar index => return .param (.alphaEquiv (← foldInferVar g version index))
      | root => root.mapChildrenM (foldTy fuel binders) (foldConst g binders)

def walker (fuel : Nat) : Walker Fold where
  ty := foldTy g version fuel
  rename param := return .alphaEquiv (← freshAlpha param.kind)

def foldSolverGoal (fuel : Nat) : SolverGoal → Fold SolverGoal
  | .prove goal => return .prove (← goal.walk (walker g version fuel) fun _ => none)
  | .normalize alias_ => return .normalize (← alias_.mapM (foldTy g version fuel fun _ => none))

end Canonicalizer

namespace VersionedEGraph

def canonicalizeSolverGoal (fuel : Nat) (g : VersionedEGraph) (version : Version)
    (currentUniverse : Universe) (assumptionsComplete : Bool) (assumptions : List Assumption)
    (goal : SolverGoal) : Option (GoalQueryData × CanonicalMapping) := do
  let w := Canonicalizer.walker g version fuel
  let (assumptions, c) ← (walkAssumptions w (fun _ => none) assumptions).run .new
  let (goal, c) ← (Canonicalizer.foldSolverGoal g version fuel goal).run c
  let base := (c.inputs.map InputInfo.absoluteUniverse).foldl min currentUniverse
  let data : GoalQueryData :=
    { canonicalUniverse := currentUniverse - base
      canonicalVars := c.inputs.map fun info =>
        ⟨info.param, info.kind, info.role, info.absoluteUniverse - base, info.domain⟩
      nextResponseParam := c.nextParam
      assumptionsComplete
      assumptions := Assumption.flatten assumptions
      goal }
  return (data, ⟨base, c.inputs.map InputInfo.caller⟩)

def canonicalizeGoal (fuel : Nat) (g : VersionedEGraph) (version : Version)
    (currentUniverse : Universe) (assumptionsComplete : Bool) (assumptions : List Assumption)
    (goal : Goal) : Option (GoalQueryData × CanonicalMapping) :=
  g.canonicalizeSolverGoal fuel version currentUniverse assumptionsComplete assumptions
    (.prove goal)

end VersionedEGraph

end Sage
