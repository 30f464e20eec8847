import Sage.Infer.View
import Sage.Library.Loop

/-!
# Inference — structural unification

`unify.rs`: equalities applied in a child version that is collapsed on success and discarded on
failure.  A recursion of the source that is bounded only by the shape of the types takes fuel
here and gives `none` without enough of it; `UnifyError` is the source's result for a rejected
equality, and the state returned with it is the partially mutated one.

* `unifyInProbe` — partially mutating unification, used inside a transaction.
* `tryProbe` — one transaction: branch, operate, then rebuild and collapse, or discard.
* `tryUnify`, `tryUnifyBatch`, `tryUnifyRequired`, `trySetBound`, `installErrorRecovery`.
-/

namespace Sage

open Loop

inductive UnifyError where
  | mismatch (left right : Ty)
  | occursCheck (variable_ : InferVarIndex) (inTy : Ty)
  | universeLeak (variable_ : InferVarIndex) (ceiling : Universe)
  | domainConflict (left : Ty) (leftDomain : Option InferDomain) (right : Ty)
      (rightDomain : Option InferDomain)
  | reported (e : ErrorReported)
deriving DecidableEq

namespace VersionedEGraph

/-- The domain a diagnostic reports for a class, resolved or not. -/
def semanticDomain (g : VersionedEGraph) (version : Version) (ty : Ty) : Option InferDomain :=
  let root := g.find version ty
  match g.effectiveDomain version root with
  | some domain => some domain
  | none =>
      match root with
      | .int _ | .uint _ => some .integer
      | .float _ => some .float
      | _ => none

def domainConflict (g : VersionedEGraph) (version : Version) (left right : Ty) : UnifyError :=
  .domainConflict left (g.semanticDomain version left) right (g.semanticDomain version right)

/-- The intersection when both sides are unresolved classes; a variable related to a rigid type
passes membership and gives none. -/
@[grind =] def compatibleDomain (g : VersionedEGraph) (version : Version) (left right : Ty) :
    Except UnifyError (Option InferDomain) :=
  let left := g.find version left
  let right := g.find version right
  match g.effectiveDomain version left, g.effectiveDomain version right with
  | some leftDomain, some rightDomain =>
      match leftDomain.intersect rightDomain with
      | some domain => .ok (some domain)
      | none => .error (g.domainConflict version left right)
  | some domain, none =>
      if domain.admits right then .ok none else .error (g.domainConflict version left right)
  | none, some domain =>
      if domain.admits left then .ok none else .error (g.domainConflict version left right)
  | none, none => .ok none

/-- `any` over a list, threading the visited set and stopping at the first hit. -/
def anyVisited (f : Ty → List Ty → Option (Bool × List Ty)) :
    List Ty → List Ty → Option (Bool × List Ty)
  | [], visited => some (false, visited)
  | ty :: tys, visited =>
      match f ty visited with
      | none => none
      | some (true, visited) => some (true, visited)
      | some (false, visited) => anyVisited f tys visited

def occursIn (g : VersionedEGraph) (version : Version) (needle : InferVarIndex) :
    Nat → Ty → List Ty → Option (Bool × List Ty)
  | 0, _, _ => none
  | fuel + 1, ty, visited =>
      let ty := g.find version ty
      if ty ∈ visited then some (false, visited)
      else
        let visited := ty :: visited
        match ty with
        | .inferVar index =>
            if index = needle then some (true, visited)
            else
              match (g.getBound version ty).ty with
              | none => some (false, visited)
              | some bound => g.occursIn version needle fuel bound visited
        | _ => anyVisited (g.occursIn version needle fuel) (decompose ty).children visited

/-- The placeholder a type names at its head: itself, or its array length. -/
def headPlaceholder : Ty → Option GenericParam
  | .param param => some param
  | .array _ (.param param) => some param
  | _ => none

/-- What `makeAccessible` does with the head of a representative; `recurse` is its call on the
bound of a variable. -/
def accessHead (version : Version) (outerVariable : InferVarIndex) (ceiling : Universe)
    (recurse : Ty → List Ty × VersionedEGraph →
      Outcome UnifyError (List Ty × VersionedEGraph) Unit)
    (ty : Ty) : List Ty × VersionedEGraph → Outcome UnifyError (List Ty × VersionedEGraph) Unit
  | (visited, g) =>
      match ty with
      | .inferVar variable_ =>
          let g := g.lowerUniverse version variable_ ceiling
          match (g.getBound version ty).ty with
          | some bound => recurse bound (visited, g)
          | none => some (.ok (), (visited, g))
      | _ =>
          match headPlaceholder ty with
          | some param =>
              if ceiling < g.placeholderUniverse param then
                some (.error (.universeLeak outerVariable ceiling), (visited, g))
              else some (.ok (), (visited, g))
          | none => some (.ok (), (visited, g))

/-- Lower nested flexible variables to `ceiling` and reject inaccessible rigid parameters; the
state is the visited set and the egraph. -/
def makeAccessible (version : Version) (outerVariable : InferVarIndex) (ceiling : Universe) :
    Nat → Ty → List Ty × VersionedEGraph → Outcome UnifyError (List Ty × VersionedEGraph) Unit
  | 0, _, _ => none
  | fuel + 1, ty, (visited, g) =>
      let recurse := makeAccessible version outerVariable ceiling fuel
      let ty := g.find version ty
      if ty ∈ visited then some (.ok (), (visited, g))
      else
        andThen (accessHead version outerVariable ceiling recurse ty (ty :: visited, g))
          fun _ => forEach recurse (decompose ty).children

def bindVariable (fuel : Nat) (g : VersionedEGraph) (version : Version) (variableTy : Ty)
    (variable_ : InferVarIndex) (value : Ty) : Outcome UnifyError VersionedEGraph Unit :=
  match g.occursIn version variable_ fuel value [] with
  | none => none
  | some (true, _) => some (.error (.occursCheck variable_ value), g)
  | some (false, _) =>
      let ceiling := g.currentUniverse version variable_
      match makeAccessible version variable_ ceiling fuel value ([], g) with
      | none => none
      | some (.error e, (_, g)) => some (.error e, g)
      | some (.ok (), (_, g)) =>
          let g := g.setBoundIn version variableTy (.exactly value)
          some (.ok (), (g.union version variableTy value).2)

/-- The children of two compound types are registered with them before they are unified. -/
def addDependents (g : VersionedEGraph) (version : Version) (parentTy : Ty) : VersionedEGraph :=
  (decompose parentTy).children.foldl (fun g child => g.addDependent version child parentTy) g

/-- Two unresolved classes: they get a common domain and the lower of their universes. -/
def unifyVariables (g : VersionedEGraph) (version : Version) (left right : Ty)
    (leftVar rightVar : InferVarIndex) : Outcome UnifyError VersionedEGraph Unit :=
  match g.compatibleDomain version left right with
  | .error e => some (.error e, g)
  | .ok domain =>
      let commonCeiling :=
        min (g.currentUniverse version leftVar) (g.currentUniverse version rightVar)
      let g := g.lowerUniverse version leftVar commonCeiling
      let g := g.lowerUniverse version rightVar commonCeiling
      let (root, g) := g.union version left right
      some (.ok (), g.setDomainIn version root (domain.getD .any))

/-- Two rigid types: their children are registered and unified before the types are merged. -/
def unifyRigid (recurse : Ty → Ty → VersionedEGraph → Outcome UnifyError VersionedEGraph Unit)
    (g : VersionedEGraph) (version : Version) (left right : Ty) :
    Outcome UnifyError VersionedEGraph Unit :=
  let leftDecomposed := decompose left
  let rightDecomposed := decompose right
  if leftDecomposed.skeleton ≠ rightDecomposed.skeleton ∨
      leftDecomposed.children.length ≠ rightDecomposed.children.length then
    some (.error (.mismatch left right), g)
  else
    let g := g.addDependents version left
    let g := g.addDependents version right
    andThen
      (forEach (fun (pair : Ty × Ty) => recurse pair.1 pair.2)
        (leftDecomposed.children.zip rightDecomposed.children) g)
      fun _ g => some (.ok (), (g.union version left right).2)

/-- Unify two representatives. -/
def unifyRoots (fuel : Nat)
    (recurse : Ty → Ty → VersionedEGraph → Outcome UnifyError VersionedEGraph Unit)
    (g : VersionedEGraph) (version : Version) (left right : Ty) :
    Outcome UnifyError VersionedEGraph Unit :=
  if left = right then some (.ok (), g)
  else
    match left, right with
    | .error e, _ | _, .error e => some (.error (.reported e), g)
    | .inferVar leftVar, .inferVar rightVar =>
        g.unifyVariables version left right leftVar rightVar
    | .inferVar variable_, _ =>
        match g.compatibleDomain version left right with
        | .error e => some (.error e, g)
        | .ok _ => g.bindVariable fuel version left variable_ right
    | _, .inferVar variable_ =>
        match g.compatibleDomain version left right with
        | .error e => some (.error e, g)
        | .ok _ => g.bindVariable fuel version right variable_ left
    | _, _ => g.unifyRigid recurse version left right

/-- Partially mutating unification used only inside an owning transaction. -/
def unifyInProbe : Nat → Version → Ty → Ty → VersionedEGraph →
    Outcome UnifyError VersionedEGraph Unit
  | 0, _, _, _, _ => none
  | fuel + 1, version, left, right, g =>
      let (left, g) := g.findMut version left
      let (right, g) := g.findMut version right
      g.unifyRoots fuel (unifyInProbe fuel version) version left right

section Transaction

variable [HashOrder]

/-- Own a short-lived child probe from creation through exactly one commit or discard. -/
def tryProbe {α : Type} (fuel : Nat) (g : VersionedEGraph) (parent : Version)
    (operation : Version → VersionedEGraph → Outcome UnifyError VersionedEGraph α) :
    Outcome UnifyError VersionedEGraph (α × CommitEffects) :=
  let (child, g) := g.branchFrom parent
  match operation child g with
  | none => none
  | some (.ok value, g) =>
      match g.rebuild fuel child with
      | none => none
      | some (_, g) =>
          let (effects, g) := g.collapseInto child parent
          some (.ok (value, effects), g)
  | some (.error e, g) => some (.error e, g.discard child)

/-- Apply a batch of structural equalities in one transaction. -/
def tryUnifyBatch (fuel : Nat) (g : VersionedEGraph) (parent : Version)
    (equalities : List (Ty × Ty)) :
    Outcome UnifyError VersionedEGraph (Unit × CommitEffects) :=
  g.tryProbe fuel parent fun child =>
    forEach (fun (pair : Ty × Ty) => unifyInProbe fuel child pair.1 pair.2) equalities

/-- Apply one structural equality atomically against `parent`. -/
def tryUnify (fuel : Nat) (g : VersionedEGraph) (parent : Version) (left right : Ty) :
    Outcome UnifyError VersionedEGraph (Unit × CommitEffects) :=
  g.tryUnifyBatch fuel parent [(left, right)]

/-- Set a bound atomically, including universe validation and lowering. -/
def trySetBound (fuel : Nat) (g : VersionedEGraph) (parent : Version) (variableTy : Ty)
    (bound : Bound) : Outcome UnifyError VersionedEGraph (Unit × CommitEffects) :=
  g.tryProbe fuel parent fun child g =>
    let variableTy := g.find child variableTy
    match variableTy with
    | .inferVar variable_ =>
        let accepted : Outcome UnifyError VersionedEGraph Unit :=
          match bound with
          | .none => some (.ok (), g)
          | .atLeast boundTy =>
              match makeAccessible child variable_ (g.currentUniverse child variable_) fuel boundTy
                ([], g) with
              | none => none
              | some (r, (_, g)) => some (r, g)
          | .exactly boundTy => unifyInProbe fuel child variableTy boundTy g
        andThen accepted fun _ g => some (.ok (), g.setBoundIn child variableTy bound)
    | _ => some (.error (.mismatch variableTy (bound.ty.getD variableTy)), g)

/-- Install a previously reported error as the exact recovery type. -/
def installErrorRecovery (fuel : Nat) (g : VersionedEGraph) (parent : Version)
    (variableTy errorTy : Ty) : Outcome UnifyError VersionedEGraph (Unit × CommitEffects) :=
  g.tryProbe fuel parent fun child g =>
    let variableTy := g.find child variableTy
    let errorTy := g.find child errorTy
    match variableTy, errorTy with
    | .inferVar _, .error _ =>
        let g := g.setBoundIn child variableTy (.exactly errorTy)
        some (.ok (), (g.union child variableTy errorTy).2)
    | _, _ => some (.error (.mismatch variableTy errorTy), g)

/-- Expand the unresolved classes of the two conflicting child types to every member the parent
can see. -/
def affectedVariables (g : VersionedEGraph) (parent child : Version) (left right : Ty) :
    List InferVarIndex :=
  let roots := ([left, right].map (g.find child)).filter fun root => ¬ root.Rigid
  (g.versions.visibleVariables parent).filter fun variable_ =>
    roots.contains (g.find child (.inferVar variable_))

structure RequiredUnifyFailure where
  error : UnifyError
  affected : List InferVarIndex
deriving DecidableEq

/-- Attempt a source-required equality in a child transaction. -/
def tryUnifyRequired (fuel : Nat) (g : VersionedEGraph) (parent : Version) (left right : Ty) :
    Outcome RequiredUnifyFailure VersionedEGraph CommitEffects :=
  let (child, g) := g.branchFrom parent
  match unifyInProbe fuel child left right g with
  | none => none
  | some (.ok (), g) =>
      match g.rebuild fuel child with
      | none => none
      | some (_, g) =>
          let (effects, g) := g.collapseInto child parent
          some (.ok effects, g)
  | some (.error e, g) =>
      let affected := match e with
        | .domainConflict left _ right _ => g.affectedVariables parent child left right
        | _ => []
      some (.error ⟨e, affected⟩, g.discard child)

end Transaction

end VersionedEGraph

end Sage
