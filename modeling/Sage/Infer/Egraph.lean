import Mathlib.Data.List.AList
import Mathlib.Data.List.Sort
import Sage.Infer.Version
import Sage.Syntax.Skeleton

/-!
# Inference — the versioned union-find

`egraph.rs`: union-find, bounds, numeric domains and universe ceilings over types, kept once for
each version as a difference from its ancestors.  A lookup takes the entry of the nearest
ancestor that has one; a mutation writes to the leaf version it names.

`find` follows parent pointers.  The source's loop ends because the pointers have no cycle; the
definition stops after as many steps as there are recorded pointers, which is enough to reach
the representative whenever one is reached (`Chase.chase_eq_of_reaches`).

`rebuild` reads the reverse dependencies of a type from a hash set, whose iteration order is
not specified: `HashOrder` is that order, and the results hold for every one.
-/

namespace Sage

/-- The bound on an inference variable. -/
inductive Bound where
  | none
  | atLeast (ty : Ty)
  | exactly (ty : Ty)
deriving DecidableEq

def Bound.ty : Bound → Option Ty
  | .none => Option.none
  | .atLeast ty | .exactly ty => some ty

/-- The order in which a hash set of types is iterated. -/
class HashOrder where
  order : List Ty → List Ty
  perm : ∀ l, (order l).Perm l

instance (priority := low) HashOrder.insertion : HashOrder := ⟨id, fun _ => List.Perm.refl _⟩

/-- Per-version mutable inference state: a sparse difference from its ancestry. -/
structure VersionState where
  parents : AList fun _ : Ty => Ty
  bounds : AList fun _ : Ty => Bound
  domains : AList fun _ : Ty => InferDomain
  universeCeilings : AList fun _ : InferVarIndex => Universe
  dependents : AList fun _ : Ty => List Ty
  worklist : List Ty
  wakes : List InferVarIndex
  semanticRevision : UInt64

instance : Inhabited VersionState := ⟨⟨∅, ∅, ∅, ∅, ∅, [], [], 0⟩⟩

/-- Effects published by atomically collapsing a child into its parent. -/
structure CommitEffects where
  wakes : List InferVarIndex
  semanticRevision : UInt64
deriving DecidableEq

structure VersionedEGraph where
  versions : VersionTree
  states : List VersionState
  placeholderUniverses : AList fun _ : GenericParam => Universe

namespace VersionedEGraph

def new : VersionedEGraph := ⟨.new, [default], ∅⟩

def state (g : VersionedEGraph) (version : Version) : VersionState :=
  g.states[version]?.getD default

@[grind =]
def modifyState (g : VersionedEGraph) (version : Version) (f : VersionState → VersionState) :
    VersionedEGraph :=
  { g with states := g.states.modify version f }

/-- The states a lookup in `version` goes through, nearest first. -/
def layers (g : VersionedEGraph) (version : Version) : List VersionState :=
  (g.versions.ancestors version).map g.state

def semanticRevision (g : VersionedEGraph) (version : Version) : UInt64 :=
  (g.state version).semanticRevision

def markSemanticChange (g : VersionedEGraph) (version : Version) (wake : Option InferVarIndex) :
    VersionedEGraph :=
  g.modifyState version fun s =>
    { s with
      semanticRevision := s.semanticRevision + 1
      wakes := wake.elim s.wakes fun index => s.wakes.insert index }

/-! ### Union-find -/

def getParent (g : VersionedEGraph) (version : Version) (ty : Ty) : Ty :=
  ((g.layers version).findSome? fun s => s.parents.lookup ty).getD ty

def setParent (g : VersionedEGraph) (version : Version) (ty parent : Ty) : VersionedEGraph :=
  g.modifyState version fun s => { s with parents := s.parents.insert ty parent }

/-- The number of recorded parent pointers: no chain is longer. -/
def chainBound (g : VersionedEGraph) (version : Version) : Nat :=
  ((g.layers version).flatMap fun s => s.parents.keys).length

def find (g : VersionedEGraph) (version : Version) (ty : Ty) : Ty :=
  Chase.chase (g.getParent version) (g.chainBound version) ty

def compressPathFrom : Nat → VersionedEGraph → Version → Ty → Ty → VersionedEGraph
  | 0, g, _, _, _ => g
  | fuel + 1, g, version, ty, root =>
      let parent := g.getParent version ty
      if parent = root ∨ parent = ty then g
      else compressPathFrom fuel (g.setParent version ty root) version parent root

def compressPath (g : VersionedEGraph) (version : Version) (ty root : Ty) : VersionedEGraph :=
  compressPathFrom (g.chainBound version) g version ty root

def findMut (g : VersionedEGraph) (version : Version) (ty : Ty) : Ty × VersionedEGraph :=
  let root := g.find version ty
  (root, g.compressPath version ty root)

/-! ### Variables, domains and universes -/

def allocVarInDomain (g : VersionedEGraph) (version : Version) (u : Universe)
    (domain : InferDomain) : InferVarIndex × VersionedEGraph :=
  let (index, versions) := g.versions.allocVarInDomain version u domain
  (index, { g with versions }.modifyState version fun s =>
    { s with universeCeilings := s.universeCeilings.insert index u })

def allocVar (g : VersionedEGraph) (version : Version) (u : Universe) :
    InferVarIndex × VersionedEGraph :=
  g.allocVarInDomain version u .any

def currentUniverse (g : VersionedEGraph) (version : Version) (index : InferVarIndex) : Universe :=
  ((g.layers version).findSome? fun s => s.universeCeilings.lookup index).getD
    (g.versions.getVariable index).creationUniverse

/-- The restriction on the unresolved equality class containing `ty`; a class that is resolved
to a rigid type has none. -/
def effectiveDomain (g : VersionedEGraph) (version : Version) (ty : Ty) : Option InferDomain :=
  let root := g.find version ty
  match root with
  | .inferVar index =>
      some (((g.layers version).findSome? fun s => s.domains.lookup root).getD
        (g.versions.getVariable index).initialDomain)
  | _ => none

/-- Record a validated narrowing on the unresolved class represented by `ty`. -/
def setDomainIn (g : VersionedEGraph) (version : Version) (ty : Ty) (domain : InferDomain) :
    VersionedEGraph :=
  let root := g.find version ty
  match root with
  | .inferVar index =>
      if g.effectiveDomain version root = some domain then g
      else
        (g.modifyState version fun s => { s with domains := s.domains.insert root domain })
          |>.markSemanticChange version (some index)
  | _ => g

def lowerUniverse (g : VersionedEGraph) (version : Version) (index : InferVarIndex)
    (ceiling : Universe) : VersionedEGraph :=
  if g.currentUniverse version index ≤ ceiling then g
  else
    (g.modifyState version fun s =>
      { s with universeCeilings := s.universeCeilings.insert index ceiling })
      |>.markSemanticChange version (some index)

/-- A parameter is registered in one universe only; the source asserts it. -/
def registerPlaceholder (g : VersionedEGraph) (param : GenericParam) (u : Universe) :
    VersionedEGraph :=
  { g with placeholderUniverses := g.placeholderUniverses.insert param u }

def placeholderUniverse (g : VersionedEGraph) (param : GenericParam) : Universe :=
  (g.placeholderUniverses.lookup param).getD .root

/-! ### Version lifecycle -/

def branchFrom (g : VersionedEGraph) (parent : Version) : Version × VersionedEGraph :=
  let revision := g.semanticRevision parent
  let (child, versions) := g.versions.branchFrom parent
  (child, { g with
    versions
    states := g.states ++ [{ (default : VersionState) with semanticRevision := revision }] })

/-- The parent's state after it took over a child's. -/
def VersionState.extend (parent child : VersionState) : VersionState where
  parents := child.parents ∪ parent.parents
  bounds := child.bounds ∪ parent.bounds
  domains := child.domains ∪ parent.domains
  universeCeilings := child.universeCeilings ∪ parent.universeCeilings
  dependents := child.dependents.entries.foldl
    (fun dependents entry =>
      dependents.insert entry.1 (((dependents.lookup entry.1).getD []) ∪ entry.2))
    parent.dependents
  worklist := parent.worklist ++ child.worklist
  wakes := parent.wakes ∪ child.wakes
  semanticRevision := child.semanticRevision

/-- What the source asserts of a collapse: an exclusive leaf child of its direct parent. -/
def CanCollapse (g : VersionedEGraph) (child parent : Version) : Prop :=
  g.versions.isLive child = true ∧ g.versions.isLive parent = true ∧
    g.versions.parent child = some parent ∧ g.versions.children child = [] ∧
    g.versions.children parent = [child]

instance (g : VersionedEGraph) (child parent : Version) : Decidable (g.CanCollapse child parent) :=
  inferInstanceAs (Decidable (_ ∧ _))

/-- Atomically merge an exclusive leaf child into its direct parent. -/
def collapseInto (g : VersionedEGraph) (child parent : Version) :
    CommitEffects × VersionedEGraph :=
  let childState := g.state child
  let effects := ⟨childState.wakes.insertionSort (· ≤ ·), childState.semanticRevision⟩
  let g := g.modifyState child fun _ => default
  let g := g.modifyState parent fun parentState => VersionState.extend parentState childState
  let versions := g.versions.reownVariables child parent
  (effects, { g with versions := (versions.remove child).2 })

def discard (g : VersionedEGraph) (version : Version) : VersionedEGraph :=
  let (removed, versions) := g.versions.remove version
  removed.foldl (fun g version => g.modifyState version fun _ => default) { g with versions }

/-- The type a union re-points and the representative it points it at: a variable on the left
is re-pointed, else the right side is. -/
def unionEdge (leftRoot rightRoot : Ty) : Ty × Ty :=
  match leftRoot with
  | .inferVar _ => (leftRoot, rightRoot)
  | _ => (rightRoot, leftRoot)

/-- The variable whose waiters a re-pointed type wakes. -/
def changedVar : Ty → Option InferVarIndex
  | .inferVar index => some index
  | _ => none

/-- Union two classes; concrete and structured representatives are preferred. -/
@[grind =]
def union (g : VersionedEGraph) (version : Version) (left right : Ty) : Ty × VersionedEGraph :=
  let leftRoot := g.find version left
  let rightRoot := g.find version right
  if leftRoot = rightRoot then (leftRoot, g)
  else
    let (child, parent) := unionEdge leftRoot rightRoot
    let g := g.setParent version child parent
    let g := g.modifyState version fun s => { s with worklist := s.worklist ++ [child] }
    (parent, g.markSemanticChange version (changedVar child))

/-! ### Bounds -/

def getBound (g : VersionedEGraph) (version : Version) (ty : Ty) : Bound :=
  ((g.layers version).findSome? fun s => s.bounds.lookup ty).getD .none

/-- Set a bound inside an already transactional leaf version; `ty` is an inference variable. -/
def setBoundIn (g : VersionedEGraph) (version : Version) (ty : Ty) (bound : Bound) :
    VersionedEGraph :=
  match ty with
  | .inferVar index =>
      if g.getBound version ty = bound then g
      else
        (g.modifyState version fun s => { s with bounds := s.bounds.insert ty bound })
          |>.markSemanticChange version (some index)
  | _ => g

/-! ### Congruence closure -/

def addDependent (g : VersionedEGraph) (version : Version) (argTy parentTy : Ty) :
    VersionedEGraph :=
  g.modifyState version fun s =>
    { s with
      dependents := s.dependents.insert argTy
        (((s.dependents.lookup argTy).getD []).insert parentTy) }

def dependentsOf (g : VersionedEGraph) (version : Version) (ty : Ty) : List Ty :=
  (g.layers version).foldl (fun found s => found ∪ (s.dependents.lookup ty).getD []) []

def collectDependents [HashOrder] (g : VersionedEGraph) (version : Version) (ty : Ty) : List Ty :=
  HashOrder.order (g.dependentsOf version ty)

/-- The type over the representatives of the children, when a child has a new one. -/
def recanonicalize (g : VersionedEGraph) (version : Version) (ty : Ty) : Option Ty :=
  let decomposed := decompose ty
  if decomposed.children = [] then none
  else
    let newChildren := decomposed.children.map (g.find version)
    if newChildren = decomposed.children then none
    else recompose decomposed.skeleton newChildren

/-- The body of `rebuild`'s inner loop. -/
def rebuildDependent (version : Version) (acc : VersionedEGraph × List Ty) (dependent : Ty) :
    VersionedEGraph × List Ty :=
  let (g, changed) := acc
  let oldCanonical := g.find version dependent
  match g.recanonicalize version dependent with
  | none => (g, changed)
  | some newTy =>
      let newCanonical := g.find version newTy
      if newCanonical = oldCanonical then (g, changed)
      else
        let g := g.setParent version dependent newCanonical
        let g := g.modifyState version fun s => { s with worklist := s.worklist ++ [dependent] }
        (g, changed ++ [dependent])

/-- One merged type of `rebuild`'s worklist. -/
def rebuildMerged [HashOrder] (version : Version) (acc : VersionedEGraph × List Ty) (merged : Ty) :
    VersionedEGraph × List Ty :=
  (acc.1.collectDependents version merged).foldl (rebuildDependent version) acc

/-- `rebuild`, with fuel for the rounds of its worklist. -/
def rebuildFrom [HashOrder] : Nat → Version → VersionedEGraph × List Ty →
    Option (List Ty × VersionedEGraph)
  | 0, _, _ => none
  | fuel + 1, version, (g, changed) =>
      let worklist := (g.state version).worklist
      let g := g.modifyState version fun s => { s with worklist := [] }
      if worklist = [] then some (changed, g)
      else rebuildFrom fuel version (worklist.foldl (rebuildMerged version) (g, changed))

def rebuild [HashOrder] (fuel : Nat) (g : VersionedEGraph) (version : Version) :
    Option (List Ty × VersionedEGraph) :=
  rebuildFrom fuel version (g, [])

end VersionedEGraph

end Sage
