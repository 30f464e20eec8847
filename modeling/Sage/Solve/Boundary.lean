import Sage.Infer.Unify
import Sage.Solve.Canonical
import Mathlib.Algebra.Group.Nat.Defs

/-!
# Solve — the boundary between caller and solver

`boundary.rs`.  A canonical query is instantiated in a fresh egraph, an answer is extracted from
a version of that egraph, and the caller applies the answer in one transaction.  Three
traversals rename types on the way: the copier of instances and responses, and the extractor.

* `instantiateQuery` — rigid inputs become placeholders, existential ones variables.
* `extractQueryResult` — an answer over the inputs and new response parameters.
* `applyQueryResponse` — the answer's constraints, unified in a child of the caller's version.
-/

namespace Sage

open Loop

abbrev TypeMapping := GenericParam → Option Ty

/-! ### The copier -/

namespace IrCopier

/-- The number the next binder parameter gets, where binders are renamed at all. -/
abbrev Copy := StateM (Option Nat)

/-- A mapped parameter is replaced even where a binder has its name. -/
def copyTy (mapping : TypeMapping) (binders : Binders) : Ty → Ty :=
  Ty.foldLeaves .inferVar (fun p => (mapping p).getD (.param (binders.resolve p))) fun
    | .param p => .param (binders.resolve p)
    | other => other

def walker (mapping : TypeMapping) : Walker Copy where
  ty binders ty := return copyTy mapping binders ty
  rename source := do
    match ← get with
    | some next =>
        set (some (next + 1))
        return .alphaEquiv ⟨source.kind, next⟩
    | none => return source

def copyGoal (mapping : TypeMapping) (freshBinders : Option Nat) (goal : Goal) : Goal :=
  ((goal.walk (walker mapping) fun _ => none).run freshBinders).1

def copyAssumptions (mapping : TypeMapping) (assumptions : List Assumption) : List Assumption :=
  Assumption.flatten ((walkAssumptions (walker mapping) (fun _ => none) assumptions).run none).1

def copyAlias (mapping : TypeMapping) (alias_ : AliasTy) : AliasTy :=
  Id.run (alias_.mapM fun ty => pure (copyTy mapping (fun _ => none) ty))

def copySolverGoal (mapping : TypeMapping) : SolverGoal → SolverGoal
  | .prove goal => .prove (copyGoal mapping none goal)
  | .normalize alias_ => .normalize (copyAlias mapping alias_)

def copyOutput (mapping : TypeMapping) : GoalOutput → GoalOutput
  | .proven => .proven
  | .type ty => .type (copyTy mapping (fun _ => none) ty)

end IrCopier

/-! ### Instances of a query -/

structure InputInstance where
  param : AlphaEquivParam
  role : CanonicalVarRole
  domain : InferDomain
  universe_ : Universe
  ty : Ty

/-- One isolated execution of a canonical query. -/
structure QueryProofState where
  egraph : VersionedEGraph
  version : Version
  inputs : List InputInstance
  assumptions : List Assumption
  assumptionsComplete : Bool
  goal : SolverGoal
  canonicalUniverse : Universe
  nextResponseParam : Nat

/-- The type an input becomes in the instance: a placeholder or a new variable. -/
def instantiateInput (g : VersionedEGraph) (version : Version) (info : CanonicalVarInfo) :
    Ty × VersionedEGraph :=
  match info.role with
  | .rigidPlaceholder =>
      let generic := GenericParam.alphaEquiv info.param
      (.param generic, g.registerPlaceholder generic info.relativeUniverse)
  | .existentialInput =>
      let (index, g) := g.allocVarInDomain version info.relativeUniverse info.domain
      (.inferVar index, g)

def instantiateInputs (version : Version) :
    List CanonicalVarInfo → VersionedEGraph × TypeMapping × List InputInstance →
      VersionedEGraph × TypeMapping × List InputInstance
  | [], acc => acc
  | info :: infos, (g, mapping, inputs) =>
      let (ty, g) := instantiateInput g version info
      instantiateInputs version infos
        (g, Function.update mapping (.alphaEquiv info.param) (some ty),
          inputs ++ [⟨info.param, info.role, info.domain, info.relativeUniverse, ty⟩])

/-- Import a canonical query into a fresh egraph. -/
def instantiateQuery (data : GoalQueryData) : QueryProofState :=
  let version := Version.root
  let (egraph, mapping, inputs) :=
    instantiateInputs version data.canonicalVars (.new, fun _ => none, [])
  { egraph
    version
    inputs
    assumptions := IrCopier.copyAssumptions mapping data.assumptions
    assumptionsComplete := data.assumptionsComplete
    goal := IrCopier.copySolverGoal mapping data.goal
    canonicalUniverse := data.canonicalUniverse
    nextResponseParam := data.nextResponseParam }

/-! ### Extraction of a response -/

/-- What the extractor has met: parameters for variables without an input. -/
structure ResponseExtractor where
  responseParams : InferVarIndex → Option AlphaEquivParam
  responseVars : List ResponseVarInfo
  nextResponseParam : Nat

namespace ResponseExtractor

abbrev Extract := StateT ResponseExtractor Option

variable (state : QueryProofState) (version : Version)

/-- An input whose class is still unresolved, in its own domain and universe. -/
def Represents (input : InputInstance) (root : Ty) : Prop :=
  input.role = .existentialInput ∧ ¬ root.Rigid ∧ state.egraph.find version input.ty = root ∧
    state.egraph.effectiveDomain version root = some input.domain ∧
    ∀ index, root = .inferVar index →
      state.egraph.currentUniverse version index = input.universe_

instance (input : InputInstance) (root : Ty) :
    Decidable (Represents state version input root) := by
  have h : Decidable (∀ index, root = .inferVar index →
      state.egraph.currentUniverse version index = input.universe_) :=
    match root with
    | .inferVar index =>
        decidable_of_iff (state.egraph.currentUniverse version index = input.universe_) (by simp)
    | .bool | .char | .int _ | .uint _ | .float _ | .str | .adt _ _ | .alias _ | .ref _ _ _
    | .tuple _ | .slice _ | .array _ _ | .fnPtr _ _ | .param _ | .never | .error _ =>
        isTrue (by simp)
  unfold Represents
  infer_instance

/-- The first input that represents an unresolved class. -/
def classInput (root : Ty) : Option AlphaEquivParam :=
  (state.inputs.find? fun input => Represents state version input root).map InputInstance.param

/-- A variable that no input represents becomes a response parameter. -/
def responseVar (index : InferVarIndex) : Extract AlphaEquivParam := fun e =>
  match e.responseParams index with
  | some param => some (param, e)
  | none =>
      let param : AlphaEquivParam := ⟨.type, e.nextResponseParam⟩
      let info : ResponseVarInfo :=
        ⟨param, .type, state.egraph.currentUniverse version index,
          (state.egraph.effectiveDomain version (.inferVar index)).getD .any⟩
      some (param,
        { responseParams := Function.update e.responseParams index (some param)
          responseVars := e.responseVars ++ [info]
          nextResponseParam := e.nextResponseParam + 1 })

def copyConst (binders : Binders) : Const → Const
  | .param param => .param (binders.resolve param)
  | other => other

/-- The source asks first whether the input a variable instantiates represents its own class;
the answer is the same. -/
def copyTy : Nat → Binders → Ty → Extract Ty
  | 0, _, _ => failure
  | fuel + 1, binders, ty =>
      match state.egraph.find version ty with
      | .param param => return .param (binders.resolve param)
      | .inferVar index =>
          match classInput state version (.inferVar index) with
          | some param => return .param (.alphaEquiv param)
          | none => return .param (.alphaEquiv (← responseVar state version index))
      | root => root.mapChildrenM (copyTy fuel binders) fun c => return copyConst binders c

def walker (fuel : Nat) : Walker Extract where
  ty := copyTy state version fuel
  rename source := fun e =>
    some (.alphaEquiv ⟨source.kind, e.nextResponseParam⟩,
      { e with nextResponseParam := e.nextResponseParam + 1 })

def copyOutput (fuel : Nat) : GoalOutput → Extract GoalOutput
  | .proven => return .proven
  | .type ty => return .type (← copyTy state version fuel (fun _ => none) ty)

/-- The value of one existential input, unless it is the input itself. -/
def extractEntry (fuel : Nat) (input : InputInstance) : Extract (Option SubstEntry) := do
  match input.role with
  | .rigidPlaceholder => return none
  | .existentialInput =>
      let value ← copyTy state version fuel (fun _ => none) input.ty
      if value = .param (.alphaEquiv input.param) then return none
      else return some ⟨input.param, value⟩

def extractSubstitution (fuel : Nat) : Extract (List SubstEntry) :=
  return (← state.inputs.mapM (extractEntry state version fuel)).filterMap id

def extractValue (fuel : Nat) (output : GoalOutput) : GoalResult → Extract QueryResultData
  | .no => return .no
  | .maybe => return .maybe (← extractSubstitution state version fuel)
  | .yes modulo => do
      let subst ← extractSubstitution state version fuel
      let output ← copyOutput state version fuel output
      return .yes output subst (← modulo.walk (walker state version fuel) fun _ => none)

end ResponseExtractor

/-- Extract a version of a proof state into a self-contained canonical response. -/
def extractQueryResultWithOutputAt (fuel : Nat) (state : QueryProofState) (version : Version)
    (output : GoalOutput) (result : GoalResult) : Option QueryResult := do
  let (value, e) ← (ResponseExtractor.extractValue state version fuel output result).run
    ⟨fun _ => none, [], state.nextResponseParam⟩
  return ⟨e.responseVars, value⟩

def extractQueryResultAt (fuel : Nat) (state : QueryProofState) (version : Version)
    (result : GoalResult) : Option QueryResult :=
  extractQueryResultWithOutputAt fuel state version .proven result

def extractQueryResult (fuel : Nat) (state : QueryProofState) (result : GoalResult) :
    Option QueryResult :=
  extractQueryResultAt fuel state state.version result

/-! ### Application of a response -/

inductive ApplyResponseError where
  | mappingArity
  | invalidResponseKey (param : AlphaEquivParam)
  | duplicateResponseKey (param : AlphaEquivParam)
  | invalidResponseBinder (param : AlphaEquivParam)
  | universeOverflow
  | unification (e : UnifyError)
deriving DecidableEq

inductive AppliedCertainty where
  | yes (output : GoalOutput) (modulo : Goal)
  | maybe
  | no
deriving DecidableEq

structure AppliedResponse where
  effects : CommitEffects
  certainty : AppliedCertainty
deriving DecidableEq

/-- Addition of 32-bit universes. -/
def Universe.checkedAdd (base : Universe) (relative : Nat) : Option Universe :=
  if base + relative < 2 ^ 32 then some (base + relative) else none

/-- The keys of a substitution: distinct existential inputs. -/
def checkKeys (inputs : List (CanonicalVarInfo × CallerCanonicalVar)) :
    List SubstEntry → List AlphaEquivParam → Except ApplyResponseError Unit
  | [], _ => .ok ()
  | entry :: entries, seen =>
      if entry.key ∈ seen then .error (.duplicateResponseKey entry.key)
      else
        match inputs.find? fun input => input.1.param = entry.key with
        | some (⟨_, _, .existentialInput, _, _⟩, .existential _) =>
            checkKeys inputs entries (entry.key :: seen)
        | _ => .error (.invalidResponseKey entry.key)

/-- The variables a response binds: types, distinct, and none of them an input. -/
def checkBinders (canonical : List AlphaEquivParam) :
    List ResponseVarInfo → List AlphaEquivParam → Except ApplyResponseError Unit
  | [], _ => .ok ()
  | info :: infos, seen =>
      if info.kind ≠ .type ∨ info.param ∈ canonical ∨ info.param ∈ seen then
        .error (.invalidResponseBinder info.param)
      else checkBinders canonical infos (info.param :: seen)

/-- The caller's entity for an input. -/
def importInput (base : Universe) (input : CanonicalVarInfo × CallerCanonicalVar)
    (acc : TypeMapping × VersionedEGraph) :
    Outcome ApplyResponseError (TypeMapping × VersionedEGraph) Unit :=
  let (mapping, g) := acc
  let generic := GenericParam.alphaEquiv input.1.param
  match input.2, input.1.role with
  | .rigid param, .rigidPlaceholder =>
      match base.checkedAdd input.1.relativeUniverse with
      | none => some (.error .universeOverflow, acc)
      | some u =>
          some (.ok (), Function.update mapping generic (some (.param param)),
            g.registerPlaceholder param u)
  | .existential index, .existentialInput =>
      some (.ok (), Function.update mapping generic (some (.inferVar index)), g)
  | _, _ => some (.error .mappingArity, acc)

/-- A new variable of the caller for a variable a response binds. -/
def importBinder (child : Version) (base : Universe) (info : ResponseVarInfo)
    (acc : TypeMapping × VersionedEGraph) :
    Outcome ApplyResponseError (TypeMapping × VersionedEGraph) Unit :=
  let (mapping, g) := acc
  match base.checkedAdd info.relativeUniverse with
  | none => some (.error .universeOverflow, acc)
  | some u =>
      let (index, g) := g.allocVarInDomain child u info.domain
      some (.ok (),
        Function.update mapping (.alphaEquiv info.param) (some (.inferVar index)), g)

/-- One constraint of the response, on the caller's variable for its key. -/
def importEntry (fuel : Nat) (child : Version)
    (inputs : List (CanonicalVarInfo × CallerCanonicalVar)) (mapping : TypeMapping)
    (entry : SubstEntry) (g : VersionedEGraph) :
    Outcome ApplyResponseError VersionedEGraph Unit :=
  match inputs.find? fun input => input.1.param = entry.key with
  | some (_, .existential index) =>
      match VersionedEGraph.unifyInProbe fuel child (.inferVar index)
        (IrCopier.copyTy mapping (fun _ => none) entry.value) g with
      | none => none
      | some (.error e, g) => some (.error (.unification e), g)
      | some (.ok (), g) => some (.ok (), g)
  -- excluded by `checkKeys`
  | _ => none

/-- The certainty of a response, over the caller's types. -/
def importCertainty (mapping : TypeMapping) (nextBinder : Nat) :
    QueryResultData → AppliedCertainty
  | .no => .no
  | .maybe _ => .maybe
  | .yes output _ modulo =>
      .yes (IrCopier.copyOutput mapping output)
        (IrCopier.copyGoal mapping (some nextBinder) modulo)

def QueryResultData.substitution : QueryResultData → List SubstEntry
  | .yes _ subst _ => subst
  | .maybe hints => hints
  | .no => []

/-- What the source checks before it branches. -/
def checkResponse (query : GoalQueryData) (mapping : CanonicalMapping) (response : QueryResult) :
    Except ApplyResponseError Unit := do
  checkKeys (query.canonicalVars.zip mapping.inputs) response.value.substitution []
  checkBinders (query.canonicalVars.map CanonicalVarInfo.param) response.boundVars []

/-- The writes of an application, in the child version. -/
def importResponse (fuel : Nat) (child : Version) (query : GoalQueryData)
    (mapping : CanonicalMapping) (response : QueryResult) (g : VersionedEGraph) :
    Outcome ApplyResponseError VersionedEGraph AppliedCertainty :=
  let inputs := query.canonicalVars.zip mapping.inputs
  let base := mapping.absoluteUniverseBase
  let imported := andThen (forEach (importInput base) inputs (fun _ => none, g)) fun _ =>
    forEach (importBinder child base) response.boundVars
  match imported with
  | none => none
  | some (.error e, (_, g)) => some (.error e, g)
  | some (.ok (), (types, g)) =>
      let nextBinder :=
        (response.boundVars.map fun info => info.param.index + 1).foldl max query.nextResponseParam
      andThen (forEach (importEntry fuel child inputs types) response.value.substitution g)
        fun _ g => some (.ok (importCertainty types nextBinder response.value), g)

namespace VersionedEGraph

/-- Instantiate a response in its original caller, in one transaction. -/
def applyQueryResponse [HashOrder] (fuel : Nat) (g : VersionedEGraph) (callerVersion : Version)
    (query : GoalQueryData) (mapping : CanonicalMapping) (response : QueryResult) :
    Outcome ApplyResponseError VersionedEGraph AppliedResponse :=
  if query.canonicalVars.length ≠ mapping.inputs.length then some (.error .mappingArity, g)
  else if response.value = .no then
    some (.ok ⟨⟨[], g.semanticRevision callerVersion⟩, .no⟩, g)
  else
    match checkResponse query mapping response with
    | .error e => some (.error e, g)
    | .ok () =>
        let (child, g) := g.branchFrom callerVersion
        match importResponse fuel child query mapping response g with
        | none => none
        | some (.error e, g) => some (.error e, g.discard child)
        | some (.ok certainty, g) =>
            match g.rebuild fuel child with
            | none => none
            | some (_, g) =>
                let (effects, g) := g.collapseInto child callerVersion
                some (.ok ⟨effects, certainty⟩, g)

end VersionedEGraph

end Sage
