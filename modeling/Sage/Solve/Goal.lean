import Sage.Infer.Version
import Sage.Syntax.Skeleton

/-!
# Solve — goals, queries and answers

`goal.rs` and `result.rs`.  A goal is built from trait and equality atoms by conjunction,
implication and existential binders; a query is a goal in canonical form, whose inputs are
numbered parameters; an answer is certain, uncertain with hints, or negative.

* `Goal.mkAll`, `Assumption.flatten` — the source's constructors, which splice nested lists in.
* `Goal.walk`, `Assumption.walk` — the traversal that the canonicalizer, the extractor and the
  copier of responses share: it folds types, and renames the parameters of binders.
* `validateGoalQuery` — what the solver requires of a canonical query.
-/

namespace Sage

deriving instance DecidableEq for TraitRef

instance : DecidableEq AliasTy := fun a b =>
  decidable_of_iff (Ty.alias a = Ty.alias b) (by simp)

structure WherePredicate where
  selfTy : Ty
  traitRef : TraitRef
deriving DecidableEq

inductive Atom where
  | traitImpl (selfTy : Ty) (traitRef : TraitRef)
  | equals (left right : Ty)
deriving DecidableEq

mutual

inductive Goal where
  | exists (generics : List GenericParam) (value : Goal)
  | implies (assumptions : List Assumption) (inner : Goal)
  | all (goals : List Goal)
  | atom (a : Atom)
  | maybe

inductive Assumption where
  | traitImpl (selfTy : Ty) (traitRef : TraitRef)
  | normalizesTo (alias_ : AliasTy) (ty : Ty)
  | implies (conditions : List Goal) (consequence : WherePredicate)
  | all (assumptions : List Assumption)

end

section DecidableEq

mutual

def Goal.decEq : (a b : Goal) → Decidable (a = b)
  | .exists gs g, .exists hs h =>
      match Goal.decEq g h with
      | isTrue e => decidable_of_iff (gs = hs) (by simp [e])
      | isFalse e => isFalse (by simp [e])
  | .implies as g, .implies bs h =>
      match assumptionsDecEq as bs, Goal.decEq g h with
      | isTrue e, isTrue e' => isTrue (by simp [e, e'])
      | isFalse e, _ => isFalse (by simp [e])
      | _, isFalse e => isFalse (by simp [e])
  | .all gs, .all hs =>
      match goalsDecEq gs hs with
      | isTrue e => isTrue (by simp [e])
      | isFalse e => isFalse (by simp [e])
  | .atom a, .atom b => decidable_of_iff (a = b) (by simp)
  | .maybe, .maybe => isTrue rfl
  | .exists _ _, .implies _ _ | .exists _ _, .all _ | .exists _ _, .atom _ | .exists _ _, .maybe
  | .implies _ _, .exists _ _ | .implies _ _, .all _ | .implies _ _, .atom _ | .implies _ _, .maybe
  | .all _, .exists _ _ | .all _, .implies _ _ | .all _, .atom _ | .all _, .maybe
  | .atom _, .exists _ _ | .atom _, .implies _ _ | .atom _, .all _ | .atom _, .maybe
  | .maybe, .exists _ _ | .maybe, .implies _ _ | .maybe, .all _ | .maybe, .atom _ =>
      isFalse (by simp)

def Assumption.decEq : (a b : Assumption) → Decidable (a = b)
  | .traitImpl t r, .traitImpl u s => decidable_of_iff (t = u ∧ r = s) (by simp)
  | .normalizesTo a t, .normalizesTo b u => decidable_of_iff (a = b ∧ t = u) (by simp)
  | .implies gs p, .implies hs q =>
      match goalsDecEq gs hs with
      | isTrue e => decidable_of_iff (p = q) (by simp [e])
      | isFalse e => isFalse (by simp [e])
  | .all as, .all bs =>
      match assumptionsDecEq as bs with
      | isTrue e => isTrue (by simp [e])
      | isFalse e => isFalse (by simp [e])
  | .traitImpl _ _, .normalizesTo _ _ | .traitImpl _ _, .implies _ _ | .traitImpl _ _, .all _
  | .normalizesTo _ _, .traitImpl _ _ | .normalizesTo _ _, .implies _ _ | .normalizesTo _ _, .all _
  | .implies _ _, .traitImpl _ _ | .implies _ _, .normalizesTo _ _ | .implies _ _, .all _
  | .all _, .traitImpl _ _ | .all _, .normalizesTo _ _ | .all _, .implies _ _ => isFalse (by simp)

def goalsDecEq : (a b : List Goal) → Decidable (a = b)
  | [], [] => isTrue rfl
  | [], _ :: _ => isFalse (by simp)
  | _ :: _, [] => isFalse (by simp)
  | g :: gs, h :: hs =>
      match Goal.decEq g h, goalsDecEq gs hs with
      | isTrue e, isTrue e' => isTrue (by simp [e, e'])
      | isFalse e, _ => isFalse (by simp [e])
      | _, isFalse e => isFalse (by simp [e])

def assumptionsDecEq : (a b : List Assumption) → Decidable (a = b)
  | [], [] => isTrue rfl
  | [], _ :: _ => isFalse (by simp)
  | _ :: _, [] => isFalse (by simp)
  | a :: as, b :: bs =>
      match Assumption.decEq a b, assumptionsDecEq as bs with
      | isTrue e, isTrue e' => isTrue (by simp [e, e'])
      | isFalse e, _ => isFalse (by simp [e])
      | _, isFalse e => isFalse (by simp [e])

end

instance : DecidableEq Goal := Goal.decEq
instance : DecidableEq Assumption := Assumption.decEq

end DecidableEq

/-! ### Conjunctions -/

namespace Goal

def true_ : Goal := .all []

def IsTriviallyTrue : Goal → Prop
  | .all [] => True
  | _ => False

instance : DecidablePred IsTriviallyTrue := fun g => by
  unfold IsTriviallyTrue
  split <;> infer_instance

theorem isTriviallyTrue_iff {g : Goal} : g.IsTriviallyTrue ↔ g = true_ := by
  rw [true_]
  constructor
  · intro h
    match g, h with
    | .all [], _ => rfl
  · rintro rfl
    exact trivial

mutual

/-- The conjuncts of a goal, with nested conjunctions spliced in. -/
def conjuncts : Goal → List Goal
  | .all goals => conjunctsList goals
  | .exists gs g => [.exists gs g]
  | .implies as g => [.implies as g]
  | .atom a => [.atom a]
  | .maybe => [.maybe]

def conjunctsList : List Goal → List Goal
  | [] => []
  | g :: gs => conjuncts g ++ conjunctsList gs

end

/-- A flat conjunction in the order of the source. -/
def mkAll (goals : List Goal) : Goal := .all (conjunctsList goals)

@[simp] theorem conjunctsList_eq_flatMap (gs : List Goal) :
    conjunctsList gs = gs.flatMap conjuncts := by
  induction gs with
  | nil => rfl
  | cons g gs ih => simp [conjunctsList, ih]

end Goal

namespace Assumption

mutual

def facts : Assumption → List Assumption
  | .all assumptions => factsList assumptions
  | .traitImpl t r => [.traitImpl t r]
  | .normalizesTo a t => [.normalizesTo a t]
  | .implies gs p => [.implies gs p]

def factsList : List Assumption → List Assumption
  | [] => []
  | a :: as => facts a ++ factsList as

end

def flatten (assumptions : List Assumption) : List Assumption := factsList assumptions

@[simp] theorem factsList_eq_flatMap (as : List Assumption) :
    factsList as = as.flatMap facts := by
  induction as with
  | nil => rfl
  | cons a as ih => simp [factsList, ih]

end Assumption

/-! ### Queries and answers -/

/-- A top-level solver operation. -/
inductive SolverGoal where
  | prove (g : Goal)
  | normalize (a : AliasTy)
deriving DecidableEq

inductive CanonicalVarRole where
  | rigidPlaceholder
  | existentialInput
deriving DecidableEq, Repr

structure CanonicalVarInfo where
  param : AlphaEquivParam
  kind : GenericParamKind
  role : CanonicalVarRole
  relativeUniverse : Nat
  domain : InferDomain
deriving DecidableEq

/-- A query in canonical form.  The program it is asked of is fixed. -/
structure GoalQueryData where
  canonicalUniverse : Nat
  canonicalVars : List CanonicalVarInfo
  nextResponseParam : Nat
  assumptionsComplete : Bool
  assumptions : List Assumption
  goal : SolverGoal
deriving DecidableEq

structure SubstEntry where
  key : AlphaEquivParam
  value : Ty
deriving DecidableEq

structure ResponseVarInfo where
  param : AlphaEquivParam
  kind : GenericParamKind
  relativeUniverse : Nat
  domain : InferDomain
deriving DecidableEq

inductive GoalOutput where
  | proven
  | type (ty : Ty)
deriving DecidableEq

inductive QueryResultData where
  | yes (output : GoalOutput) (subst : List SubstEntry) (modulo : Goal)
  | maybe (hints : List SubstEntry)
  | no
deriving DecidableEq

structure QueryResult where
  boundVars : List ResponseVarInfo
  value : QueryResultData
deriving DecidableEq

/-- The result of proving a goal inside a proof state. -/
inductive GoalResult where
  | yes (modulo : Goal)
  | maybe
  | no
deriving DecidableEq

def maxProofDepth : Nat := 64

/-! ### Traversals -/

section Walk

/-- The renaming of the parameters bound around a place in a goal. -/
abbrev Binders := GenericParam → Option GenericParam

/-- The renaming inside a binder; outside it the source restores the previous one. -/
def Binders.enter (binders : Binders) (sources targets : List GenericParam) : Binders :=
  (sources.zip targets).foldl (fun b p => Function.update b p.1 (some p.2)) binders

/-- The parameter a name stands for: itself outside every binder of it. -/
def Binders.resolve (binders : Binders) (param : GenericParam) : GenericParam :=
  (binders param).getD param

variable {M : Type → Type} [Monad M]

/-- Rebuild a type from its parts, visited in order; parameters and variables are the caller's
to replace. -/
def Ty.mapChildrenM (onTy : Ty → M Ty) (onConst : Const → M Const) : Ty → M Ty
  | .adt sym args => return .adt sym (← args.mapM onTy)
  | .alias (.named sym args) => return .alias (.named sym (← args.mapM onTy))
  | .alias (.associated associatedTy selfTy traitSym traitArgs args) => do
      let selfTy ← onTy selfTy
      let traitArgs ← traitArgs.mapM onTy
      return .alias (.associated associatedTy selfTy traitSym traitArgs (← args.mapM onTy))
  | .alias (.opaqueAlias sym args) => return .alias (.opaqueAlias sym (← args.mapM onTy))
  | .ref inner m lt => return .ref (← onTy inner) m lt
  | .tuple elems => return .tuple (← elems.mapM onTy)
  | .slice inner => return .slice (← onTy inner)
  | .array inner c => do
      let inner ← onTy inner
      return .array inner (← onConst c)
  | .fnPtr params ret => do
      let params ← params.mapM onTy
      return .fnPtr params (← onTy ret)
  | leaf => return leaf

def AliasTy.mapM (onTy : Ty → M Ty) : AliasTy → M AliasTy
  | .named sym args => return .named sym (← args.mapM onTy)
  | .associated associatedTy selfTy traitSym traitArgs args => do
      let selfTy ← onTy selfTy
      let traitArgs ← traitArgs.mapM onTy
      return .associated associatedTy selfTy traitSym traitArgs (← args.mapM onTy)
  | .opaqueAlias sym args => return .opaqueAlias sym (← args.mapM onTy)

def TraitRef.mapM (onTy : Ty → M Ty) (r : TraitRef) : M TraitRef :=
  return ⟨r.traitSym, ← r.args.mapM onTy⟩

def WherePredicate.mapM (onTy : Ty → M Ty) (p : WherePredicate) : M WherePredicate := do
  let selfTy ← onTy p.selfTy
  return ⟨selfTy, ← p.traitRef.mapM onTy⟩

def Atom.mapM (onTy : Ty → M Ty) : Atom → M Atom
  | .traitImpl selfTy traitRef => do
      let selfTy ← onTy selfTy
      return .traitImpl selfTy (← traitRef.mapM onTy)
  | .equals left right => do
      let left ← onTy left
      return .equals left (← onTy right)

/-- What a traversal does with types, and with the parameters of a binder. -/
structure Walker (M : Type → Type) where
  ty : Binders → Ty → M Ty
  rename : GenericParam → M GenericParam

variable (w : Walker M)

mutual

def Goal.walk (binders : Binders) : Goal → M Goal
  | .exists generics value => do
      let targets ← generics.mapM w.rename
      return .exists targets (← Goal.walk (binders.enter generics targets) value)
  | .implies assumptions inner => do
      let assumptions ← walkAssumptions binders assumptions
      return .implies (Assumption.flatten assumptions) (← Goal.walk binders inner)
  | .all goals => return Goal.mkAll (← walkGoals binders goals)
  | .atom a => return .atom (← a.mapM (w.ty binders))
  | .maybe => return .maybe

def Assumption.walk (binders : Binders) : Assumption → M Assumption
  | .traitImpl selfTy traitRef => do
      let selfTy ← w.ty binders selfTy
      return .traitImpl selfTy (← traitRef.mapM (w.ty binders))
  | .normalizesTo alias_ ty => do
      let alias_ ← alias_.mapM (w.ty binders)
      return .normalizesTo alias_ (← w.ty binders ty)
  | .implies conditions consequence => do
      let conditions ← walkGoals binders conditions
      return .implies conditions (← consequence.mapM (w.ty binders))
  | .all assumptions => return .all (Assumption.flatten (← walkAssumptions binders assumptions))

def walkGoals (binders : Binders) : List Goal → M (List Goal)
  | [] => return []
  | g :: gs => do
      let g ← Goal.walk binders g
      return g :: (← walkGoals binders gs)

def walkAssumptions (binders : Binders) : List Assumption → M (List Assumption)
  | [] => return []
  | a :: as => do
      let a ← Assumption.walk binders a
      return a :: (← walkAssumptions binders as)

end

end Walk

/-! ### Validation -/

section Validate

open Terms

/-- The head of a type of a canonical query. -/
def validateHead (visible : List AlphaEquivParam) : Skeleton → Except String Unit
  | .inferVar _ => .error "canonical query contains a caller inference variable"
  | .param (.alphaEquiv parameter) =>
      if parameter ∈ visible then .ok ()
      else .error "canonical query contains a noncanonical parameter"
  | .param _ => .error "canonical query contains a noncanonical parameter"
  | .array (.param (.alphaEquiv parameter)) =>
      if parameter ∉ visible then .error "canonical query contains an unbound const parameter"
      else .error "canonical query contains a noncanonical const parameter"
  | .array (.param _) => .error "canonical query contains a noncanonical const parameter"
  | _ => .ok ()

mutual

def validateTerm (visible : List AlphaEquivParam) : Term Skeleton InferVarIndex → Except String Unit
  | .var x => validateHead visible (.inferVar x)
  | .node head args => do
      validateHead visible head
      validateTerms visible args

def validateTerms (visible : List AlphaEquivParam) :
    List (Term Skeleton InferVarIndex) → Except String Unit
  | [] => .ok ()
  | t :: ts => do
      validateTerm visible t
      validateTerms visible ts

end

def validateTy (visible : List AlphaEquivParam) (t : Ty) : Except String Unit :=
  validateTerm visible t.term

def validateTys (visible : List AlphaEquivParam) (ts : List Ty) : Except String Unit :=
  ts.forM (validateTy visible)

def validateAlias (visible : List AlphaEquivParam) : AliasTy → Except String Unit
  | .named _ args => validateTys visible args
  | .associated _ selfTy _ traitArgs args => do
      validateTy visible selfTy
      validateTys visible traitArgs
      validateTys visible args
  | .opaqueAlias _ args => validateTys visible args

def validatePredicate (visible : List AlphaEquivParam) (selfTy : Ty) (traitRef : TraitRef) :
    Except String Unit := do
  validateTy visible selfTy
  validateTys visible traitRef.args

def validateAtom (visible : List AlphaEquivParam) : Atom → Except String Unit
  | .traitImpl selfTy traitRef => validatePredicate visible selfTy traitRef
  | .equals left right => do
      validateTy visible left
      validateTy visible right

/-- The parameters a binder makes visible. -/
def validateBinder (nextResponseParam : Nat) :
    List GenericParam → List AlphaEquivParam → Except String (List AlphaEquivParam)
  | [], visible => .ok visible
  | .alphaEquiv parameter :: parameters, visible =>
      if parameter.kind ≠ .type ∨ nextResponseParam ≤ parameter.index ∨ parameter ∈ visible then
        .error "invalid existential binder parameter"
      else validateBinder nextResponseParam parameters (parameter :: visible)
  | _ :: _, _ => .error "noncanonical existential binder"

mutual

def validateGoal (next : Nat) (visible : List AlphaEquivParam) : Goal → Except String Unit
  | .exists generics value => do
      let visible ← validateBinder next generics visible
      validateGoal next visible value
  | .implies assumptions inner => do
      validateAssumptions next visible assumptions
      validateGoal next visible inner
  | .all goals => validateGoals next visible goals
  | .atom a => validateAtom visible a
  | .maybe => .ok ()

def validateAssumption (next : Nat) (visible : List AlphaEquivParam) :
    Assumption → Except String Unit
  | .traitImpl selfTy traitRef => validatePredicate visible selfTy traitRef
  | .normalizesTo alias_ ty => do
      validateAlias visible alias_
      validateTy visible ty
  | .implies conditions consequence => do
      validateGoals next visible conditions
      validatePredicate visible consequence.selfTy consequence.traitRef
  | .all assumptions => validateAssumptions next visible assumptions

def validateGoals (next : Nat) (visible : List AlphaEquivParam) : List Goal → Except String Unit
  | [] => .ok ()
  | g :: gs => do
      validateGoal next visible g
      validateGoals next visible gs

def validateAssumptions (next : Nat) (visible : List AlphaEquivParam) :
    List Assumption → Except String Unit
  | [] => .ok ()
  | a :: as => do
      validateAssumption next visible a
      validateAssumptions next visible as

end

def validateSolverGoal (next : Nat) (visible : List AlphaEquivParam) :
    SolverGoal → Except String Unit
  | .prove g => validateGoal next visible g
  | .normalize a => validateAlias visible a

/-- The inputs of a query, with the parameters seen so far. -/
def validateInputs (data : GoalQueryData) :
    List CanonicalVarInfo → List AlphaEquivParam → Except String (List AlphaEquivParam)
  | [], visible => .ok visible
  | info :: infos, visible =>
      if info.param ∈ visible then .error "duplicate canonical variable"
      else if info.role = .rigidPlaceholder ∧ info.domain ≠ .any then
        .error "rigid canonical input has an inference domain"
      else if info.role = .existentialInput ∧ info.kind ≠ .type then
        .error "non-type existential input"
      else if data.canonicalUniverse < info.relativeUniverse then
        .error "canonical input is newer than the query universe"
      else if info.param.kind ≠ info.kind ∨ data.nextResponseParam ≤ info.param.index then
        .error "inconsistent canonical variable metadata"
      else validateInputs data infos (info.param :: visible)

/-- The solver panics on a query that does not validate. -/
def validateGoalQuery (data : GoalQueryData) : Except String Unit := do
  let visible ← validateInputs data data.canonicalVars []
  validateAssumptions data.nextResponseParam visible data.assumptions
  validateSolverGoal data.nextResponseParam visible data.goal

end Validate

end Sage
