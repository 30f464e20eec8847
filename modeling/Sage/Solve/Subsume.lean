import Sage.Solve.Boundary

/-!
# Solve — subsumption of answers

`subsumes` of `merge.rs` asks whether one definite answer implies another: the consequent's own
parameters may be instantiated, the antecedent's are fixed.  Types are matched from left to
right under a growing assignment, residual goals greedily: a required goal takes the first
known goal that it matches, and its assignment is never taken back.

* `directionalMatchTy`, `directionalMatchGoal` — matching, with the assignment it extends.
* `subsumes` — the comparison of two answers, renamed apart.
-/

namespace Sage

open Terms

abbrev ParamUniverses := List (AlphaEquivParam × Universe)

abbrev ParamDomains := List (AlphaEquivParam × InferDomain)

/-- What the consequent's parameters have been matched with. -/
abbrev Bindings := List (AlphaEquivParam × Ty)

/-! ### Types -/

mutual

/-- A canonical parameter above a ceiling occurs as a type. -/
def newerTerm (universes : ParamUniverses) (ceiling : Universe) :
    Term Skeleton InferVarIndex → Bool
  | .var _ => false
  | .node (.param (.alphaEquiv parameter)) _ =>
      (universes.lookup parameter).any fun u => ceiling < u
  | .node _ args => newerTerms universes ceiling args

def newerTerms (universes : ParamUniverses) (ceiling : Universe) :
    List (Term Skeleton InferVarIndex) → Bool
  | [] => false
  | t :: ts => newerTerm universes ceiling t || newerTerms universes ceiling ts

end

def containsNewerParameter (ty : Ty) (ceiling : Universe) (universes : ParamUniverses) : Bool :=
  newerTerm universes ceiling ty.term

def typeSatisfiesDomain (ty : Ty) (required : InferDomain) (domains : ParamDomains) : Bool :=
  if required = .any then true
  else match ty with
    | .param (.alphaEquiv param) =>
        let actual := (domains.lookup param).getD .any
        actual.intersect required = some actual
    | ty => required.admits ty

/-- Skeletons and children agree at every level. -/
def structuralTyEq (left right : Ty) : Bool := left = right

/-! ### Matching -/

section Match

variable (flexible : List AlphaEquivParam) (universes : ParamUniverses) (domains : ParamDomains)

/-- Match a flexible parameter: with what it was matched with before, or with any type of its
domain that it can name. -/
def bindParameter (parameter : AlphaEquivParam) (known : Ty) (bindings : Bindings) :
    Option Bindings :=
  match bindings.lookup parameter with
  | some previous => if structuralTyEq previous known then some bindings else none
  | none =>
      if !typeSatisfiesDomain known ((domains.lookup parameter).getD .any) domains then none
      else if containsNewerParameter known ((universes.lookup parameter).getD 0) universes then none
      else some ((parameter, known) :: bindings)

def flexibleParameter : Skeleton → Option AlphaEquivParam
  | .param (.alphaEquiv parameter) => if parameter ∈ flexible then some parameter else none
  | _ => none

mutual

/-- The required type is followed as a term, the known one as a type. -/
def matchTerm (required : Term Skeleton InferVarIndex) (known : Ty) (bindings : Bindings) :
    Option Bindings :=
  match required with
  | .var x => if known = .inferVar x then some bindings else none
  | .node skeleton args =>
      if known.term = .node skeleton args then some bindings
      else match flexibleParameter flexible skeleton with
        | some parameter => bindParameter universes domains parameter known bindings
        | none =>
            if skeleton = (decompose known).skeleton then
              matchTerms args (decompose known).children bindings
            else none

def matchTerms (required : List (Term Skeleton InferVarIndex)) (known : List Ty)
    (bindings : Bindings) : Option Bindings :=
  match required, known with
  | [], [] => some bindings
  | r :: rs, k :: ks => do matchTerms rs ks (← matchTerm r k bindings)
  | _, _ => none

end

def directionalMatchTy (required known : Ty) (bindings : Bindings) : Option Bindings :=
  matchTerm flexible universes domains required.term known bindings

def directionalMatchTys (required known : List Ty) (bindings : Bindings) : Option Bindings :=
  matchTerms flexible universes domains (required.map Ty.term) known bindings

/-- Atoms are matched, the sides of an equality also crosswise; other goals must be equal. -/
def directionalMatchGoal (required known : Goal) (bindings : Bindings) : Option Bindings :=
  match required, known with
  | .atom (.traitImpl requiredSelf requiredRef), .atom (.traitImpl knownSelf knownRef) =>
      if requiredRef.traitSym = knownRef.traitSym ∧
          requiredRef.args.length = knownRef.args.length then do
        let bindings ← directionalMatchTy flexible universes domains requiredSelf knownSelf bindings
        directionalMatchTys flexible universes domains requiredRef.args knownRef.args bindings
      else none
  | .atom (.equals requiredLeft requiredRight), .atom (.equals knownLeft knownRight) =>
      let sides := directionalMatchTys flexible universes domains [requiredLeft, requiredRight]
      sides [knownLeft, knownRight] bindings <|> sides [knownRight, knownLeft] bindings
  | .maybe, .maybe => some bindings
  | .exists requiredGenerics requiredGoal, .exists knownGenerics knownGoal =>
      if requiredGenerics = knownGenerics ∧ requiredGoal = knownGoal then some bindings else none
  | .implies requiredAssumptions requiredGoal, .implies knownAssumptions knownGoal =>
      if requiredAssumptions = knownAssumptions ∧ requiredGoal = knownGoal then some bindings
      else none
  | .all requiredGoals, .all knownGoals =>
      if requiredGoals = knownGoals then some bindings else none
  | _, _ => none

/-- Every required goal takes the first known goal that it matches. -/
def matchGoals (known : List Goal) : List Goal → Bindings → Option Bindings
  | [], bindings => some bindings
  | required :: rest, bindings => do
      let bindings ← known.findSome? fun goal =>
        directionalMatchGoal flexible universes domains required goal bindings
      matchGoals known rest bindings

/-- Every required entry matches the known one of its key. -/
def matchSubstitution (known : List SubstEntry) : List SubstEntry → Bindings → Option Bindings
  | [], bindings => some bindings
  | required :: rest, bindings => do
      let entry ← known.find? fun entry => entry.key = required.key
      let bindings ← directionalMatchTy flexible universes domains required.value entry.value bindings
      matchSubstitution known rest bindings

def matchOutput : GoalOutput → GoalOutput → Bindings → Option Bindings
  | .proven, .proven, bindings => some bindings
  | .type required, .type known, bindings =>
      directionalMatchTy flexible universes domains required known bindings
  | _, _, _ => none

end Match

/-! ### Answers -/

/-- A definite answer whose parameters have been renamed. -/
structure AnswerView where
  output : GoalOutput
  substitution : List SubstEntry
  modulo : Goal
  parameterUniverses : ParamUniverses
  parameterDomains : ParamDomains

/-- The bound variables of an answer with the parameters that replace them. -/
def renamedVars (boundVars : List ResponseVarInfo) (nextParam : Nat) :
    List (ResponseVarInfo × AlphaEquivParam) :=
  (boundVars.zipIdx nextParam).map fun p => (p.1, ⟨p.1.kind, p.2⟩)

def renamingOf (vars : List (ResponseVarInfo × AlphaEquivParam)) : TypeMapping :=
  vars.foldl (fun mapping p =>
    Function.update mapping (.alphaEquiv p.1.param) (some (.param (.alphaEquiv p.2)))) fun _ => none

def copySubstitution (mapping : TypeMapping) (substitution : List SubstEntry) : List SubstEntry :=
  substitution.map fun entry => ⟨entry.key, IrCopier.copyTy mapping (fun _ => none) entry.value⟩

/-- Rename an answer's parameters and binders to new ones; only definite answers are compared. -/
def copyAnswerApart (answer : QueryResult) (nextParam : Nat) : Option (AnswerView × Nat) :=
  match answer.value with
  | .yes output subst modulo =>
      let vars := renamedVars answer.boundVars nextParam
      let mapping := renamingOf vars
      let (modulo, next) := (modulo.walk (IrCopier.walker mapping) fun _ => none).run
        (some (nextParam + answer.boundVars.length))
      some
        ({ output := IrCopier.copyOutput mapping output
           substitution := copySubstitution mapping subst
           modulo
           parameterUniverses := vars.map fun p => (p.2, p.1.relativeUniverse)
           parameterDomains := vars.map fun p => (p.2, p.1.domain) },
          next.getD nextParam)
  | .maybe _ | .no => none

def flattenedGoals (goal : Goal) : List Goal := goal.conjuncts.eraseDups

section Subsumes

variable (inputUniverses : ParamUniverses) (inputDomains : ParamDomains)

/-- One more than the largest index of an input. -/
def firstFreeParam : Nat := (inputUniverses.map fun p => p.1.index + 1).foldr max 0

/-- Conservative directional implication: the antecedent implies the consequent. -/
def subsumes (consequent antecedent : QueryResult) : Bool :=
  Option.isSome do
    let (antecedent, next) ← copyAnswerApart antecedent (firstFreeParam inputUniverses)
    let (consequent, _) ← copyAnswerApart consequent next
    let universes :=
      consequent.parameterUniverses ++ antecedent.parameterUniverses ++ inputUniverses
    let domains := consequent.parameterDomains ++ antecedent.parameterDomains ++ inputDomains
    let flexible := consequent.parameterUniverses.map Prod.fst
    let bindings ← matchOutput flexible universes domains consequent.output antecedent.output []
    let bindings ← matchSubstitution flexible universes domains antecedent.substitution
      consequent.substitution bindings
    matchGoals flexible universes domains (flattenedGoals antecedent.modulo)
      (flattenedGoals consequent.modulo) bindings

end Subsumes

end Sage
