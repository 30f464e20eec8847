import Sage.Solve.Subsume

/-!
# Solve — common hints

`merge_hints` of `anti_unify.rs`: what several possible answers agree on.  For each input that
every one of them constrains, the values' common outer structure is kept, and a new parameter
stands where they differ.

* `mergeTypes` — the anti-unification of types.
* `mergeHints` — the uncertain answer made of the common hints.
-/

namespace Sage

open Terms

/-- Least domain in this lattice which admits both candidate domains. -/
def commonDomain : InferDomain → InferDomain → InferDomain
  | .integer, .integer => .integer
  | .float, .float => .float
  | .any, _ | _, .any | .integer, .float | .float, .integer => .any

/-- Only the domains of canonical parameters are known. -/
def explicitParameterDomain (parameterDomains : ParamDomains) : Ty → InferDomain
  | .param (.alphaEquiv param) => (parameterDomains.lookup param).getD .any
  | _ => .any

structure AntiUnifier where
  nextParam : Nat
  witnesses : List ResponseVarInfo

namespace AntiUnifier

section Merge

variable (parameterDomains : ParamDomains) (keyUniverse : Universe)

/-- A new parameter for values that differ, and whether nothing is known of it. -/
def witness (value : Ty) (others : List Ty) (a : AntiUnifier) : (Ty × Bool) × AntiUnifier :=
  let domain := others.foldl
    (fun d ty => commonDomain d (explicitParameterDomain parameterDomains ty))
    (explicitParameterDomain parameterDomains value)
  let param : AlphaEquivParam := ⟨.type, a.nextParam⟩
  ((.param (.alphaEquiv param), domain = .any),
    { nextParam := a.nextParam + 1
      witnesses := a.witnesses ++ [⟨param, .type, keyUniverse, domain⟩] })

mutual

/-- The first value is followed as a term. -/
def mergeTerm (first : Term Skeleton InferVarIndex) (value : Ty) (others : List Ty)
    (a : AntiUnifier) : (Ty × Bool) × AntiUnifier :=
  if others.all (· = value) then ((value, false), a)
  else match first with
    | .node skeleton args =>
        if args ≠ [] ∧ others.all fun ty => (decompose ty).skeleton = skeleton ∧
            (decompose ty).children.length = args.length then
          let (children, a) := mergeTerms args (decompose value).children
            (others.map fun ty => (decompose ty).children) a
          -- The skeleton has as many children as before.
          (((recompose skeleton children).getD value, false), a)
        else witness parameterDomains keyUniverse value others a
    | .var _ => witness parameterDomains keyUniverse value others a

/-- The children of one type after the other, each with the children beside it. -/
def mergeTerms (firsts : List (Term Skeleton InferVarIndex)) (values : List Ty)
    (others : List (List Ty)) (a : AntiUnifier) : List Ty × AntiUnifier :=
  match firsts, values with
  | first :: firsts, value :: values =>
      let ((child, _), a) := mergeTerm first value (others.filterMap List.head?) a
      let (children, a) := mergeTerms firsts values (others.map List.tail) a
      (child :: children, a)
  | _, _ => ([], a)

end

/-- The common structure of some types, and whether it is one new parameter of any domain. -/
def mergeTypes (value : Ty) (others : List Ty) (a : AntiUnifier) : (Ty × Bool) × AntiUnifier :=
  mergeTerm parameterDomains keyUniverse value.term value others a

end Merge

end AntiUnifier

def containsInaccessibleInput (ty : Ty) (keyUniverse : Universe)
    (inputUniverses : ParamUniverses) : Bool :=
  newerTerm inputUniverses keyUniverse ty.term

mutual

/-- A canonical parameter occurs as a type. -/
def termMentions (param : AlphaEquivParam) : Term Skeleton InferVarIndex → Bool
  | .var _ => false
  | .node skeleton args => skeleton = .param (.alphaEquiv param) || termsMention param args

def termsMention (param : AlphaEquivParam) : List (Term Skeleton InferVarIndex) → Bool
  | [] => false
  | t :: ts => termMentions param t || termsMention param ts

end

def collectUsedWitnesses (entries : List SubstEntry) (witnesses : List ResponseVarInfo) :
    List ResponseVarInfo :=
  witnesses.filter fun info => entries.any fun entry => termMentions info.param entry.value.term

/-! ### Hints -/

/-- The substitution of a possible answer, a later entry of a key replacing an earlier one. -/
structure HintInput where
  entries : List SubstEntry

def HintInput.get? (hint : HintInput) (key : AlphaEquivParam) : Option Ty :=
  (hint.entries.reverse.find? fun entry => entry.key = key).map SubstEntry.value

/-- The possible answers' substitutions, with their parameters renamed apart. -/
def collectHints : List QueryResult → Nat → ParamDomains → List HintInput × Nat × ParamDomains
  | [], next, domains => ([], next, domains)
  | candidate :: rest, next, domains =>
      match candidate.value with
      | .no => collectHints rest next domains
      | .yes _ substitution _ | .maybe substitution =>
          let vars := renamedVars candidate.boundVars next
          let (hints, next', domains') := collectHints rest (next + candidate.boundVars.length)
            (vars.map (fun p => (p.2, p.1.domain)) ++ domains)
          (⟨copySubstitution (renamingOf vars) substitution⟩ :: hints, next', domains')

def emptyMaybe : QueryResult := ⟨[], .maybe []⟩

section MergeHints

variable (inputUniverses : ParamUniverses)

/-- The keys that every hint has, in the order of their indices. -/
def commonKeys (hint : HintInput) (others : List HintInput) : List AlphaEquivParam :=
  ((hint.entries.map SubstEntry.key).dedup.filter fun key =>
    others.all fun other => (other.get? key).isSome).insertionSort fun a b => a.index ≤ b.index

/-- The common entry of each key, unless it says nothing or names a newer input. -/
def mergeEntries (parameterDomains : ParamDomains) (hint : HintInput) (others : List HintInput) :
    List AlphaEquivParam → AntiUnifier → List SubstEntry × AntiUnifier
  | [], a => ([], a)
  | key :: keys, a =>
      match hint.get? key with
      | none => mergeEntries parameterDomains hint others keys a
      | some value =>
          let universe_ := (inputUniverses.lookup key).getD 0
          let ((merged, unconstrainedBareWitness), a) := AntiUnifier.mergeTypes parameterDomains
            universe_ value (others.filterMap (HintInput.get? · key)) a
          let (entries, a) := mergeEntries parameterDomains hint others keys a
          if unconstrainedBareWitness || containsInaccessibleInput merged universe_ inputUniverses
          then (entries, a) else (⟨key, merged⟩ :: entries, a)

/-- The uncertain answer with the hints that all possible answers share. -/
def mergeHints (nextResponseParam : Nat) (inputDomains : ParamDomains)
    (candidates : List QueryResult) (includeUnconstrainedPossible : Bool) : QueryResult :=
  let (hints, next, domains) := collectHints candidates nextResponseParam inputDomains
  match hints ++ if includeUnconstrainedPossible then [⟨[]⟩] else [] with
  | [] => emptyMaybe
  | hint :: others =>
      let (merged, a) := mergeEntries inputUniverses domains hint others (commonKeys hint others)
        ⟨next, []⟩
      -- The witnesses that were kept are numbered again, from the first free parameter on.
      let vars := renamedVars (collectUsedWitnesses merged a.witnesses) nextResponseParam
      ⟨vars.map fun p => { p.1 with param := p.2 },
        .maybe (copySubstitution (renamingOf vars) merged)⟩

end MergeHints

end Sage
