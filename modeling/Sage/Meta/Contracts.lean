import Mathlib.Data.Finset.Basic
import Sage.Library.PartialMap
import Sage.Library.Selection
import Sage.Meta.Document

/-!
# Meta — contract sessions

A session checks the calls between architectural operations while they are made.  Each call is
entered and left; what is open when a call is entered decides whether it is permitted.

* `ContractModel` — what each operation may call, and what it forbids.
* `ContractSession` — the state of a session and its operations.
* `ContractReport` — whether the calls conformed.
-/

namespace Sage.Meta

structure ContractRule where
  file : String
  span : Span
  operation : String
deriving DecidableEq

structure CallPermission where
  /-- The operations that a call of the method may reach. -/
  targets : List String
  sameReceiver : Bool
  rule : ContractRule
deriving DecidableEq

inductive UncheckedEffect where
  | reads
  | creates
deriving DecidableEq

structure OperationContract where
  id : String
  kind : MethodKind
  isAbstract : Bool
  invokes : List CallPermission
  prohibits : List CallPermission
  /-- Where a call of an abstract operation may go on. -/
  dispatches : List String
  uncheckedEffects : Finset UncheckedEffect

/-- What a contract permits for calls of an operation. -/
def OperationContract.permissions (contract : OperationContract) (operation : String) :
    List CallPermission :=
  contract.invokes.filter fun permission => operation ∈ permission.targets

structure ContractModel where
  operations : PartialMap String OperationContract

abbrev InvocationId := Nat

inductive EntryKind where
  | request
  | validation
deriving DecidableEq

structure Invocation where
  id : InvocationId
  parent : Option InvocationId
  operation : String
  receiver : Option String
  kind : EntryKind
deriving DecidableEq

inductive ContractEvent where
  | enter (invocation : Invocation)
  | exit (invocation : InvocationId)
deriving DecidableEq

inductive ViolationKind where
  | unknownOperation
  | unexpectedRoot
  | undeclaredCall
  | receiverMismatch
  | forbiddenTransitive
  | unbalancedExit
deriving DecidableEq

structure ContractViolation where
  kind : ViolationKind
  invocation : InvocationId
  message : String
  path : List Invocation
  rule : Option ContractRule

structure ContractCoverage where
  checkedRequests : Nat
  validationContexts : Nat
  gaps : List String
  uncheckedEffects : Finset UncheckedEffect

structure ContractReport where
  trace : List ContractEvent
  violations : List ContractViolation
  coverage : ContractCoverage
  callsConform : Bool

/-- The open invocations stand in `active` with the innermost first. -/
structure ContractSession where
  model : ContractModel
  roots : List String
  active : List Invocation
  trace : List ContractEvent
  violations : List ContractViolation
  coverage : ContractCoverage
  nextId : InvocationId

namespace ContractSession

def new (model : ContractModel) (roots : List String) : ContractSession :=
  let roots := Selection.canonical (· ≤ ·) roots
  { model
    roots
    active := []
    trace := []
    violations := []
    coverage :=
      { checkedRequests := 0
        validationContexts := 0
        gaps := (roots.filter fun root => (model.operations root).isNone).map fun root =>
          "configured root operation does not exist: " ++ root
        uncheckedEffects := ∅ }
    nextId := 1 }

def violation (s : ContractSession) (kind : ViolationKind) (invocation : Invocation)
    (message : String) (rule : Option ContractRule) : ContractSession :=
  { s with violations := s.violations ++
      [⟨kind, invocation.id, message, s.active.reverse ++ [invocation], rule⟩] }

/-- A boundary that was observed and not mapped. -/
def recordGap (s : ContractSession) (message : String) : ContractSession :=
  { s with coverage := { s.coverage with gaps := s.coverage.gaps ++ [message] } }

/-- A call of the innermost open invocation, or of the session itself. -/
def checkRequest (s : ContractSession) (invocation : Invocation) : ContractSession :=
  match s.active with
  | [] =>
      if invocation.operation ∈ s.roots then s
      else s.violation .unexpectedRoot invocation
        ("operation is not an allowed session root: " ++ invocation.operation) none
  | caller :: _ =>
      match s.model.operations caller.operation with
      | none => s
      | some contract =>
          let permissions := contract.permissions invocation.operation
          let dispatch := decide (invocation.operation ∈ contract.dispatches)
          let unrestricted := permissions.any fun p => !p.sameReceiver
          if unrestricted then s
          else if !permissions.isEmpty ∨ dispatch then
            match caller.receiver, invocation.receiver with
            | some a, some b =>
                if a = b then s
                else s.violation .receiverMismatch invocation
                  (caller.operation ++ " may invoke " ++ invocation.operation ++
                    " only on the same receiver") (permissions.head?.map CallPermission.rule)
            | _, _ => s.recordGap ("receiver identity required for " ++ caller.operation ++ " -> " ++
                invocation.operation ++ " (invocation " ++ invocation.id.repr ++ ")")
          else s.violation .undeclaredCall invocation
            ("undeclared call: " ++ caller.operation ++ " -> " ++ invocation.operation) none

/-- The prohibitions of the open invocations that name an operation, from the outermost on. -/
def prohibitions (s : ContractSession) (operation : String) :
    List (Invocation × CallPermission) :=
  s.active.reverse.flatMap fun ancestor =>
    match s.model.operations ancestor.operation with
    | none => []
    | some contract =>
        (contract.prohibits.filter fun rule => operation ∈ rule.targets).map (ancestor, ·)

def checkProhibition (s : ContractSession) (invocation ancestor : Invocation)
    (prohibition : CallPermission) : ContractSession :=
  let forbidden := s.violation .forbiddenTransitive invocation
    (prohibition.rule.operation ++ " forbids transitive " ++
      (match invocation.kind with
      | .request => "request"
      | .validation => "execution") ++ " of " ++ invocation.operation) (some prohibition.rule)
  if prohibition.sameReceiver then
    match ancestor.receiver, invocation.receiver with
    | some a, some b => if a ≠ b then s else forbidden
    | _, _ => s.recordGap ("receiver identity required to check prohibition from " ++
        ancestor.operation ++ " on " ++ invocation.operation ++ " (invocation " ++
        invocation.id.repr ++ ")")
  else forbidden

def checkProhibitions (s : ContractSession) (invocation : Invocation) : ContractSession :=
  (s.prohibitions invocation.operation).foldl
    (fun s prohibition => s.checkProhibition invocation prohibition.1 prohibition.2) s

/-- The operation of an invocation has a contract. -/
def checkKnown (s : ContractSession) (invocation : Invocation) : ContractSession :=
  match s.model.operations invocation.operation with
  | some contract => { s with coverage := { s.coverage with
      uncheckedEffects := s.coverage.uncheckedEffects ∪ contract.uncheckedEffects } }
  | none => s.violation .unknownOperation invocation
      ("unknown architectural operation " ++ invocation.operation) none

def checkKind (s : ContractSession) (invocation : Invocation) : ContractSession :=
  match invocation.kind with
  | .request =>
      { s with coverage := { s.coverage with
        checkedRequests := s.coverage.checkedRequests + 1 } }.checkRequest invocation
  | .validation =>
      { s with coverage := { s.coverage with
        validationContexts := s.coverage.validationContexts + 1 } }

def enterWithKind (s : ContractSession) (operation : String) (receiver : Option String)
    (kind : EntryKind) : InvocationId × ContractSession :=
  let invocation := ⟨s.nextId, s.active.head?.map Invocation.id, operation, receiver, kind⟩
  let s := { s with nextId := s.nextId + 1 }
  let s := s.checkKnown invocation
  let s := s.checkKind invocation
  let s := s.checkProhibitions invocation
  (invocation.id,
    { s with trace := s.trace ++ [.enter invocation], active := invocation :: s.active })

def enter (s : ContractSession) (operation : String) (receiver : Option String) :
    InvocationId × ContractSession :=
  s.enterWithKind operation receiver .request

/-- The body of an internal reexecution, which nothing calls. -/
def enterValidation (s : ContractSession) (operation : String) (receiver : Option String) :
    InvocationId × ContractSession :=
  s.enterWithKind operation receiver .validation

/-- Only the innermost open invocation is left; another exit is a violation. -/
def exit (s : ContractSession) (invocation : InvocationId) : ContractSession :=
  let unbalanced := { s with violations := s.violations ++
    [⟨.unbalancedExit, invocation,
      "exit for invocation " ++ invocation.repr ++ " does not match active frame",
      s.active.reverse, none⟩] }
  match s.active with
  | frame :: active =>
      if frame.id = invocation then { s with active, trace := s.trace ++ [.exit invocation] }
      else unbalanced
  | [] => unbalanced

def finish (s : ContractSession) : ContractReport :=
  let s :=
    if s.active.isEmpty then s
    else s.recordGap ("unclosed architectural invocations: " ++
      ", ".intercalate (s.active.reverse.map fun frame =>
        frame.operation ++ " (" ++ frame.id.repr ++ ")"))
  { trace := s.trace
    violations := s.violations
    coverage := s.coverage
    callsConform := s.violations.isEmpty && s.coverage.gaps.isEmpty }

/-! ### Sequences of calls -/

/-- What a session is told. -/
inductive Call where
  | enter (operation : String) (receiver : Option String)
  | enterValidation (operation : String) (receiver : Option String)
  | exit (invocation : InvocationId)
  | recordGap (message : String)

def perform (s : ContractSession) : Call → ContractSession
  | .enter operation receiver => (s.enter operation receiver).2
  | .enterValidation operation receiver => (s.enterValidation operation receiver).2
  | .exit invocation => s.exit invocation
  | .recordGap message => s.recordGap message

def run (s : ContractSession) (calls : List Call) : ContractSession := calls.foldl perform s

end ContractSession

end Sage.Meta
