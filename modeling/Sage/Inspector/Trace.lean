import Mathlib.Data.List.Sort
import Mathlib.Data.String.Basic
import Sage.Library.Text

/-!
# Inspector — traces

The events of queries, spans and phases are logged, and a log becomes a forest of trace nodes.

* `recordEvent` — the log, in which repeated requests without content are counted.
* `buildDynamicTrace` — the forest of a log.
* `snapshotTrace` — the forest without what depends on allocation.
-/

namespace Sage.Inspector.Tracing

inductive QueryDisposition where
  | executed
  | validated
  | reused
  | cancelled
deriving DecidableEq

inductive InspectionSource where
  | sage
  | solver
deriving DecidableEq

inductive ChildOrder where
  | sequential
  | unordered
deriving DecidableEq

inductive InspectionEvent where
  | phaseEnter (phase : String)
  | phaseExit (phase : String)
  | spanEnter (operation : String) (source : InspectionSource) (childOrder : ChildOrder)
  | spanExit (operation : String)
  | queryEnter (key : String)
  | queryExit (key : String) (disposition : QueryDisposition)
  | queryLeaf (key : String) (disposition : QueryDisposition) (observations : Nat)
  | externalMetadata (operation : String)
deriving DecidableEq

/-! ### The log -/

/-- The end of a request.  The log has its last event first. -/
def didRequest (key : String) (disposition : QueryDisposition) :
    List InspectionEvent → List InspectionEvent
  | .queryEnter entered :: .queryLeaf previous previousDisposition observations :: events =>
      if entered = key ∧ previous = key ∧ previousDisposition = disposition then
        .queryLeaf previous previousDisposition (observations + 1) :: events
      else .queryExit key disposition :: .queryEnter entered ::
        .queryLeaf previous previousDisposition observations :: events
  | .queryEnter entered :: .queryExit previousExit previousDisposition ::
      .queryEnter previousEnter :: events =>
      if entered = key ∧ previousEnter = key ∧ previousExit = key ∧
          previousDisposition = disposition then
        .queryLeaf key disposition 2 :: events
      else .queryExit key disposition :: .queryEnter entered ::
        .queryExit previousExit previousDisposition :: .queryEnter previousEnter :: events
  | events => .queryExit key disposition :: events

def recordEvent (events : List InspectionEvent) : InspectionEvent → List InspectionEvent
  | .queryExit key disposition => didRequest key disposition events
  | event => event :: events

/-- The log of the events as they happen. -/
def inspectionLog (raw : List InspectionEvent) : List InspectionEvent :=
  (raw.foldl recordEvent []).reverse

/-! ### Trace nodes -/

inductive TracePhase where
  | bootstrap
  | selection
  | analysis
  | reflection
  | viewAssembly
deriving DecidableEq

inductive TraceSource where
  | salsa
  | sage
  | solver
  | externalMetadata
deriving DecidableEq

inductive TraceDisposition where
  | executed
  | validated
  | reused
  | cancelled
  | observed
deriving DecidableEq

inductive TraceKey where
  | semantic (value : String)
  | unmapped (ingredient : String)
deriving DecidableEq

structure TraceNode where
  phase : TracePhase
  source : TraceSource
  operation : String
  key : TraceKey
  disposition : TraceDisposition
  childOrder : ChildOrder
  observations : Nat
  children : List TraceNode

def tracePhase : String → Option TracePhase
  | "bootstrap" => some .bootstrap
  | "selection" => some .selection
  | "analysis" => some .analysis
  | "reflection" => some .reflection
  | "view-assembly" => some .viewAssembly
  | _ => none

def traceDisposition : QueryDisposition → TraceDisposition
  | .executed => .executed
  | .validated => .validated
  | .reused => .reused
  | .cancelled => .cancelled

def traceSource : InspectionSource → TraceSource
  | .sage => .sage
  | .solver => .solver

/-- What is before the arguments of a call. -/
def callee (text : List Char) : List Char := text.takeWhile (· ≠ '(')

def queryOperation (key : String) : String := String.ofList (Text.trim (callee key.toList))

def metadataOperation (operation : String) : String := String.ofList (callee operation.toList)

def unbalancedTraceEvent (message : String) : TraceNode where
  phase := .analysis
  source := .sage
  operation := "trace-recorder-error"
  key := .unmapped message
  disposition := .observed
  childOrder := .sequential
  observations := 1
  children := []

/-- `traceSortKey` is the text of a node, by which children without an order are sorted. -/
def normalizeUnorderedChildren (traceSortKey : TraceNode → String) (node : TraceNode) :
    TraceNode :=
  match node.childOrder with
  | .sequential => node
  | .unordered =>
      { node with children :=
          node.children.insertionSort fun a b => traceSortKey a ≤ traceSortKey b }

def phaseNode (defaultPhase : TracePhase) (phase : String) (children : List TraceNode) :
    TraceNode where
  phase := (tracePhase phase).getD defaultPhase
  source := .sage
  operation := phase
  key := .semantic phase
  disposition := .observed
  childOrder := .sequential
  observations := 1
  children

def spanNode (current : TracePhase) (operation : String) (source : InspectionSource)
    (childOrder : ChildOrder) (children : List TraceNode) : TraceNode where
  phase := current
  source := traceSource source
  operation
  key := .semantic operation
  disposition := .observed
  childOrder
  observations := 1
  children

def queryNode (current : TracePhase) (key : String) (disposition : TraceDisposition)
    (observations : Nat) (children : List TraceNode) : TraceNode where
  phase := current
  source := .salsa
  operation := queryOperation key
  key := .unmapped key
  disposition
  childOrder := .sequential
  observations
  children

def metadataNode (current : TracePhase) (operation : String) : TraceNode where
  phase := current
  source := .externalMetadata
  operation := metadataOperation operation
  key := .unmapped operation
  disposition := .executed
  childOrder := .sequential
  observations := 1
  children := []

/-! ### The forest of a log -/

/-- The open nodes stand in `stack` with the innermost first. -/
structure TraceBuilder where
  roots : List TraceNode
  stack : List TraceNode

namespace TraceBuilder

def push (b : TraceBuilder) (node : TraceNode) : TraceBuilder :=
  { b with stack := node :: b.stack }

def error (b : TraceBuilder) (message : String) : TraceBuilder :=
  { b with roots := b.roots ++ [unbalancedTraceEvent message] }

def attach (b : TraceBuilder) (node : TraceNode) : TraceBuilder :=
  match b.stack with
  | parent :: stack =>
      { b with stack := { parent with children := parent.children ++ [node] } :: stack }
  | [] => { b with roots := b.roots ++ [node] }

/-- The phase of what is called now. -/
def current (b : TraceBuilder) (defaultPhase : TracePhase) : TracePhase :=
  (b.stack.head?.map TraceNode.phase).getD defaultPhase

section

variable (traceSortKey : TraceNode → String) (defaultPhase : TracePhase)

/-- The innermost node ends; `matched` says whether the event was about it. -/
def leave (b : TraceBuilder) (missing : String) (matched : TraceNode → Bool)
    (mismatch : TraceNode → String) (finish : TraceNode → TraceNode) : TraceBuilder :=
  match b.stack with
  | [] => b.error missing
  | node :: stack =>
      let b := { b with stack }
      let b := if matched node then b else b.error (mismatch node)
      b.attach (normalizeUnorderedChildren traceSortKey (finish node))

def step (b : TraceBuilder) : InspectionEvent → TraceBuilder
  | .phaseEnter phase => b.push (phaseNode defaultPhase phase [])
  | .phaseExit phase =>
      b.leave traceSortKey ("phase exit without enter: " ++ phase)
        (fun node => node.operation = phase)
        (fun node => "phase exit `" ++ phase ++ "` did not match `" ++ node.operation ++ "`") id
  | .spanEnter operation source childOrder =>
      b.push (spanNode (b.current defaultPhase) operation source childOrder [])
  | .spanExit operation =>
      b.leave traceSortKey ("semantic span exit without enter: " ++ operation)
        (fun node => node.operation = operation)
        (fun node => "semantic span exit `" ++ operation ++ "` did not match `" ++
          node.operation ++ "`") id
  | .queryEnter key => b.push (queryNode (b.current defaultPhase) key .observed 1 [])
  | .queryExit key disposition =>
      b.leave traceSortKey ("exit without enter: " ++ key)
        (fun node => node.key = .unmapped key)
        (fun _ => "query exit `" ++ key ++ "` did not match the active span")
        fun node => { node with disposition := traceDisposition disposition }
  | .queryLeaf key disposition observations =>
      b.attach (queryNode (b.current defaultPhase) key (traceDisposition disposition)
        observations [])
  | .externalMetadata operation =>
      b.attach (metadataNode (b.current defaultPhase) operation)

/-- What is still open at the end was only observed. -/
def closeNode (roots : List TraceNode) : TraceNode → List TraceNode → List TraceNode
  | node, [] => roots ++ [{ node with disposition := .observed }]
  | node, parent :: stack =>
      closeNode roots { parent with children := parent.children ++
        [{ node with disposition := .observed }] } stack

def close (b : TraceBuilder) : List TraceNode :=
  match b.stack with
  | [] => b.roots
  | node :: stack => closeNode b.roots node stack

end

end TraceBuilder

section

variable (traceSortKey : TraceNode → String)

def buildDynamicTrace (events : List InspectionEvent) (defaultPhase : TracePhase) :
    List TraceNode :=
  (events.foldl (TraceBuilder.step traceSortKey defaultPhase) ⟨[], []⟩).close

mutual

/-- The arguments of an unknown key depend on allocation. -/
def normalizeNode : TraceNode → TraceNode
  | ⟨phase, source, operation, key, disposition, childOrder, observations, children⟩ =>
      let key :=
        match key with
        | .unmapped _ => .unmapped operation
        | .semantic value => .semantic value
      normalizeUnorderedChildren traceSortKey
        ⟨phase, source, operation, key, disposition, childOrder, observations,
          normalizeNodes children⟩

def normalizeNodes : List TraceNode → List TraceNode
  | [] => []
  | node :: nodes => normalizeNode node :: normalizeNodes nodes

end

def snapshotTrace (events : List InspectionEvent) : List TraceNode :=
  normalizeNodes traceSortKey (buildDynamicTrace traceSortKey events .analysis)

end

end Sage.Inspector.Tracing
