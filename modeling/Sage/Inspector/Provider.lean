import Sage.Inspector.Product

/-!
# Inspector — the live provider

The provider answers requests over one host.  It retains the latest revisions with the runs,
products and continuation pages recorded in them, and a directory of symbols that edits make stale.
Each operation returns an answer or an error, with the provider after it.
-/

namespace Sage.Inspector

abbrev RunHandle := String
abbrev RevisionId := String
abbrev ContinuationHandle := String

def retainedRevisionLimit : Nat := 64

structure ApiError where
  code : String
  message : String

structure Provided (α : Type) where
  revisionId : RevisionId
  runId : Option RunHandle
  value : α

inductive RunRequest where
  | symbolIndex
  | symbol (target : SymbolPath)
  | product (target : SymbolPath) (product : ProductId)

def RunRequest.rootKey : RunRequest → String
  | symbolIndex => "local-symbol-index"
  | symbol target | product target _ => target

inductive TracePhase where
  | bootstrap
  | selection
  | analysis

structure RunObservation where
  runId : RunHandle
  request : RunRequest
  phase : TracePhase
  operation : String
  key : String

structure InputDelta where
  path : String
  oldHash : UInt64
  newHash : UInt64
  diff : String

inductive RevisionCause where
  | initial
  | inputEdit (editBatch : String)
  | workspaceReload (previousRevisionId : RevisionId) (reason : Issue)

structure RetainedRevision where
  revisionId : RevisionId
  cause : RevisionCause
  inputDeltas : List InputDelta
  runs : List RunHandle

structure RetainedProduct where
  runId : Option RunHandle

structure RevisionSummary where
  revisionId : RevisionId
  cause : RevisionCause
  inputDeltaCount : Nat
  runCount : Nat

structure RevisionDetail where
  summary : RevisionSummary
  inputDeltas : List InputDelta
  runs : List RunHandle

structure RevisionAdvanced where
  revisionId : RevisionId
  editBatch : String
  changedInputs : List String

structure WorkspaceReloaded where
  previousRevisionId : RevisionId
  revisionId : RevisionId
  reason : Issue

structure FileUpdate where
  path : String
  text : String

/-- The part of the host that the provider uses. -/
structure SageHost (σ : Type) where
  texts : SourceTexts
  storage : σ
  sourceRoot : String

structure LiveInspectionProvider (σ : Type) where
  host : SageHost σ
  databaseGeneration : Nat
  nextEditBatch : Nat
  nextRun : Nat
  nextContinuation : Nat
  runs : PartialMap RunHandle RunObservation
  continuations : PartialMap ContinuationHandle (List ValueNode)
  revisions : List RetainedRevision
  products : PartialMap (RevisionId × SymbolPath × ProductId) RetainedProduct
  directory : Option SymbolDirectory
  directoryStale : Bool

def RetainedRevision.summary (revision : RetainedRevision) : RevisionSummary :=
  ⟨revision.revisionId, revision.cause, revision.inputDeltas.length, revision.runs.length⟩

def contentHash (text : String) : UInt64 :=
  text.toUTF8.data.toList.foldl (fun hash byte => (hash ^^^ byte.toUInt64) * 0x100000001b3)
    0xcbf29ce484222325

/-- `str::lines` on the characters of a text. -/
def linesFrom : List Char → List (List Char)
  | [] => []
  | '\n' :: rest => [] :: linesFrom rest
  | '\r' :: '\n' :: rest => [] :: linesFrom rest
  | c :: rest =>
      match linesFrom rest with
      | [] => [[c]]
      | line :: lines => (c :: line) :: lines

def commonPrefix : List (List Char) → List (List Char) → Nat
  | a :: before, b :: after => if a = b then commonPrefix before after + 1 else 0
  | _, _ => 0

def lineDiff (before after : String) : String :=
  let before := linesFrom before.toList
  let after := linesFrom after.toList
  let common := commonPrefix before after
  String.ofList ((before.drop common).flatMap (fun line => '-' :: ' ' :: line ++ ['\n']) ++
    (after.drop common).flatMap (fun line => '+' :: ' ' :: line ++ ['\n']))

/-- The name of a revision of one database. -/
def revisionName (generation revision : Nat) : RevisionId :=
  "db" ++ generation.repr ++ "-rev" ++ revision.repr

section Provider

variable {σ : Type} [Queries σ]

open Queries

namespace SageHost

def salsaRevision (host : SageHost σ) : Nat := currentRevision host.storage

def setSourceText (host : SageHost σ) (path text : String) : SageHost σ :=
  { host with texts := host.texts.insert path text, storage := setText host.storage path text }

/-- Evaluate queries in the host's database. -/
def withContext {α : Type} (host : SageHost σ) (e : Evaluation) (f : SourceTexts → σ → α) :
    α × SageHost σ :=
  (f host.texts host.storage, { host with storage := evaluate host.storage e })

def normalizeSourcePath (host : SageHost σ) (path : String) : String :=
  (stripPrefix σ host.sourceRoot path).getD path

end SageHost

namespace LiveInspectionProvider

abbrev Answer (σ α : Type) := Except ApiError (Provided α) × LiveInspectionProvider σ

def new (host : SageHost σ) : LiveInspectionProvider σ where
  host := host
  databaseGeneration := 0
  nextEditBatch := 0
  nextRun := 0
  nextContinuation := 0
  runs := PartialMap.empty
  continuations := PartialMap.empty
  revisions := [⟨revisionName 0 host.salsaRevision, .initial, [], []⟩]
  products := PartialMap.empty
  directory := none
  directoryStale := false

def revisionId (p : LiveInspectionProvider σ) : RevisionId :=
  revisionName p.databaseGeneration p.host.salsaRevision

def provided {α : Type} (p : LiveInspectionProvider σ) (value : α) : Provided α :=
  ⟨p.revisionId, none, value⟩

/-- Change the last revision. -/
def modifyLast (f : RetainedRevision → RetainedRevision) :
    List RetainedRevision → List RetainedRevision
  | [] => []
  | [revision] => [f revision]
  | revision :: revisions => revision :: modifyLast f revisions

def runName (n : Nat) : RunHandle := "run_" ++ n.repr

def record {α : Type} (p : LiveInspectionProvider σ) (request : RunRequest) (phase : TracePhase)
    (operation : String) (value : α) : Provided α × LiveInspectionProvider σ :=
  let nextRun := p.nextRun + 1
  let runId := runName nextRun
  let p := { p with
    nextRun
    runs := p.runs.insert runId ⟨runId, request, phase, operation, request.rootKey⟩
    revisions := modifyLast (fun r => { r with runs := r.runs ++ [runId] }) p.revisions }
  (⟨p.revisionId, some runId, value⟩, p)

/-- Remove what is recorded in a revision. -/
def expire (p : LiveInspectionProvider σ) (expired : RetainedRevision) :
    LiveInspectionProvider σ :=
  { p with
    runs := expired.runs.foldl PartialMap.remove p.runs
    products := p.products.retain fun key => key.1 ≠ expired.revisionId
    continuations := p.continuations.retain fun handle =>
      !startsWith handle (expired.revisionId ++ "_") }

def pushRevision (p : LiveInspectionProvider σ) (revision : RetainedRevision) :
    LiveInspectionProvider σ :=
  let p := { p with revisions := p.revisions ++ [revision] }
  if p.revisions.length ≤ retainedRevisionLimit then p
  else
    match p.revisions with
    | [] => p
    | expired :: revisions => { p with revisions }.expire expired

def directory' (p : LiveInspectionProvider σ) : SymbolDirectory × LiveInspectionProvider σ :=
  match p.directory with
  | some directory => (directory, p)
  | none =>
      let (directory, host) := p.host.withContext .directory buildSymbolDirectory
      (directory, { p with host, directory := some directory })

/-! ### The operations -/

def revision (p : LiveInspectionProvider σ) : Answer σ Unit := (.ok (p.provided ()), p)

/-- The range of retained revisions that a session reports. -/
def session (p : LiveInspectionProvider σ) : Answer σ (Option RevisionId × Option RevisionId) :=
  (.ok (p.provided (p.revisions.head?.map RetainedRevision.revisionId, some p.revisionId)), p)

def symbols (p : LiveInspectionProvider σ) : Answer σ SymbolIndex :=
  let (directory, host) := p.host.withContext .directory buildSymbolDirectory
  let p := { p with host, directory := some directory, directoryStale := false }
  let (answer, p) := p.record .symbolIndex .bootstrap "local-symbol-index" directory.index
  (.ok answer, p)

def symbol (p : LiveInspectionProvider σ) (path : SymbolPath) : Answer σ SelectedSymbol :=
  let p := if p.directoryStale then { p with directory := none } else p
  let (directory, p) := p.directory'
  let p := { p with directoryStale := false }
  let (selected, host) := p.host.withContext (.selection path) fun texts storage =>
    selectedSymbol texts storage directory path
  let p := { p with host }
  match selected with
  | none => (.error ⟨"symbol-not-found", "unknown symbol path `" ++ path ++ "`"⟩, p)
  | some selected =>
      let (answer, p) := p.record (.symbol path) .selection "select-symbol" selected
      (.ok answer, p)

def product (p : LiveInspectionProvider σ) (symbol : SymbolPath) (product : ProductId) :
    Answer σ ProductPage :=
  let p := { p with nextContinuation := p.nextContinuation + 1 }
  let continuationPrefix := p.revisionId ++ "_product_" ++ p.nextContinuation.repr
  let (directory, p) := p.directory'
  -- the paths and labels of a stale directory belong to an earlier revision
  let directory :=
    if p.directoryStale then { directory with references := PartialMap.empty } else directory
  let (generated, host) := p.host.withContext (.product symbol product) fun texts storage =>
    identityProduct texts storage directory symbol product continuationPrefix
  let p := { p with host }
  match generated with
  | none => (.error ⟨"product-not-found",
      "product `" ++ product ++ "` is not listed for `" ++ symbol ++ "`"⟩, p)
  | some generated =>
      let p := { p with continuations := p.continuations.extend generated.continuations }
      let (answer, p) := p.record (.product symbol product) .analysis "product" generated.page
      (.ok answer,
        { p with products := p.products.insert (p.revisionId, symbol, product) ⟨answer.runId⟩ })

@[grind =] def continuation (p : LiveInspectionProvider σ) (handle : ContinuationHandle) :
    Answer σ (List ValueNode) :=
  match p.continuations handle with
  | none => (.error ⟨"continuation-not-found", "unknown continuation `" ++ handle ++ "`"⟩, p)
  | some items => (.ok (p.provided items), p)

@[grind =] def run (p : LiveInspectionProvider σ) (handle : RunHandle) : Answer σ RunObservation :=
  match p.runs handle with
  | none => (.error ⟨"run-not-found", "unknown run `" ++ handle ++ "`"⟩, p)
  | some run => (.ok (p.provided run), p)

def revisionPage (p : LiveInspectionProvider σ) : Answer σ (List RevisionSummary) :=
  (.ok (p.provided (p.revisions.reverse.map RetainedRevision.summary)), p)

def revisionDetail (p : LiveInspectionProvider σ) (revision : RevisionId) :
    Answer σ RevisionDetail :=
  match p.revisions.find? (·.revisionId = revision) with
  | none => (.error ⟨"revision-not-found", "unknown revision `" ++ revision ++ "`"⟩, p)
  | some revision => (.ok (p.provided ⟨revision.summary, revision.inputDeltas, revision.runs⟩), p)

/-- Whether two products can be compared; what the comparison says of them is left out. -/
def compare (p : LiveInspectionProvider σ) (source target : RevisionId) (symbol : SymbolPath)
    (product : ProductId) : Answer σ Unit :=
  match p.products (source, symbol, product), p.products (target, symbol, product) with
  | none, _ => (.error ⟨"comparison-value-not-found",
      "the product was not inspected in the starting revision"⟩, p)
  | some _, none => (.error ⟨"comparison-value-not-found",
      "the product was not inspected in the ending revision"⟩, p)
  | some _, some _ => (.ok (p.provided ()), p)

/-- Write the texts of a batch that differ from what the host has. -/
def writeUpdates : SageHost σ → List FileUpdate → SageHost σ × List InputDelta
  | host, [] => (host, [])
  | host, ⟨path, text⟩ :: updates =>
      match host.texts path with
      | none => writeUpdates host updates
      | some oldText =>
          if oldText = text then writeUpdates host updates
          else
            let (host, deltas) := writeUpdates (host.setSourceText path text) updates
            (host, ⟨path, contentHash oldText, contentHash text, lineDiff oldText text⟩ :: deltas)

def applyUpdates (p : LiveInspectionProvider σ) (updates : List FileUpdate) :
    Answer σ RevisionAdvanced :=
  let updates := updates.map fun u => { u with path := p.host.normalizeSourcePath u.path }
  match updates.find? fun u => (p.host.texts u.path).isNone with
  | some u => (.error ⟨"unrepresented-source-file",
      "source file `" ++ u.path ++ "` is not registered in the current host"⟩, p)
  | none =>
      let (host, deltas) := writeUpdates p.host updates
      let p := { p with host }
      if deltas.isEmpty then
        (.error ⟨"no-input-changes",
          "the file notification did not change a represented source input"⟩, p)
      else
        let p := { p with directoryStale := true, nextEditBatch := p.nextEditBatch + 1 }
        let editBatch := "edit-" ++ p.nextEditBatch.repr
        let p := p.pushRevision ⟨p.revisionId, .inputEdit editBatch, deltas, []⟩
        (.ok (p.provided ⟨p.revisionId, editBatch, deltas.map InputDelta.path⟩), p)

/-- Reload with the host that reopening the workspace gave, or the reason why it gave none. -/
def reloadWorkspace (p : LiveInspectionProvider σ) (reason : Issue)
    (replacement : Except String (SageHost σ)) : Answer σ WorkspaceReloaded :=
  let previousRevisionId := p.revisionId
  match replacement with
  | .error message => (.error ⟨"workspace-reload-failed",
      "the inspection host could not be reconstructed: " ++ message⟩, p)
  | .ok host =>
      let p := { p with
        host
        directory := none
        directoryStale := false
        databaseGeneration := p.databaseGeneration + 1
        continuations := PartialMap.empty }
      let p := p.pushRevision
        ⟨p.revisionId, .workspaceReload previousRevisionId reason, [], []⟩
      (.ok (p.provided ⟨previousRevisionId, p.revisionId, reason⟩), p)

end LiveInspectionProvider

end Provider

/-! ### Runs -/

inductive Operation (σ : Type) where
  | revision
  | session
  | symbols
  | symbol (path : SymbolPath)
  | product (symbol : SymbolPath) (product : ProductId)
  | continuation (handle : ContinuationHandle)
  | run (handle : RunHandle)
  | revisions
  | revisionDetail (revision : RevisionId)
  | compare (source target : RevisionId) (symbol : SymbolPath) (product : ProductId)
  | applyUpdates (updates : List FileUpdate)
  | reloadWorkspace (reason : Issue) (replacement : Except String (SageHost σ))

inductive Response where
  | revision (answer : Provided Unit)
  | session (answer : Provided (Option RevisionId × Option RevisionId))
  | symbols (answer : Provided SymbolIndex)
  | symbol (answer : Provided SelectedSymbol)
  | product (answer : Provided ProductPage)
  | continuation (answer : Provided (List ValueNode))
  | run (answer : Provided RunObservation)
  | revisions (answer : Provided (List RevisionSummary))
  | revisionDetail (answer : Provided RevisionDetail)
  | compare (answer : Provided Unit)
  | revisionAdvanced (answer : Provided RevisionAdvanced)
  | workspaceReloaded (answer : Provided WorkspaceReloaded)

namespace LiveInspectionProvider

variable {σ : Type} [Queries σ]

def perform (p : LiveInspectionProvider σ) :
    Operation σ → Except ApiError Response × LiveInspectionProvider σ
  | .revision => p.revision.map (Except.map .revision) id
  | .session => p.session.map (Except.map .session) id
  | .symbols => p.symbols.map (Except.map .symbols) id
  | .symbol path => (p.symbol path).map (Except.map .symbol) id
  | .product symbol product => (p.product symbol product).map (Except.map .product) id
  | .continuation handle => (p.continuation handle).map (Except.map .continuation) id
  | .run handle => (p.run handle).map (Except.map .run) id
  | .revisions => p.revisionPage.map (Except.map .revisions) id
  | .revisionDetail revision => (p.revisionDetail revision).map (Except.map .revisionDetail) id
  | .compare source target symbol product =>
      (p.compare source target symbol product).map (Except.map .compare) id
  | .applyUpdates updates => (p.applyUpdates updates).map (Except.map .revisionAdvanced) id
  | .reloadWorkspace reason replacement =>
      (p.reloadWorkspace reason replacement).map (Except.map .workspaceReloaded) id

/-- The product pages returned since the last reload, after one more response. -/
def pagesAfter (pages : List (Provided ProductPage)) :
    Except ApiError Response → List (Provided ProductPage)
  | .ok (.product answer) => answer :: pages
  | .ok (.workspaceReloaded _) => []
  | _ => pages

/-- A run of the provider, with the product pages it returned since the last reload. -/
inductive Run (host : SageHost σ) : List (Provided ProductPage) → LiveInspectionProvider σ → Prop
  | new : Run host [] (.new host)
  | step {pages : List (Provided ProductPage)} {p : LiveInspectionProvider σ} (h : Run host pages p)
      (operation : Operation σ) :
      Run host (pagesAfter pages (p.perform operation).1) (p.perform operation).2

end LiveInspectionProvider

end Sage.Inspector
