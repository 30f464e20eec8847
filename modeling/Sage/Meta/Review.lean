import Sage.Library.Text
import Sage.Meta.Evidence
import Sage.Meta.Redirects

/-!
# Meta — reviews of anchors

A review captures the sources it was made from.  It counts as long as they are what they were.

* `select` — the text that a captured fragment names.
* `inputErrors` — how the captured sources differ from the current ones.
* `loadSaved`, `acceptable`, `validate` — the saved reviews, and the gate.
-/

namespace Sage.Meta.Review

open Text

def schemaVersion : Nat := 4

def policyVersion : Nat := 4

def reviewSkill : String := ".agents/skills/sage-review-checklist/SKILL.md"

inductive Selector where
  | wholeFile
  | lineRange (start stop : Nat)
  | claim (anchorId : String)
  | test (crateName target rustPath : String)
deriving DecidableEq

/-- A part of a source, as the lines of its text. -/
structure InputFragment where
  path : String
  selector : Selector
  contents : List (List Char)
deriving DecidableEq

structure ReviewImplementation where
  crateName : String
  target : String
  module : String
  file : String
  cfg : List String
  excerpt : List (List Char)
  region : Bool
  status : EvidenceStatus
  explanation : Option (List Char)
deriving DecidableEq

structure ReviewTest where
  crateName : String
  target : String
  rustPath : String
  file : String
  cfg : List String
  status : EvidenceStatus
deriving DecidableEq

structure ReviewInput where
  prompt : String
  coordinatorInstructions : List String
  fragments : List InputFragment
  implementations : List ReviewImplementation
  tests : List ReviewTest
deriving DecidableEq

structure ValidationOutput where
  reviewer : List Char
  report : List Char
  requestedEdits : List (List Char)
deriving DecidableEq

structure ReviewRecord where
  anchor : String
  input : ReviewInput
  output : Option ValidationOutput
deriving DecidableEq

structure ReviewIssue where
  anchor : Option String
  message : String
deriving DecidableEq

structure ReviewChecklist where
  schemaVersion : Nat
  policyVersion : Nat
  reviews : List ReviewRecord
  issues : List ReviewIssue
deriving DecidableEq

/-! ### Texts of messages -/

def debugChar (c : Char) : List Char :=
  if c = '"' then ['\\', '"']
  else if c = '\\' then ['\\', '\\']
  else if c = '\n' then ['\\', 'n']
  else if c = '\r' then ['\\', 'r']
  else if c = '\t' then ['\\', 't']
  else [c]

def debugString (text : String) : String :=
  "\"" ++ String.ofList (text.toList.flatMap debugChar) ++ "\""

def Selector.debug : Selector → String
  | wholeFile => "WholeFile"
  | lineRange start stop =>
      "LineRange \x7b start: " ++ start.repr ++ ", end: " ++ stop.repr ++ " \x7d"
  | claim anchorId => "Claim \x7b anchor_id: " ++ debugString anchorId ++ " \x7d"
  | test crateName target rustPath =>
      "Test \x7b crate_name: " ++ debugString crateName ++ ", target: " ++ debugString target ++
        ", rust_path: " ++ debugString rustPath ++ " \x7d"

/-! ### Selected sources -/

structure SpecAnchor where
  file : String
  content : List Char

structure SpecView where
  hasDiagnostics : Bool
  anchors : List (String × SpecAnchor)

structure TestSite where
  file : String
  crateName : String
  target : String
  rustPath : String
  span : Span
deriving DecidableEq

structure RustView where
  hasDiagnostics : Bool
  tests : List TestSite
  files : List (String × List Char)

/-- What a workspace holds: its files, and the two inventories read from them. -/
structure Workspace where
  root : List String
  canonicalize : String → Except String (List String)
  readToString : List String → Except String (List Char)
  spec : Except String SpecView
  claimPath : String → Except String String
  rust : Except String RustView

def Workspace.sourcePath (workspace : Workspace) (path : String) :
    Except String (List String) := do
  if path.isEmpty || path.toList.head? == some '/' ||
      Redirect.hasOtherComponent path.toList then
    throw "source reads require a workspace-relative path without traversal"
  let resolved ← workspace.canonicalize path
  if !workspace.root.isPrefixOf resolved then throw "source read escapes workspace"
  return resolved

/-- The lines of a text, each with its end. -/
def splitInclusive : List Char → List (List Char)
  | [] => []
  | c :: text =>
      if c = '\n' then [c] :: splitInclusive text
      else match splitInclusive text with
        | [] => [[c]]
        | line :: lines => (c :: line) :: lines

/-- The text between two positions, if both are between characters of it. -/
def getBytes (text : List Char) (span : Span) : Option (List Char) :=
  if span.start ≤ span.stop ∧ byteLength (takeBytes span.start text) = span.start ∧
      byteLength (takeBytes span.stop text) = span.stop then some (slice text span)
  else none

def select (workspace : Workspace) (path : String) (selector : Selector) :
    Except String (List Char) := do
  let resolved ← workspace.sourcePath path
  match selector with
  | .wholeFile => workspace.readToString resolved
  | .lineRange start stop =>
      let source ← workspace.readToString resolved
      let lines := splitInclusive source
      if start = 0 ∨ stop < start ∨ stop > lines.length then
        throw "invalid or out-of-bounds line range"
      return ((lines.take stop).drop (start - 1)).flatten
  | .claim anchorId =>
      let spec ← workspace.spec
      if spec.hasDiagnostics then throw "invalid or ambiguous specification inventory"
      match spec.anchors.lookup anchorId with
      | none => throw "claim selector no longer resolves"
      | some claim =>
          let path ← workspace.claimPath claim.file
          if (← workspace.sourcePath path) ≠ resolved then
            throw "claim selector source path does not match"
          return claim.content
  | .test crateName target rustPath =>
      let rust ← workspace.rust
      if rust.hasDiagnostics then throw "invalid or ambiguous Rust inventory"
      let sites := rust.tests.filter fun site =>
        site.crateName = crateName ∧ site.target = target ∧ site.rustPath = rustPath
      let sites ← sites.filterM fun site => do
        return (← workspace.sourcePath site.file) = resolved
      match (sites.map fun site => (site.span, site.file)).dedup with
      | [(span, file)] =>
          match (rust.files.lookup file).bind (getBytes · span) with
          | none => throw "missing selected test source"
          | some text => return text
      | _ => throw "test selector is missing or ambiguous"

/-! ### Freshness -/

def joinLines (contents : List (List Char)) : List Char := ['\n'].intercalate contents

/-- Initial fragments are an ordered prefix; reads append without changing it. -/
def inputErrors (workspace : Workspace) (saved current : ReviewInput) : List String :=
  (if saved.prompt ≠ current.prompt then ["verification prompt changed"] else []) ++
  (if saved.implementations ≠ current.implementations then
    ["implementation associations or metadata changed"] else []) ++
  (if saved.tests ≠ current.tests then ["test associations or metadata changed"] else []) ++
  (if saved.fragments.length < current.fragments.length then
    ["missing initial source fragments"] else []) ++
  (current.fragments.zipIdx.filterMap fun (expected, index) =>
    if saved.fragments[index]? ≠ some expected then
      some ("initial fragment changed: " ++ expected.path ++ " " ++ expected.selector.debug)
    else none) ++
  (saved.fragments.drop current.fragments.length).filterMap fun fragment =>
    match select workspace fragment.path fragment.selector with
    | .ok text =>
        if text = joinLines fragment.contents then none
        else some ("fragment contents changed: " ++ fragment.path ++ " " ++
          fragment.selector.debug)
    | .error error =>
        some ("fragment " ++ fragment.path ++ " " ++ fragment.selector.debug ++ ": " ++ error)

def inputsMatch (workspace : Workspace) (saved current : ReviewInput) : Bool :=
  (inputErrors workspace saved current).isEmpty

def outputError (output : ValidationOutput) : Option String :=
  if (trim output.reviewer).isEmpty || (trim output.report).isEmpty then
    some "completed output requires a nonblank reviewer and report"
  else if output.requestedEdits.any fun edit => (trim edit).isEmpty then
    some "requested edits must be concrete, nonblank strings"
  else none

/-! ### Saved reviews -/

structure Summary where
  anchor : String
  recordedAt : Option Nat
  schemaVersion : Nat
  policyVersion : Nat

/-- The name of a file; one that is no text reads with replacement characters. -/
inductive FileName where
  | text (name : String)
  | other (lossy : String) (replaced : '\uFFFD' ∈ lossy.toList)

def FileName.lossy : FileName → String
  | text name => name
  | other lossy _ => lossy

/-- A saved validation, by what reading its parts gives. -/
structure SavedEntry where
  name : FileName
  directory : Except String Unit
  summary : Except String Summary
  input : Except String ReviewInput
  output : Except String ValidationOutput

/-- The entries of a directory, in the order of their names. -/
structure SavedDirectory where
  entries : List SavedEntry
  distinct : (entries.map SavedEntry.name).Nodup

def readSummary (entry : SavedEntry) (anchor : String) : Except String Summary := do
  entry.directory
  let summary ← entry.summary
  if summary.anchor ≠ anchor then throw "summary anchor does not match directory"
  if summary.schemaVersion ≠ schemaVersion ∨ summary.policyVersion ≠ policyVersion then
    throw "unsupported schema/policy; start a fresh review"
  return summary

def loadEntry (entry : SavedEntry) : Except String ReviewRecord := do
  let anchor := entry.name.lossy
  if !validAnchorName anchor.toList then throw "invalid validation directory name"
  let summary ← readSummary entry anchor
  let input ← entry.input
  if summary.recordedAt.isSome then
    let output ← entry.output
    match outputError output with
    | some error => throw error
    | none => return { anchor, input, output := some output }
  else return { anchor, input, output := none }

def entryIssue (entry : SavedEntry) : Option ReviewIssue :=
  match loadEntry entry with
  | .ok _ => none
  | .error error =>
      let anchor := entry.name.lossy
      some
        { anchor := some anchor
          message := "invalid validation " ++ anchor ++ ": " ++ error ++ "; invoke " ++
            reviewSkill ++ " and run cargo meta review start " ++ anchor }

def SavedDirectory.checklist (saved : SavedDirectory) : ReviewChecklist where
  schemaVersion := Review.schemaVersion
  policyVersion := Review.policyVersion
  reviews := saved.entries.filterMap fun entry => (loadEntry entry).toOption
  issues := saved.entries.filterMap entryIssue

/-- `none` is a directory that does not exist. -/
def loadSaved (path : Option (Except String SavedDirectory)) : Except String ReviewChecklist :=
  match path with
  | none => .ok { schemaVersion, policyVersion, reviews := [], issues := [] }
  | some saved => saved.map SavedDirectory.checklist

/-! ### Decisions -/

def ReviewRecord.accepts (workspace : Workspace) (anchor : String) (input : ReviewInput)
    (record : ReviewRecord) : Bool :=
  record.anchor = anchor && !input.tests.isEmpty && !input.implementations.isEmpty &&
    (record.output.any fun output =>
      (outputError output).isNone && output.requestedEdits.isEmpty) &&
    inputsMatch workspace record.input input

def acceptable (workspace : Workspace) (anchor : String) (input : ReviewInput)
    (checklist : ReviewChecklist) : Option ReviewRecord :=
  if checklist.schemaVersion ≠ schemaVersion ∨ checklist.policyVersion ≠ policyVersion then none
  else checklist.reviews.find? (ReviewRecord.accepts workspace anchor input)

/-- Why the review of an anchor does not count. -/
def reasons (workspace : Workspace) (checklist : ReviewChecklist) (anchor : String)
    (input : ReviewInput) : List String :=
  (match checklist.reviews.find? (·.anchor = anchor) with
    | none => ["missing or invalid validation"]
    | some record =>
        (match record.output with
          | none => ["unfinished review: subagent must run cargo meta review record"]
          | some output =>
              (outputError output).toList ++
                if output.requestedEdits.isEmpty then []
                else ["requested edits: " ++
                  "; ".intercalate (output.requestedEdits.map String.ofList)]) ++
          inputErrors workspace record.input input) ++
  (if input.tests.isEmpty then ["missing test association"] else []) ++
  if input.implementations.isEmpty then ["missing implementation association"] else []

def validate (workspace : Workspace) (current : List (String × ReviewInput))
    (checklist : ReviewChecklist) : List ReviewIssue :=
  let anchors := checklist.reviews.map ReviewRecord.anchor ++
    checklist.issues.filterMap ReviewIssue.anchor
  checklist.issues ++
  (anchors.filterMap fun anchor =>
    if (current.lookup anchor).isSome then none
    else some
      { anchor := some anchor
        message := "obsolete validation for " ++ anchor ++ ": remove validations/" ++ anchor ++
          "/ if retired, or reconcile the renamed anchor and start fresh validation; invoke " ++
          reviewSkill }) ++
  current.filterMap fun (anchor, input) =>
    match reasons workspace checklist anchor input with
    | [] => none
    | reasons => some
        { anchor := some anchor
          message := "review required for " ++ anchor ++ ": " ++ "; ".intercalate reasons ++
            "; invoke " ++ reviewSkill }

end Sage.Meta.Review
