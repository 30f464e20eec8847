import Sage.Library.Brackets
import Sage.Meta.Correspondence
import Sage.Meta.Session

/-!
# Meta — the observer of query events

The events of one database on one thread become calls of a contract session.  The observer keeps
the scopes that are open; some of them carry an invocation of the session.

* `SalsaObserver.event` — what an event does to the scopes and to the session.
* `InStep` — the open invocations of the session are those of the open scopes.
* `observer_in_step` — this holds after any events, and what a conforming report says of them.
-/

namespace Sage.Meta.Salsa

open Brackets

structure DatabaseKeyIndex where
  ingredientIndex : Nat
  keyIndex : Nat
deriving DecidableEq

/-- The declaration of a query. -/
structure QuerySource where
  file : String
  line : Nat
  name : String
deriving DecidableEq

inductive RequestCause where
  | fetch
  | accumulatorTraversal
deriving DecidableEq

inductive QueryDisposition where
  | executed
  | validated
  | reused
  | cancelled
deriving DecidableEq

inductive EventKind where
  | willRequest (databaseKey : DatabaseKeyIndex)
  | didRequest (databaseKey : DatabaseKeyIndex) (disposition : QueryDisposition)
  | willExecute (databaseKey : DatabaseKeyIndex)
  | didExecute (databaseKey : DatabaseKeyIndex)
  /-- An event that is not about the life of a query. -/
  | other
deriving DecidableEq

structure Event where
  threadId : Nat
  kind : EventKind
  querySource : Option QuerySource
  requestCause : Option RequestCause
deriving DecidableEq

inductive QueryEventKind where
  | request
  | execute
  | executed
  | return
deriving DecidableEq

structure QueryEvent where
  kind : QueryEventKind
  definition : Nat
  key : Nat
  file : String
  line : Nat
  operation : Option String
  site : Option RustSite
  accumulatorTraversal : Bool
  outcome : Option QueryDisposition
deriving DecidableEq

structure SalsaReport where
  contracts : ContractReport
  events : List QueryEvent

structure Mapping where
  operation : String
  site : RustSite
deriving DecidableEq

structure Definition where
  id : Nat
  source : QuerySource
  mapping : Except LookupError Mapping

inductive ScopeKind where
  | request (executed : Bool) (cause : Option RequestCause)
  | execution
deriving DecidableEq

structure Scope where
  key : DatabaseKeyIndex
  invocation : Option InvocationId
  kind : ScopeKind
deriving DecidableEq

/-- The open scopes stand in `scopes` with the innermost first. -/
structure SalsaObserver where
  index : CorrespondenceIndex
  verifiedFiles : List String
  definitions : List (Nat × Definition)
  session : ContractSession
  scopes : List Scope
  events : List QueryEvent
  thread : Option Nat

namespace SalsaObserver

def new (model : ContractModel) (index : CorrespondenceIndex) (roots : List String)
    (compiledSources : List (String × String)) : Except LookupError SalsaObserver := do
  let verifiedFiles ← compiledSources.mapM fun (file, source) => do
    index.verifySource file source
    pure (index.sourceKey file)
  pure
    { index
      verifiedFiles
      definitions := []
      session := .new model roots
      scopes := []
      events := []
      thread := none }

def recordGap (o : SalsaObserver) (message : String) : SalsaObserver :=
  { o with session := o.session.recordGap message }

/-! ### Events -/


/-- The key of an event about a query, with its outcome for a return. -/
def lifecycle : EventKind → Option (DatabaseKeyIndex × QueryEventKind × Option QueryDisposition)
  | .willRequest key => some (key, .request, none)
  | .willExecute key => some (key, .execute, none)
  | .didExecute key => some (key, .executed, none)
  | .didRequest key disposition => some (key, .return, some disposition)
  | .other => none

/-- What a declaration is, in a file that is the one that was compiled. -/
def mapSource (o : SalsaObserver) (source : QuerySource) : Except LookupError Mapping := do
  let matched ← o.index.lookup source.file source.line
  if matched.site.file ∈ o.verifiedFiles then pure ⟨matched.sageItem, matched.site⟩
  else throw (.sourceMismatch matched.site.file)

/-- The definition of a query, which the first event about it makes. -/
def define (o : SalsaObserver) (ingredient : Nat) (source : QuerySource) :
    SalsaObserver × Definition :=
  match o.definitions.lookup ingredient with
  | some definition => (o, definition)
  | none =>
      let definition := ⟨o.definitions.length, source, o.mapSource source⟩
      ({ o with definitions := o.definitions ++ [(ingredient, definition)] }, definition)

/-- An event about a query is recorded, with what is wrong with it. -/
def note (o : SalsaObserver) (event : Event) (key : DatabaseKeyIndex) (kind : QueryEventKind)
    (outcome : Option QueryDisposition) (source : QuerySource) :
    SalsaObserver × Option Mapping :=
  let (o, definition) := o.define key.ingredientIndex source
  let o :=
    if definition.source = source then o
    else o.recordGap
      "query definition changed source provenance within one database session"
  let (o, mapping) :=
    match definition.mapping with
    | .ok mapping => (o, some mapping)
    | .error error => (o.recordGap error.message, none)
  let o :=
    if (kind = .request ∨ kind = .return) ∧ event.requestCause = none then
      o.recordGap "Salsa request lacks its fetch/traversal cause"
    else o
  ({ o with events := o.events ++
      [{ kind
         definition := definition.id
         key := key.keyIndex
         file := o.index.sourceKey source.file
         line := source.line
         operation := mapping.map Mapping.operation
         site := mapping.map Mapping.site
         accumulatorTraversal := event.requestCause = some .accumulatorTraversal
         outcome }] }, mapping)

/-- A mapped query makes a call. -/
def enter (o : SalsaObserver) (mapping : Option Mapping) (kind : EntryKind) :
    SalsaObserver × Option InvocationId :=
  match mapping with
  | none => (o, none)
  | some mapping =>
      let (id, session) := o.session.enterWithKind mapping.operation none kind
      ({ o with session }, some id)

def push (o : SalsaObserver) (scope : Scope) : SalsaObserver :=
  { o with scopes := scope :: o.scopes }

def willRequest (o : SalsaObserver) (key : DatabaseKeyIndex) (mapping : Option Mapping)
    (cause : Option RequestCause) : SalsaObserver :=
  let kind := if cause = some .accumulatorTraversal then .validation else .request
  let (o, id) := o.enter mapping kind
  o.push ⟨key, id, .request false cause⟩

/-- The execution that a request leads to is part of the request. -/
def willExecute (o : SalsaObserver) (key : DatabaseKeyIndex) (mapping : Option Mapping) :
    SalsaObserver :=
  let other :=
    let (o, id) := o.enter mapping .validation
    o.push ⟨key, id, .execution⟩
  match o.scopes with
  | ⟨activeKey, id, .request _ cause⟩ :: scopes =>
      if activeKey = key then
        { o with scopes := ⟨key, none, .execution⟩ :: ⟨activeKey, id, .request true cause⟩ :: scopes }
      else other
  | _ => other

def exit (o : SalsaObserver) (key : DatabaseKeyIndex) (execution : Bool) : SalsaObserver :=
  let unbalanced := o.recordGap ("unbalanced Salsa " ++
    (if execution then "execution" else "request") ++
      " event: scopes must close in nesting order")
  match o.scopes with
  | scope :: scopes =>
      if scope.key = key ∧ (scope.kind = .execution ↔ execution = true) then
        let o := { o with scopes }
        match scope.invocation with
        | some id => { o with session := o.session.exit id }
        | none => o
      else unbalanced
  | [] => unbalanced

/-- What a return says about its request. -/
def checkReturn (o : SalsaObserver) (key : DatabaseKeyIndex) (outcome : Option QueryDisposition)
    (returned : Option RequestCause) : SalsaObserver :=
  match o.scopes with
  | ⟨activeKey, _, .request executed cause⟩ :: _ =>
      if activeKey = key then
        let o :=
          if outcome = some .executed ∧ executed = false then
            o.recordGap "Salsa request returned Executed without execution events"
          else o
        let o :=
          if (outcome = some .reused ∨ outcome = some .validated) ∧ executed = true then
            o.recordGap "Salsa request returned a cached disposition after executing"
          else o
        if cause = returned then o
        else o.recordGap "Salsa request cause changed between entry and return"
      else o
  | _ => o

/-- What is done about a query event after it is recorded. -/
def perform (o : SalsaObserver) (event : Event) (key : DatabaseKeyIndex)
    (kind : QueryEventKind) (outcome : Option QueryDisposition) (mapping : Option Mapping) :
    SalsaObserver :=
  match kind with
  | .request => o.willRequest key mapping event.requestCause
  | .return => (o.checkReturn key outcome event.requestCause).exit key false
  | .execute => o.willExecute key mapping
  | .executed => o.exit key true

def event (o : SalsaObserver) (event : Event) : SalsaObserver :=
  match lifecycle event.kind with
  | none => o
  | some (key, kind, outcome) =>
      if o.thread.any (· ≠ event.threadId) then
        o.recordGap ("Salsa observer received events on another thread; " ++
          "context propagation is unsupported")
      else
        let o := { o with thread := some event.threadId }
        match event.querySource with
        | none => o.recordGap "Salsa lifecycle event has no source provenance"
        | some source =>
            let (o, mapping) := o.note event key kind outcome source
            o.perform event key kind outcome mapping

def finish (o : SalsaObserver) : SalsaReport :=
  let o :=
    if o.scopes.isEmpty then o
    else o.recordGap "unclosed Salsa request or execution scopes"
  { contracts := o.session.finish
    events := o.events }

def run (o : SalsaObserver) (events : List Event) : SalsaObserver := events.foldl event o

end SalsaObserver

/-! ### Both stacks -/

/-- The open invocations are those of the open scopes, and none was left out of order. -/
structure InStep (o : SalsaObserver) : Prop where
  active : o.session.active.map Invocation.id = o.scopes.filterMap Scope.invocation
  balanced : ∀ v ∈ o.session.violations, v.kind ≠ .unbalancedExit

/-- The definitions say what the index says about their sources. -/
def Defined (o : SalsaObserver) : Prop :=
  ∀ p ∈ o.definitions, p.2.mapping = o.mapSource p.2.source

/-- A query and whether it is executed, for a scope. -/
def Scope.label (scope : Scope) : DatabaseKeyIndex × Bool :=
  (scope.key, decide (scope.kind = .execution))

/-- Which scope an event opens or closes. -/
def EventKind.mark :
    EventKind → Brackets.Symbol (DatabaseKeyIndex × Bool) (DatabaseKeyIndex × Bool)
  | .willRequest key => .opens (key, false)
  | .didRequest key _ => .closes (key, false)
  | .willExecute key => .opens (key, true)
  | .didExecute key => .closes (key, true)
  | .other => .other

namespace SalsaObserver

/-- The messages of an observer. -/
def gaps (o : SalsaObserver) : List String := o.session.coverage.gaps

/-- Findings are recorded, and the scopes stay. -/
structure Noted (o o' : SalsaObserver) : Prop where
  scopes : o'.scopes = o.scopes
  active : o'.session.active = o.session.active
  index : o'.index = o.index
  verifiedFiles : o'.verifiedFiles = o.verifiedFiles
  checked : o.session.Checked o'.session

variable {o o' o'' : SalsaObserver}

namespace Noted

theorem refl (o : SalsaObserver) : Noted o o := ⟨rfl, rfl, rfl, rfl, .refl _⟩

theorem trans (h : Noted o o') (h' : Noted o' o'') : Noted o o'' :=
  ⟨h'.scopes.trans h.scopes, h'.active.trans h.active, h'.index.trans h.index,
    h'.verifiedFiles.trans h.verifiedFiles, h.checked.trans h'.checked⟩

theorem recordGap (o : SalsaObserver) (message : String) : Noted o (o.recordGap message) :=
  ⟨rfl, rfl, rfl, rfl, .recordGap _ message⟩

theorem inStep (h : Noted o o') (ho : InStep o) : InStep o' where
  active := by rw [h.active, h.scopes, ho.active]
  balanced := h.checked.balanced ho.balanced

theorem mapSource (h : Noted o o') : o'.mapSource = o.mapSource := by
  funext source
  rw [SalsaObserver.mapSource, SalsaObserver.mapSource, h.index, h.verifiedFiles]

theorem gaps_nil (h : Noted o o') (hgaps : o'.gaps = []) : o.gaps = [] := by
  have hprefix : o.gaps <+: o'.gaps := h.checked.gaps
  rwa [hgaps, List.prefix_nil] at hprefix

/-- A finding that is made under a condition. -/
theorem ite {p : Prop} [Decidable p] (h : Noted o o') (h' : Noted o o'') :
    Noted o (if p then o' else o'') := by
  split_ifs
  · exact h
  · exact h'

end Noted

theorem recordGap_gaps_ne_nil (message : String) : (o.recordGap message).gaps ≠ [] :=
  List.append_ne_nil_of_right_ne_nil _ (List.cons_ne_nil _ _)

theorem lookup_mem {α : Type} {l : List (Nat × α)} {n : Nat} {a : α} (h : l.lookup n = some a) :
    (n, a) ∈ l := by
  induction l with
  | nil => cases h
  | cons p l ih =>
      rw [List.lookup_cons] at h
      by_cases hp : n = p.1
      · subst hp
        rw [beq_self_eq_true] at h
        cases h
        exact List.mem_cons_self
      · rw [beq_false_of_ne hp] at h
        exact List.mem_cons_of_mem _ (ih h)

theorem define_spec (ho : Defined o) (ingredient : Nat) (source : QuerySource) :
    Noted o (o.define ingredient source).1 ∧ Defined (o.define ingredient source).1 ∧
      (o.define ingredient source).2.mapping =
        o.mapSource (o.define ingredient source).2.source := by
  rw [define]
  split
  · rename_i definition hlookup
    exact ⟨.refl o, ho, ho _ (lookup_mem hlookup)⟩
  · refine ⟨⟨rfl, rfl, rfl, rfl, .refl _⟩, ?_, rfl⟩
    intro p hp
    obtain hp | hp := List.mem_append.mp hp
    · exact ho p hp
    · rw [List.mem_singleton.mp hp]
      rfl

/-- Without a gap the source is the one of the definition and has a mapping. -/
theorem note_spec (ho : Defined o) (event : Event) (key : DatabaseKeyIndex) (kind : QueryEventKind)
    (outcome : Option QueryDisposition) (source : QuerySource) :
    Noted o (o.note event key kind outcome source).1 ∧
      Defined (o.note event key kind outcome source).1 ∧
      ((o.note event key kind outcome source).1.gaps = [] → ∃ mapping,
        (o.note event key kind outcome source).2 = some mapping ∧
          o.mapSource source = .ok mapping) := by
  obtain ⟨hnoted, hdefined, hmapping⟩ := define_spec ho key.ingredientIndex source
  simp only [note]
  generalize o.define key.ingredientIndex source = p at *
  obtain ⟨o₁, definition⟩ := p
  dsimp only at *
  obtain ⟨o₂, ho₂⟩ : ∃ o₂, o₂ = if definition.source = source then o₁ else o₁.recordGap
    "query definition changed source provenance within one database session" := ⟨_, rfl⟩
  rw [← ho₂]
  have hnoted₂ : Noted o₁ o₂ := ho₂ ▸ .ite (.refl o₁) (.recordGap o₁ _)
  have hdefined₂ : Defined o₂ := by
    rw [ho₂]
    split_ifs
    · exact hdefined
    · exact hdefined
  have hsource : o₂.gaps = [] → definition.source = source := by
    intro hgaps
    by_contra hne
    rw [ho₂, if_neg hne] at hgaps
    exact recordGap_gaps_ne_nil _ hgaps
  have hcause (o₃ : SalsaObserver) : Noted o₃ (if (kind = .request ∨ kind = .return) ∧
      event.requestCause = none then
        o₃.recordGap "Salsa request lacks its fetch/traversal cause" else o₃) :=
    .ite (.recordGap o₃ _) (.refl o₃)
  have hcauseDefined {o₃ : SalsaObserver} (h : Defined o₃) : Defined (if (kind = .request ∨
      kind = .return) ∧ event.requestCause = none then
        o₃.recordGap "Salsa request lacks its fetch/traversal cause" else o₃) := by
    split_ifs
    · exact h
    · exact h
  have hpushed (o₃ : SalsaObserver) (events : List QueryEvent) :
      Noted o₃ { o₃ with events } := ⟨rfl, rfl, rfl, rfl, .refl _⟩
  cases hmapped : definition.mapping with
  | ok mapping =>
      refine ⟨(hnoted.trans hnoted₂).trans ((hcause o₂).trans (hpushed _ _)),
        hcauseDefined hdefined₂, fun hgaps => ⟨mapping, rfl, ?_⟩⟩
      rw [← hsource ((hcause o₂).gaps_nil hgaps), ← hmapping, hmapped]
  | error error =>
      refine ⟨((hnoted.trans hnoted₂).trans (.recordGap o₂ _)).trans
        ((hcause _).trans (hpushed _ _)), hcauseDefined hdefined₂, fun hgaps => ?_⟩
      exact absurd ((hcause _).gaps_nil hgaps) (recordGap_gaps_ne_nil _)

/-! ### One event -/

/-- What one event does, where `mark` is the scope that it opens or closes. -/
structure Stepped (o o' : SalsaObserver)
    (mark : Brackets.Symbol (DatabaseKeyIndex × Bool) (DatabaseKeyIndex × Bool)) : Prop where
  inStep : InStep o → InStep o'
  gaps : o.gaps <+: o'.gaps
  scanned : o'.gaps = [] →
    scan Eq (o.scopes.map Scope.label) [mark] = some (o'.scopes.map Scope.label)

/-- An event that is only recorded leaves a gap. -/
theorem Stepped.of_recordGap (o : SalsaObserver) (message : String)
    (mark : Brackets.Symbol (DatabaseKeyIndex × Bool) (DatabaseKeyIndex × Bool)) :
    Stepped o (o.recordGap message) mark :=
  ⟨(Noted.recordGap o message).inStep, (Noted.recordGap o message).checked.gaps,
    fun h => absurd h (recordGap_gaps_ne_nil message)⟩

theorem Stepped.of_noted
    {mark : Brackets.Symbol (DatabaseKeyIndex × Bool) (DatabaseKeyIndex × Bool)}
    (h : Noted o o') (h' : Stepped o' o'' mark) : Stepped o o'' mark where
  inStep ho := h'.inStep (h.inStep ho)
  gaps := List.IsPrefix.trans h.checked.gaps h'.gaps
  scanned hgaps := by rw [← h.scopes, h'.scanned hgaps]

/-- A call is entered together with the scope that carries it. -/
theorem enter_push (o : SalsaObserver) (mapping : Option Mapping) (kind : EntryKind)
    (key : DatabaseKeyIndex) (scope : ScopeKind) :
    Stepped o ((o.enter mapping kind).1.push ⟨key, (o.enter mapping kind).2, scope⟩)
      (.opens (key, decide (scope = .execution))) := by
  cases mapping with
  | none =>
      refine ⟨fun ho => ⟨?_, ho.balanced⟩, List.prefix_rfl, fun _ => rfl⟩
      exact ho.active
  | some mapping =>
      obtain ⟨-, -, -, hactive, -⟩ :=
        @ContractSession.enterWithKind_spec false o.session mapping.operation none kind
      obtain ⟨-, -, hgaps, hbalanced⟩ :=
        ContractSession.enterWithKind_trace o.session mapping.operation none kind
      refine ⟨fun ho => ⟨?_, hbalanced ho.balanced⟩, hgaps, fun _ => rfl⟩
      have hids : (o.session.enterWithKind mapping.operation none kind).2.active.map
          Invocation.id = o.session.nextId :: o.scopes.filterMap Scope.invocation := by
        rw [hactive, List.map_cons, ho.active]
      exact hids

theorem willRequest_spec (o : SalsaObserver) (key : DatabaseKeyIndex) (mapping : Option Mapping)
    (cause : Option RequestCause) :
    Stepped o (o.willRequest key mapping cause) (.opens (key, false)) :=
  enter_push o mapping _ key _

/-- The innermost open scope is a request for a query. -/
def Requested (o : SalsaObserver) (key : DatabaseKeyIndex) : Prop :=
  (o.scopes.map Scope.label).head? = some (key, false)

theorem willExecute_of_requested {key : DatabaseKeyIndex} (h : o.Requested key)
    (mapping : Option Mapping) : ∃ id executed cause scopes,
      o.scopes = ⟨key, id, .request executed cause⟩ :: scopes ∧
        o.willExecute key mapping = { o with scopes :=
          ⟨key, none, .execution⟩ :: ⟨key, id, .request true cause⟩ :: scopes } := by
  cases hscopes : o.scopes with
  | nil => simp [Requested, hscopes] at h
  | cons scope scopes =>
      obtain ⟨activeKey, id, kind⟩ := scope
      simp only [Requested, hscopes, List.map_cons, List.head?_cons, Scope.label,
        Option.some.injEq, Prod.mk.injEq, decide_eq_false_iff_not] at h
      obtain ⟨rfl, hkind⟩ := h
      cases kind with
      | execution => exact absurd rfl hkind
      | request executed cause =>
          refine ⟨id, executed, cause, scopes, rfl, ?_⟩
          simp only [willExecute, hscopes, if_pos]

theorem willExecute_of_not_requested {key : DatabaseKeyIndex} (h : ¬o.Requested key)
    (mapping : Option Mapping) : o.willExecute key mapping =
      (o.enter mapping .validation).1.push
        ⟨key, (o.enter mapping .validation).2, .execution⟩ := by
  simp only [willExecute]
  split
  · rename_i activeKey id executed cause scopes hscopes
    rw [if_neg]
    rintro rfl
    exact h (by simp [Requested, hscopes, Scope.label])
  · rfl

/-- An execution opens a scope, which carries no invocation if it was requested. -/
theorem willExecute_spec (o : SalsaObserver) (key : DatabaseKeyIndex) (mapping : Option Mapping) :
    Stepped o (o.willExecute key mapping) (.opens (key, true)) := by
  by_cases h : o.Requested key
  · obtain ⟨id, executed, cause, scopes, hscopes, heq⟩ := willExecute_of_requested h mapping
    rw [heq]
    refine ⟨fun ho => ⟨?_, ho.balanced⟩, List.prefix_rfl, fun _ => ?_⟩
    · rw [ho.active, hscopes]
      rfl
    · rw [hscopes]
      rfl
  · rw [willExecute_of_not_requested h]
    exact enter_push o mapping .validation key .execution

/-- Only the innermost scope is closed, and its invocation is the innermost open one. -/
theorem exit_spec (o : SalsaObserver) (key : DatabaseKeyIndex) (execution : Bool) :
    Stepped o (o.exit key execution) (.closes (key, execution)) := by
  cases hscopes : o.scopes with
  | nil =>
      rw [exit]
      simp only [hscopes]
      exact .of_recordGap o _ _
  | cons scope scopes =>
      rw [exit]
      simp only [hscopes]
      by_cases hmatches : scope.key = key ∧ (scope.kind = .execution ↔ execution = true)
      · rw [if_pos hmatches]
        have hlabel : scope.label = (key, execution) := by
          refine Prod.ext hmatches.1 (Bool.eq_iff_iff.mpr ?_)
          rw [← hmatches.2]
          exact decide_eq_true_iff
        have hscan : scan Eq (o.scopes.map Scope.label) [.closes (key, execution)] =
            some (scopes.map Scope.label) := by
          rw [hscopes, List.map_cons, scan, if_pos hlabel, scan]
        cases hinvocation : scope.invocation with
        | none =>
            refine ⟨fun ho => ⟨?_, ho.balanced⟩, List.prefix_rfl, fun _ => hscan⟩
            rw [ho.active, hscopes, List.filterMap_cons_none hinvocation]
        | some id =>
            -- the invocation of the scope is the one on top of the session
            obtain ⟨frame, active, hframe⟩ : ∃ frame active, InStep o →
                o.session.active = frame :: active ∧ frame.id = id ∧
                  active.map Invocation.id = scopes.filterMap Scope.invocation := by
              by_cases ho : InStep o
              · have hactive := ho.active
                rw [hscopes, List.filterMap_cons_some hinvocation] at hactive
                obtain ⟨frame, active, heq, hid, hrest⟩ := List.map_eq_cons_iff.mp hactive
                exact ⟨frame, active, fun _ => ⟨heq, hid, hrest⟩⟩
              · exact ⟨⟨0, none, "", none, .request⟩, [], fun h => absurd h ho⟩
            refine ⟨fun ho => ?_, ?_, fun _ => hscan⟩
            · obtain ⟨heq, hid, hrest⟩ := hframe ho
              have hexit : o.session.exit id =
                  { o.session with
                    active
                    trace := o.session.trace ++ [.exit id] } := by
                rw [ContractSession.exit]
                simp only [heq, if_pos hid]
              dsimp only
              rw [hexit]
              exact ⟨hrest, ho.balanced⟩
            · have hgaps : (o.session.exit id).coverage = o.session.coverage := by
                rw [ContractSession.exit]
                split
                · split_ifs
                  · rfl
                  · rfl
                · rfl
              show o.gaps <+: (o.session.exit id).coverage.gaps
              rw [hgaps]
              exact List.prefix_rfl
      · rw [if_neg hmatches]
        exact .of_recordGap o _ _

theorem checkReturn_spec (o : SalsaObserver) (key : DatabaseKeyIndex)
    (outcome : Option QueryDisposition) (returned : Option RequestCause) :
    Noted o (o.checkReturn key outcome returned) := by
  rw [checkReturn]
  split
  · refine .ite ?_ (.refl o)
    exact ((Noted.ite (.recordGap o _) (.refl o)).trans (.ite (.recordGap _ _) (.refl _))).trans
      (.ite (.refl _) (.recordGap _ _))
  · exact .refl o

/-- What the index and the definitions say stays. -/
structure SameDefinitions (o o' : SalsaObserver) : Prop where
  index : o'.index = o.index
  verifiedFiles : o'.verifiedFiles = o.verifiedFiles
  definitions : o'.definitions = o.definitions

theorem SameDefinitions.defined (h : SameDefinitions o o') (ho : Defined o) : Defined o' := by
  intro p hp
  rw [h.definitions] at hp
  rw [ho p hp, mapSource, mapSource, h.index, h.verifiedFiles]

theorem sameDefinitions_enter (o : SalsaObserver) (mapping : Option Mapping) (kind : EntryKind)
    (scope : Scope) : SameDefinitions o ((o.enter mapping kind).1.push scope) := by
  cases mapping with
  | none => exact ⟨rfl, rfl, rfl⟩
  | some mapping => exact ⟨rfl, rfl, rfl⟩

theorem sameDefinitions_willExecute (o : SalsaObserver) (key : DatabaseKeyIndex)
    (mapping : Option Mapping) : SameDefinitions o (o.willExecute key mapping) := by
  by_cases h : o.Requested key
  · obtain ⟨id, executed, cause, scopes, -, heq⟩ := willExecute_of_requested h mapping
    rw [heq]
    exact ⟨rfl, rfl, rfl⟩
  · rw [willExecute_of_not_requested h]
    exact sameDefinitions_enter o mapping _ _

theorem sameDefinitions_exit (o : SalsaObserver) (key : DatabaseKeyIndex) (execution : Bool) :
    SameDefinitions o (o.exit key execution) := by
  rw [exit]
  split
  · split_ifs
    · dsimp only
      split
      · exact ⟨rfl, rfl, rfl⟩
      · exact ⟨rfl, rfl, rfl⟩
    all_goals exact ⟨rfl, rfl, rfl⟩
  · exact ⟨rfl, rfl, rfl⟩

theorem sameDefinitions_checkReturn (o : SalsaObserver) (key : DatabaseKeyIndex)
    (outcome : Option QueryDisposition) (returned : Option RequestCause) :
    (o.checkReturn key outcome returned).definitions = o.definitions := by
  rw [checkReturn]
  split
  · dsimp only
    split_ifs <;> rfl
  · rfl

/-- An event that the observer reads: on its thread and with a source. -/
def Reads (o : SalsaObserver) (event : Event) (source : QuerySource) : Prop :=
  (∀ thread ∈ o.thread, thread = event.threadId) ∧ event.querySource = some source

/-- An event about a query leaves a gap, or is recorded and performed. -/
theorem event_eq (o : SalsaObserver) {event : Event} {key : DatabaseKeyIndex}
    {kind : QueryEventKind} {outcome : Option QueryDisposition}
    (hlifecycle : lifecycle event.kind = some (key, kind, outcome)) :
    (∃ o' message, Noted o o' ∧ (Defined o → Defined o') ∧
      o.event event = o'.recordGap message) ∨
    ∃ o' source, Noted o o' ∧ (Defined o → Defined o') ∧ event.querySource = some source ∧
      o.event event = (o'.note event key kind outcome source).1.perform event key kind outcome
        (o'.note event key kind outcome source).2 := by
  have hthread : Noted o { o with thread := some event.threadId } :=
    ⟨rfl, rfl, rfl, rfl, .refl _⟩
  simp only [SalsaObserver.event, hlifecycle]
  split_ifs with h
  · exact .inl ⟨o, _, .refl o, id, rfl⟩
  · split
    · exact .inl ⟨_, _, hthread, id, rfl⟩
    · rename_i source hsource
      exact .inr ⟨_, source, hthread, id, hsource, rfl⟩

/-- The scope that an event of a kind opens or closes. -/
def scopeMark (key : DatabaseKeyIndex) :
    QueryEventKind → Brackets.Symbol (DatabaseKeyIndex × Bool) (DatabaseKeyIndex × Bool)
  | .request => .opens (key, false)
  | .return => .closes (key, false)
  | .execute => .opens (key, true)
  | .executed => .closes (key, true)

theorem mark_eq {event : EventKind} {key : DatabaseKeyIndex} {kind : QueryEventKind}
    {outcome : Option QueryDisposition} (h : lifecycle event = some (key, kind, outcome)) :
    event.mark = scopeMark key kind := by
  cases event with
  | other => cases h
  | _ => cases h; rfl

theorem perform_spec (o : SalsaObserver) {event : Event} {key : DatabaseKeyIndex}
    {kind : QueryEventKind} {outcome : Option QueryDisposition}
    (hlifecycle : lifecycle event.kind = some (key, kind, outcome)) (mapping : Option Mapping) :
    Stepped o (o.perform event key kind outcome mapping) event.kind.mark ∧
      SameDefinitions o (o.perform event key kind outcome mapping) := by
  rw [mark_eq hlifecycle]
  cases kind with
  | request => exact ⟨willRequest_spec o key mapping _, sameDefinitions_enter o _ _ _⟩
  | execute => exact ⟨willExecute_spec o key mapping, sameDefinitions_willExecute o _ _⟩
  | executed => exact ⟨exit_spec o key true, sameDefinitions_exit o _ _⟩
  | «return» =>
      have hcheck := checkReturn_spec o key outcome event.requestCause
      have hexit := sameDefinitions_exit (o.checkReturn key outcome event.requestCause) key false
      refine ⟨.of_noted hcheck (exit_spec _ key false), ?_⟩
      exact ⟨hexit.index.trans hcheck.index, hexit.verifiedFiles.trans hcheck.verifiedFiles,
        hexit.definitions.trans (sameDefinitions_checkReturn o _ _ _)⟩

/-- The scopes, the session and the definitions after one event. -/
theorem event_spec (ho : Defined o) (event : Event) :
    Stepped o (o.event event) event.kind.mark ∧ Defined (o.event event) ∧
      (o.event event).index = o.index := by
  cases hlifecycle : lifecycle event.kind with
  | none =>
      have hevent : o.event event = o := by
        simp only [SalsaObserver.event, hlifecycle]
      have hmark : event.kind.mark = .other := by
        cases hkind : event.kind with
        | other => rfl
        | _ => rw [hkind] at hlifecycle; cases hlifecycle
      rw [hevent, hmark]
      exact ⟨⟨id, List.prefix_rfl, fun _ => rfl⟩, ho, rfl⟩
  | some observed =>
      obtain ⟨key, kind, outcome⟩ := observed
      obtain ⟨o', message, hnoted, hdefined, heq⟩ | ⟨o', source, hnoted, hdefined, -, heq⟩ :=
        event_eq o hlifecycle
      · rw [heq]
        exact ⟨.of_noted hnoted (.of_recordGap o' message _), hdefined ho, hnoted.index⟩
      · rw [heq]
        obtain ⟨hnote, hdefined', -⟩ := note_spec (hdefined ho) event key kind outcome source
        obtain ⟨hstep, hsame⟩ := perform_spec (o'.note event key kind outcome source).1 hlifecycle
          (o'.note event key kind outcome source).2
        exact ⟨.of_noted (hnoted.trans hnote) hstep, hsame.defined hdefined',
          hsame.index.trans (hnoted.trans hnote).index⟩

/-! ### Executions -/

/-- Nothing is called. -/
def AddsNoCall (o o' : SalsaObserver) : Prop :=
  o'.session.trace = o.session.trace ∧
    o'.session.coverage.validationContexts = o.session.coverage.validationContexts

/-- One operation is entered as the context of a validation. -/
def AddsContext (o o' : SalsaObserver) (operation : String) : Prop :=
  ∃ invocation : Invocation, invocation.operation = operation ∧ invocation.kind = .validation ∧
    o'.session.trace = o.session.trace ++ [.enter invocation] ∧
    o'.session.coverage.validationContexts = o.session.coverage.validationContexts + 1

theorem Noted.addsNoCall (h : Noted o o') : AddsNoCall o o' :=
  ⟨h.checked.trace, h.checked.contexts⟩

theorem event_of_requested (ho : Defined o) {event : Event} {key : DatabaseKeyIndex}
    (hkind : event.kind = .willExecute key) (hrequested : o.Requested key) :
    AddsNoCall o (o.event event) := by
  have hlifecycle : lifecycle event.kind = some (key, .execute, none) := by rw [hkind, lifecycle]
  obtain ⟨o', message, hnoted, -, heq⟩ | ⟨o', source, hnoted, hdefined, -, heq⟩ :=
    event_eq o hlifecycle
  · rw [heq]
    exact (hnoted.trans (.recordGap o' message)).addsNoCall
  · rw [heq]
    obtain ⟨hnote, -, -⟩ := note_spec (hdefined ho) event key .execute none source
    have h := hnoted.trans hnote
    have hrequested' : (o'.note event key .execute none source).1.Requested key := by
      rw [Requested, h.scopes]
      exact hrequested
    obtain ⟨id, executed, cause, scopes, -, hexecute⟩ := willExecute_of_requested hrequested'
      (o'.note event key .execute none source).2
    rw [perform, hexecute]
    exact h.addsNoCall

/-- What is mapped has been found by the index. -/
theorem lookup_of_mapSource {source : QuerySource} {mapping : Mapping}
    (h : o.mapSource source = .ok mapping) : ∃ matched,
      o.index.lookup source.file source.line = .ok matched ∧
        matched.sageItem = mapping.operation := by
  rw [mapSource] at h
  cases hlookup : o.index.lookup source.file source.line with
  | error error =>
      rw [hlookup] at h
      cases h
  | ok matched =>
      rw [hlookup] at h
      change (if matched.site.file ∈ o.verifiedFiles then _ else _) = _ at h
      split_ifs at h
      cases h
      exact ⟨matched, rfl, rfl⟩

theorem event_of_not_requested (ho : Defined o) {event : Event} {key : DatabaseKeyIndex}
    (hkind : event.kind = .willExecute key) (hrequested : ¬o.Requested key)
    (hgaps : (o.event event).gaps = []) : ∃ source matched, event.querySource = some source ∧
      o.index.lookup source.file source.line = .ok matched ∧
        AddsContext o (o.event event) matched.sageItem := by
  have hlifecycle : lifecycle event.kind = some (key, .execute, none) := by rw [hkind, lifecycle]
  obtain ⟨o', message, -, -, heq⟩ | ⟨o', source, hnoted, hdefined, hsource, heq⟩ :=
    event_eq o hlifecycle
  · rw [heq] at hgaps
    exact absurd hgaps (recordGap_gaps_ne_nil message)
  · obtain ⟨hnote, -, hmapped⟩ := note_spec (hdefined ho) event key .execute none source
    have h := hnoted.trans hnote
    rw [heq] at hgaps ⊢
    have hrequested' : ¬(o'.note event key .execute none source).1.Requested key := by
      rw [Requested, h.scopes]
      exact hrequested
    rw [perform] at hgaps ⊢
    have hstep := willExecute_spec (o'.note event key .execute none source).1 key
      (o'.note event key .execute none source).2
    have hgaps' : (o'.note event key .execute none source).1.gaps = [] :=
      List.prefix_nil.mp (hgaps ▸ hstep.gaps)
    obtain ⟨mapping, hsome, hmapping⟩ := hmapped hgaps'
    rw [hnoted.mapSource] at hmapping
    obtain ⟨matched, hlookup, hitem⟩ := lookup_of_mapSource hmapping
    refine ⟨source, matched, hsource, hlookup, ?_⟩
    rw [willExecute_of_not_requested hrequested', hsome]
    obtain ⟨htrace, hcontexts, -⟩ := ContractSession.enterWithKind_trace
      (o'.note event key .execute none source).1.session mapping.operation none .validation
    rw [h.checked.trace] at htrace
    rw [h.checked.contexts, if_pos rfl] at hcontexts
    refine ⟨_, ?_, ?_, htrace, hcontexts⟩
    · exact hitem.symm
    · rfl

/-! ### Runs -/

theorem run_append (o : SalsaObserver) (events events' : List Event) :
    o.run (events ++ events') = (o.run events).run events' := List.foldl_append

/-- The induction is on the events, with the step lemma for the last of them. -/
theorem run_spec (ho : Defined o) (events : List Event) :
    Defined (o.run events) ∧ (o.run events).index = o.index ∧
      (InStep o → InStep (o.run events)) ∧ o.gaps <+: (o.run events).gaps ∧
      ((o.run events).gaps = [] → scan Eq (o.scopes.map Scope.label)
        (events.map fun event => event.kind.mark) =
          some ((o.run events).scopes.map Scope.label)) := by
  induction events using List.reverseRecOn with
  | nil => exact ⟨ho, rfl, id, List.prefix_rfl, fun _ => rfl⟩
  | append_singleton events event ih =>
      obtain ⟨hdefined, hindex, hinStep, hgaps, hscan⟩ := ih
      obtain ⟨hstep, hdefined', hindex'⟩ := event_spec hdefined event
      have hrun : o.run (events ++ [event]) = (o.run events).event event := run_append o _ _
      rw [hrun]
      refine ⟨hdefined', hindex'.trans hindex, fun h => hstep.inStep (hinStep h),
        hgaps.trans hstep.gaps, ?_⟩
      intro hnil
      have hbefore : (o.run events).gaps = [] := List.prefix_nil.mp (hnil ▸ hstep.gaps)
      rw [List.map_append, scan_append, hscan hbefore, Option.bind_some]
      exact hstep.scanned hnil

end SalsaObserver

/-- The innermost open scope after some events is a request for a query. -/
def FollowsRequest (key : DatabaseKeyIndex) (events : List Event) : Prop :=
  ∃ scopes, scan Eq [] (events.map fun event => event.kind.mark) = some ((key, false) :: scopes)

theorem new_spec {model : ContractModel} {index : CorrespondenceIndex} {roots : List String}
    {compiledSources : List (String × String)} {o : SalsaObserver}
    (h : SalsaObserver.new model index roots compiledSources = .ok o) :
    Defined o ∧ InStep o ∧ o.scopes = [] ∧ o.index = index := by
  rw [SalsaObserver.new] at h
  cases hfiles : compiledSources.mapM fun (file, source) => do
      index.verifySource file source
      pure (index.sourceKey file) with
  | error error =>
      simp only [hfiles] at h
      cases h
  | ok verifiedFiles =>
      simp only [hfiles] at h
      cases h
      exact ⟨List.forall_mem_nil _, ⟨rfl, List.forall_mem_nil _⟩, rfl, rfl⟩

theorem finish_violations (o : SalsaObserver) :
    o.finish.contracts.violations = o.session.violations := by
  have hsession (s : ContractSession) : s.finish.violations = s.violations := by
    simp only [ContractSession.finish]
    split_ifs
    · rfl
    · rfl
  simp only [SalsaObserver.finish, hsession]
  split_ifs
  · rfl
  · rfl

theorem finish_conforms {o : SalsaObserver} (h : o.finish.contracts.callsConform = true) :
    o.gaps = [] ∧ o.scopes = [] := by
  simp only [SalsaObserver.finish] at h
  rw [ContractSession.finish_callsConform, ContractSession.finish_clean] at h
  obtain ⟨⟨-, hgaps⟩, -⟩ := h
  split_ifs at hgaps with hscopes
  · exact ⟨hgaps, List.isEmpty_iff.mp hscopes⟩
  · exact absurd hgaps (SalsaObserver.recordGap_gaps_ne_nil _)

open SalsaObserver in
/-- After any events the two stacks agree.  A conforming report is one of nested and closed
scopes, in which an execution is a call of its own unless its request is open around it. -/
theorem observer_in_step {model : ContractModel} {index : CorrespondenceIndex}
    {roots : List String} {compiledSources : List (String × String)} {o : SalsaObserver}
    (hnew : SalsaObserver.new model index roots compiledSources = .ok o) (events : List Event) :
    InStep (o.run events) ∧
    (∀ v ∈ (o.run events).finish.contracts.violations, v.kind ≠ .unbalancedExit) ∧
    (∀ event key, event.kind = .willExecute key → (o.run events).Requested key →
      AddsNoCall (o.run events) (o.run (events ++ [event]))) ∧
    ((o.run events).finish.contracts.callsConform = true →
      Balanced Eq (events.map fun event => event.kind.mark) ∧
      ∀ before event after key, events = before ++ event :: after →
        event.kind = .willExecute key →
          (FollowsRequest key before → AddsNoCall (o.run before) (o.run (before ++ [event]))) ∧
          (¬FollowsRequest key before → ∃ source matched, event.querySource = some source ∧
            index.lookup source.file source.line = .ok matched ∧
              AddsContext (o.run before) (o.run (before ++ [event])) matched.sageItem)) := by
  obtain ⟨hdefined, hinStep, hscopes, hindex⟩ := new_spec hnew
  have hrun (events : List Event) := run_spec hdefined events
  have hsnoc (events : List Event) (event : Event) :
      o.run (events ++ [event]) = (o.run events).event event := run_append o events [event]
  refine ⟨(hrun events).2.2.1 hinStep, ?_, ?_, ?_⟩
  · rw [finish_violations]
    exact ((hrun events).2.2.1 hinStep).balanced
  · intro event key hkind hrequested
    rw [hsnoc]
    exact event_of_requested (hrun events).1 hkind hrequested
  · intro hconform
    obtain ⟨hgaps, hclosed⟩ := finish_conforms hconform
    have hscan := (hrun events).2.2.2.2 hgaps
    rw [hscopes, hclosed] at hscan
    refine ⟨balanced_iff_scan.mpr hscan, ?_⟩
    rintro before event after key rfl hkind
    -- the messages only grow, so that there were none before either
    have hsteps : o.run (before ++ event :: after) = (o.run (before ++ [event])).run after := by
      rw [← run_append, List.append_assoc, List.singleton_append]
    have hgapsStep : (o.run (before ++ [event])).gaps = [] := by
      have hprefix := (run_spec (hrun (before ++ [event])).1 after).2.2.2.1
      rw [← hsteps, hgaps] at hprefix
      exact List.prefix_nil.mp hprefix
    obtain ⟨hdefinedBefore, hindexBefore, -, -, hscanBefore⟩ := hrun before
    have hstep := (event_spec hdefinedBefore event).1
    rw [hsnoc] at hgapsStep ⊢
    have hfollows : FollowsRequest key before ↔ (o.run before).Requested key := by
      have h := hscanBefore (List.prefix_nil.mp (hgapsStep ▸ hstep.gaps))
      rw [hscopes] at h
      rw [FollowsRequest, SalsaObserver.Requested, show scan Eq [] (before.map fun event => event.kind.mark) =
        some ((o.run before).scopes.map Scope.label) from h]
      cases (o.run before).scopes.map Scope.label <;> simp
    rw [hfollows]
    constructor
    · exact fun hrequested => event_of_requested hdefinedBefore hkind hrequested
    · intro hrequested
      rw [← hindex, ← hindexBefore]
      exact event_of_not_requested hdefinedBefore hkind hrequested hgapsStep

/-! ### One query -/

def computeSite : RustSite where
  file := "src/lib.rs"
  line := 3
  endLine := 5
  column := 0
  endColumn := 1
  rustPath := "app::compute"
  crateName := "app"
  target := "lib:app"
  kind := .function
  cfg := []
  macroInput := false
  executable := true
  span := ⟨20, 60⟩
  annotationSpan := ⟨20, 40⟩

def computeIndex : CorrespondenceIndex where
  entries := [("app::Db::compute", [computeSite])]
  files := [("src/lib.rs", "")]
  workspace := none
  callables := [⟨"src/lib.rs", 3, 5, ⟨20, 60⟩⟩]
  opaqueMacros := []

def computeModel : ContractModel where
  operations := PartialMap.insert PartialMap.empty "app::Db::compute"
    { id := "app::Db::compute"
      kind := .query
      isAbstract := false
      invokes := []
      prohibits := []
      dispatches := []
      uncheckedEffects := ∅ }

def computeObserver : SalsaObserver where
  index := computeIndex
  verifiedFiles := ["src/lib.rs"]
  definitions := []
  session := .new computeModel ["app::Db::compute"]
  scopes := []
  events := []
  thread := none

/-- A request that is executed. -/
def computeEvents : List Event :=
  [.willRequest ⟨0, 1⟩, .willExecute ⟨0, 1⟩, .didExecute ⟨0, 1⟩,
    .didRequest ⟨0, 1⟩ .executed].map fun kind =>
      ⟨0, kind, some ⟨"src/lib.rs", 4, "compute"⟩, some .fetch⟩

theorem computeObserver_new : SalsaObserver.new computeModel computeIndex ["app::Db::compute"]
    [("src/lib.rs", "")] = .ok computeObserver := rfl

theorem observer_in_step_compute :
    (computeObserver.run computeEvents).finish.contracts.callsConform = true ∧
      Balanced Eq (computeEvents.map fun event => event.kind.mark) := by
  have hconform : (computeObserver.run computeEvents).finish.contracts.callsConform = true := by
    decide
  exact ⟨hconform, ((observer_in_step computeObserver_new computeEvents).2.2.2 hconform).1⟩

end Sage.Meta.Salsa
