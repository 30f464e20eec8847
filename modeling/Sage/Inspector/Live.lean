import Sage.Inspector.Linear
import Sage.Inspector.Retention

/-!
# Inspector — clients of a live session

The actor over the live provider.  Its revisions only move forward, every run it records has a name
of its own, and an edit or a reload is announced: so clients never read an older revision than one
they have read, and who follows the events knows the revision.

* `liveProvider` — the operations of the live provider, with the workspace it reopens.
* `Turn` — what one request does to the revision and to the runs.
* `Story`, `live_observed`, `monotonic_reads` — what holds of everything that was served.
-/

namespace Sage.Inspector.Actor

open LiveInspectionProvider (Answer runName)

/-! ### The live provider behind the actor -/

/-- What the readings of the live provider return. -/
inductive Reading where
  | revision
  | session (range : Option RevisionId × Option RevisionId)
  | symbols (index : SymbolIndex)
  | symbol (selected : SelectedSymbol)
  | product (page : ProductPage)
  | continuation (items : List ValueNode)
  | run (observation : RunObservation)
  | revisions (page : List RevisionSummary)
  | revisionDetail (detail : RevisionDetail)
  | compare

variable {σ V : Type} [Queries σ]

/-- The live provider, with how often its workspace was to be reopened. -/
abbrev Live (σ : Type) := LiveInspectionProvider σ × Nat

def answered {α β : Type} (f : α → β) (n : Nat) (outcome : Answer σ α) :
    Except ApiError (Provided β) × Live σ :=
  (outcome.1.map (mapProvided f), outcome.2, n)

/-- `impl InspectionProvider for LiveInspectionProvider`; the `n`-th reload finds the workspace as
`reopen n` says. -/
def liveProvider (reopen : Nat → Except String (SageHost σ)) :
    InspectionProvider (Live σ) Reading where
  currentRevision s := s.1.revisionId
  revision s := answered (fun _ => .revision) s.2 s.1.revision
  session s := answered .session s.2 s.1.session
  symbols s := answered .symbols s.2 s.1.symbols
  symbol path s := answered .symbol s.2 (s.1.symbol path)
  product symbol product s := answered .product s.2 (s.1.product symbol product)
  continuation handle s := answered .continuation s.2 (s.1.continuation handle)
  run handle s := answered .run s.2 (s.1.run handle)
  revisions _ s := answered .revisions s.2 s.1.revisionPage
  revisionDetail revision s := answered .revisionDetail s.2 (s.1.revisionDetail revision)
  compare source target symbol product s :=
    answered (fun _ => .compare) s.2 (s.1.compare source target symbol product)
  applyUpdates updates s := answered .revisionAdvanced s.2 (s.1.applyUpdates updates)
  reloadWorkspace reason s :=
    answered .workspaceReloaded (s.2 + 1) (s.1.reloadWorkspace reason (reopen s.2))

/-! ### One request -/

def RevisionEvent.revisionId : RevisionEvent → RevisionId
  | .revisionAdvanced event => event.revisionId
  | .workspaceReloaded event => event.revisionId

/-- What a request does: its answer is of the revision the provider is then in, which is a later
one when an event says so and the same otherwise; and a run it records is the next one. -/
inductive Turn (p p' : LiveInspectionProvider σ) :
    Except ApiError (Provided (Reading ⊕ RevisionEvent)) → Prop
  | failed (e : ApiError) (hm : p'.mark = p.mark) (hr : p'.nextRun = p.nextRun) :
      Turn p p' (.error e)
  | read (value : Reading) (hm : p'.mark = p.mark) (hr : p'.nextRun = p.nextRun) :
      Turn p p' (.ok ⟨p'.revisionId, none, .inl value⟩)
  | recorded (value : Reading) (hm : p'.mark = p.mark) (hr : p'.nextRun = p.nextRun + 1) :
      Turn p p' (.ok ⟨p'.revisionId, some (runName p'.nextRun), .inl value⟩)
  | moved (event : RevisionEvent) (hid : event.revisionId = p'.revisionId)
      (hm : p.mark.Earlier p'.mark) (hr : p'.nextRun = p.nextRun) :
      Turn p p' (.ok ⟨p'.revisionId, none, .inr event⟩)

variable {reopen : Nat → Except String (SageHost σ)}

/-- Pushing a revision changes neither the database nor the numbers. -/
theorem pushRevision_keeps (p : LiveInspectionProvider σ) (revision : RetainedRevision) :
    (p.pushRevision revision).mark = p.mark ∧ (p.pushRevision revision).nextRun = p.nextRun := by
  rcases LiveInspectionProvider.pushRevision_cases p revision with
    ⟨-, heq⟩ | ⟨expired, rest, -, -, heq⟩
  · rw [heq]
    exact ⟨rfl, rfl⟩
  · rw [heq]
    exact ⟨rfl, rfl⟩

theorem applyUpdates_turn (p : LiveInspectionProvider σ) (updates : List FileUpdate) :
    (∃ e, p.applyUpdates updates = (.error e, p)) ∨
      ∃ (p' : LiveInspectionProvider σ) (event : RevisionAdvanced),
        p.applyUpdates updates = (.ok (p'.provided event), p') ∧
          event.revisionId = p'.revisionId ∧ p.mark.Earlier p'.mark ∧ p'.nextRun = p.nextRun := by
  rw [LiveInspectionProvider.applyUpdates]
  cases (updates.map fun u : FileUpdate =>
      { u with path := p.host.normalizeSourcePath u.path }).find?
        fun u => (p.host.texts u.path).isNone with
  | some u => exact .inl ⟨_, rfl⟩
  | none =>
      rcases LiveInspectionProvider.writeUpdates_cases (updates.map fun u : FileUpdate =>
        { u with path := p.host.normalizeSourcePath u.path }) p.host with
        ⟨hnone, hsame⟩ | ⟨hsome, hlt⟩
      · simp only [hnone, hsame, List.isEmpty_nil, if_true]
        exact .inl ⟨_, rfl⟩
      · simp only [List.isEmpty_iff, hsome, if_false]
        refine .inr ⟨_, _, rfl, rfl, ?_, (pushRevision_keeps _ _).2⟩
        rw [(pushRevision_keeps _ _).1]
        exact .inr ⟨rfl, hlt⟩

/-- Every request takes one of these turns. -/
theorem perform_turn (message : Message) (s : Live σ) :
    Turn s.1 (message.perform (liveProvider reopen) s).2.1
      (message.perform (liveProvider reopen) s).1 := by
  cases message with
  | revision => exact .read _ rfl rfl
  | session => exact .read _ rfl rfl
  | symbols =>
      obtain ⟨p₁, index, hs, heq⟩ := s.1.symbols_cases
      simp only [Message.perform, liveProvider, answered, heq]
      exact .recorded _ hs.mark (congrArg (· + 1) hs.nextRun)
  | symbol path =>
      obtain ⟨p₁, hs, ⟨e, heq⟩ | ⟨selected, heq⟩⟩ := s.1.symbol_cases path
      · simp only [Message.perform, liveProvider, answered, heq]
        exact .failed e hs.mark hs.nextRun
      · simp only [Message.perform, liveProvider, answered, heq]
        exact .recorded _ hs.mark (congrArg (· + 1) hs.nextRun)
  | product path productId =>
      obtain ⟨p₁, hs, ⟨e, heq⟩ | ⟨g, k, -, heq⟩⟩ := s.1.product_cases path productId
      · simp only [Message.perform, liveProvider, answered, heq]
        exact .failed e hs.mark hs.nextRun
      · simp only [Message.perform, liveProvider, answered, heq]
        exact .recorded _ hs.mark (congrArg (· + 1) hs.nextRun)
  | continuation handle =>
      simp only [Message.perform, liveProvider, answered, LiveInspectionProvider.continuation]
      cases s.1.continuations handle with
      | none => exact .failed _ rfl rfl
      | some items => exact .read _ rfl rfl
  | run handle =>
      simp only [Message.perform, liveProvider, answered, LiveInspectionProvider.run]
      cases s.1.runs handle with
      | none => exact .failed _ rfl rfl
      | some run => exact .read _ rfl rfl
  | revisions cursor => exact .read _ rfl rfl
  | revisionDetail id =>
      simp only [Message.perform, liveProvider, answered, LiveInspectionProvider.revisionDetail]
      cases s.1.revisions.find? (·.revisionId = id) with
      | none => exact .failed _ rfl rfl
      | some revision => exact .read _ rfl rfl
  | compare source target path productId =>
      simp only [Message.perform, liveProvider, answered, LiveInspectionProvider.compare]
      cases s.1.products (source, path, productId) with
      | none => exact .failed _ rfl rfl
      | some before =>
          cases s.1.products (target, path, productId) with
          | none => exact .failed _ rfl rfl
          | some after => exact .read _ rfl rfl
  | applyUpdates updates =>
      rcases applyUpdates_turn s.1 updates with ⟨e, heq⟩ | ⟨p', event, heq, hid, hm, hr⟩
      · simp only [Message.perform, liveProvider, answered, heq]
        exact .failed e rfl rfl
      · simp only [Message.perform, liveProvider, answered, heq]
        exact .moved _ hid hm hr
  | reloadWorkspace reason =>
      simp only [Message.perform, liveProvider, answered]
      cases reopen s.2 with
      | error message => exact .failed _ rfl rfl
      | ok host =>
          simp only [LiveInspectionProvider.reloadWorkspace]
          refine .moved _ rfl ?_ (pushRevision_keeps _ _).2
          rw [(pushRevision_keeps _ _).1]
          exact .inl (Nat.lt_succ_self _)

/-! ### All that was served -/

/-- The revision a reply is of. -/
def replyRevision : Reply V → RevisionId
  | .ok response => response.revisionId
  | .error error => error.revisionId

/-- The run a reply names. -/
def replyRun : Reply V → Option RunHandle
  | .ok response => response.runId
  | .error error => error.runId

/-- The same revision or a later one. -/
def NotLater (m n : Mark) : Prop := m = n ∨ m.Earlier n

theorem NotLater.trans_earlier {l m n : Mark} (h : NotLater l m) (h' : m.Earlier n) :
    l.Earlier n := by
  rcases h with rfl | h
  · exact h'
  · exact h.trans h'

/-- What was served up to a state of the provider: the revisions of the answers never go back,
every run has its own name, and the events lead from the first revision to the current one. -/
structure Story (host : SageHost σ)
    (order : List (Service.Served (String × Message) (Reply Reading)))
    (p : LiveInspectionProvider σ) : Prop where
  revisions : ∃ marks : List Mark,
    order.map (fun x => replyRevision x.answer) = marks.map Mark.name ∧
      marks.Pairwise NotLater ∧ ∀ m ∈ marks, NotLater m p.mark
  runs : (order.filterMap fun x => replyRun x.answer).Nodup
  numbered : ∀ handle ∈ order.filterMap fun x => replyRun x.answer,
    ∃ n ≤ p.nextRun, handle = runName n
  announced : ∃ marks : List Mark,
    revisionName 0 host.salsaRevision :: (order.flatMap published).map RevisionEvent.revisionId =
      marks.map Mark.name ∧ marks.Pairwise Mark.Earlier ∧ marks.getLast? = some p.mark

namespace Story

variable {host : SageHost σ} {order : List (Service.Served (String × Message) (Reply Reading))}
  {p p' : LiveInspectionProvider σ} {x : Service.Served (String × Message) (Reply Reading)}

theorem new (host : SageHost σ) : Story host [] (.new host) where
  revisions := ⟨[], rfl, .nil, fun m hm => by cases hm⟩
  runs := List.nodup_nil
  numbered handle hh := by cases hh
  announced := ⟨[(0, host.salsaRevision)], rfl, List.pairwise_singleton _ _, rfl⟩

/-- The revisions go on with an answer of the current one. -/
theorem snoc_revisions (h : Story host order p) (hm : NotLater p.mark p'.mark)
    (hx : replyRevision x.answer = p'.revisionId) : ∃ marks : List Mark,
    (order ++ [x]).map (fun x => replyRevision x.answer) = marks.map Mark.name ∧
      marks.Pairwise NotLater ∧ ∀ m ∈ marks, NotLater m p'.mark := by
  obtain ⟨marks, hnames, hsorted, hlast⟩ := h.revisions
  have hlast' : ∀ m ∈ marks, NotLater m p'.mark := by
    intro m hmem
    rcases hm with he | he
    · rw [← he]
      exact hlast m hmem
    · exact .inr ((hlast m hmem).trans_earlier he)
  refine ⟨marks ++ [p'.mark], ?_, ?_, fun m hmem => ?_⟩
  · rw [List.map_append, List.map_append, hnames]
    simp [hx, LiveInspectionProvider.revisionId_eq]
  · rw [List.pairwise_append]
    refine ⟨hsorted, List.pairwise_singleton _ _, fun m hmem n hn => ?_⟩
    obtain rfl := List.mem_singleton.mp hn
    exact hlast' m hmem
  · rcases List.mem_append.mp hmem with hmem | hmem
    · exact hlast' m hmem
    · obtain rfl := List.mem_singleton.mp hmem
      exact .inl rfl

/-- An answer without a run. -/
theorem snoc_runs (h : Story host order p) (hr : p'.nextRun = p.nextRun)
    (hx : replyRun x.answer = none) :
    ((order ++ [x]).filterMap fun x => replyRun x.answer).Nodup ∧
      ∀ handle ∈ (order ++ [x]).filterMap fun x => replyRun x.answer,
        ∃ n ≤ p'.nextRun, handle = runName n := by
  have heq : ((order ++ [x]).filterMap fun x => replyRun x.answer) =
      order.filterMap fun x => replyRun x.answer := by
    simp [hx]
  rw [heq, hr]
  exact ⟨h.runs, h.numbered⟩

/-- An answer with the next run. -/
theorem snoc_run (h : Story host order p) (hr : p'.nextRun = p.nextRun + 1)
    (hx : replyRun x.answer = some (runName p'.nextRun)) :
    ((order ++ [x]).filterMap fun x => replyRun x.answer).Nodup ∧
      ∀ handle ∈ (order ++ [x]).filterMap fun x => replyRun x.answer,
        ∃ n ≤ p'.nextRun, handle = runName n := by
  have heq : ((order ++ [x]).filterMap fun x => replyRun x.answer) =
      (order.filterMap fun x => replyRun x.answer) ++ [runName p'.nextRun] := by
    simp [hx]
  rw [heq]
  constructor
  · refine List.nodup_append_comm.mpr (List.nodup_cons.mpr ⟨fun hmem => ?_, h.runs⟩)
    obtain ⟨n, hn, he⟩ := h.numbered _ hmem
    rw [← runName_injective he, hr] at hn
    exact Nat.not_succ_le_self _ hn
  · intro handle hmem
    rcases List.mem_append.mp hmem with hmem | hmem
    · obtain ⟨n, hn, he⟩ := h.numbered handle hmem
      exact ⟨n, Nat.le_trans hn (hr ▸ Nat.le_succ _), he⟩
    · exact ⟨p'.nextRun, Nat.le_refl _, List.mem_singleton.mp hmem⟩

/-- No event, and the same revision. -/
theorem snoc_quiet (h : Story host order p) (hm : p'.mark = p.mark) (hx : published x = []) :
    ∃ marks : List Mark, revisionName 0 host.salsaRevision ::
        ((order ++ [x]).flatMap published).map RevisionEvent.revisionId = marks.map Mark.name ∧
      marks.Pairwise Mark.Earlier ∧ marks.getLast? = some p'.mark := by
  have heq : (order ++ [x]).flatMap published = order.flatMap published := by
    simp [hx]
  rw [heq, hm]
  exact h.announced

/-- The event of a later revision. -/
theorem snoc_event (h : Story host order p) {event : RevisionEvent} (hm : p.mark.Earlier p'.mark)
    (hid : event.revisionId = p'.revisionId) (hx : published x = [event]) :
    ∃ marks : List Mark, revisionName 0 host.salsaRevision ::
        ((order ++ [x]).flatMap published).map RevisionEvent.revisionId = marks.map Mark.name ∧
      marks.Pairwise Mark.Earlier ∧ marks.getLast? = some p'.mark := by
  obtain ⟨marks, hnames, hsorted, hlast⟩ := h.announced
  have heq : (order ++ [x]).flatMap published = order.flatMap published ++ [event] := by
    simp [hx]
  refine ⟨marks ++ [p'.mark], ?_, ?_, by simp⟩
  · rw [heq, List.map_append, ← List.cons_append, hnames, List.map_append]
    simp [hid, LiveInspectionProvider.revisionId_eq]
  · rw [List.pairwise_append]
    refine ⟨hsorted, List.pairwise_singleton _ _, fun m hmem n hn => ?_⟩
    obtain rfl := List.mem_singleton.mp hn
    -- the marks are sorted, so all are before the last one or equal to it
    obtain ⟨before, rfl⟩ := List.getLast?_eq_some_iff.mp hlast
    rcases List.mem_append.mp hmem with hmem | hmem
    · exact ((List.pairwise_append.mp hsorted).2.2 m hmem p.mark
        (List.mem_singleton.mpr rfl)).trans hm
    · exact List.mem_singleton.mp hmem ▸ hm

theorem step {s : Live σ} (h : Story host order s.1) (call : Nat) (request : String × Message) :
    Story host (order ++ [⟨call, request, (answer (liveProvider reopen) request s).1⟩])
      (answer (liveProvider reopen) request s).2.1 := by
  have ht : Turn s.1 (request.2.perform (liveProvider reopen) s).2.1
      (request.2.perform (liveProvider reopen) s).1 := perform_turn request.2 s
  simp only [answer]
  generalize request.2.perform (liveProvider reopen) s = outcome at ht
  obtain ⟨result, p', n⟩ := outcome
  change Turn s.1 p' result at ht
  cases ht with
  | failed e hm hr =>
      obtain ⟨hruns, hnumbered⟩ := h.snoc_runs (x := ⟨call, request, complete request.1 (.error e)
        p'.revisionId⟩) hr rfl
      exact ⟨h.snoc_revisions (.inl hm.symm) rfl, hruns, hnumbered, h.snoc_quiet hm rfl⟩
  | read value hm hr =>
      obtain ⟨hruns, hnumbered⟩ := h.snoc_runs (x := ⟨call, request, complete request.1
        (.ok ⟨p'.revisionId, none, .inl value⟩) p'.revisionId⟩) hr rfl
      exact ⟨h.snoc_revisions (.inl hm.symm) rfl, hruns, hnumbered, h.snoc_quiet hm rfl⟩
  | recorded value hm hr =>
      obtain ⟨hruns, hnumbered⟩ := h.snoc_run (x := ⟨call, request, complete request.1
        (.ok ⟨p'.revisionId, some (runName p'.nextRun), .inl value⟩) p'.revisionId⟩) hr rfl
      exact ⟨h.snoc_revisions (.inl hm.symm) rfl, hruns, hnumbered, h.snoc_quiet hm rfl⟩
  | moved event hid hm hr =>
      obtain ⟨hruns, hnumbered⟩ := h.snoc_runs (x := ⟨call, request, complete request.1
        (.ok ⟨p'.revisionId, none, .inr event⟩) p'.revisionId⟩) hr rfl
      exact ⟨h.snoc_revisions (.inr hm) rfl, hruns, hnumbered, h.snoc_event hm hid rfl⟩

theorem serves {s : Live σ}
    (hs : Service.Serves (answer (liveProvider reopen)) (.new host, 0) order s) :
    Story host order s.1 := by
  induction hs with
  | nil => exact .new host
  | snoc _ call request ih => exact ih.step call request

end Story

/-! ### What the clients of a live session see -/

/-- The operation of a message, when a reload finds `replacement`. -/
def Message.operation (replacement : Except String (SageHost σ)) : Message → Operation σ
  | .revision => .revision
  | .session => .session
  | .symbols => .symbols
  | .symbol path => .symbol path
  | .product path productId => .product path productId
  | .continuation handle => .continuation handle
  | .run handle => .run handle
  | .revisions _ => .revisions
  | .revisionDetail id => .revisionDetail id
  | .compare source target path productId => .compare source target path productId
  | .applyUpdates updates => .applyUpdates updates
  | .reloadWorkspace reason => .reloadWorkspace reason replacement

theorem perform_operation (message : Message) (s : Live σ) :
    (message.perform (liveProvider reopen) s).2.1 =
      (s.1.perform (message.operation (reopen s.2))).2 := by
  cases message <;> rfl

variable {host : SageHost σ}

/-- The provider behind the actor is in a state of a run of its own. -/
theorem serves_run {order : List (Service.Served (String × Message) (Reply Reading))}
    {s : Live σ} (hs : Service.Serves (answer (liveProvider reopen)) (.new host, 0) order s) :
    ∃ pages, LiveInspectionProvider.Run host pages s.1 := by
  induction hs with
  | nil => exact ⟨[], .new⟩
  | snoc hs call request ih =>
      obtain ⟨pages, hrun⟩ := ih
      rw [answer, perform_operation]
      exact ⟨_, hrun.step _⟩

/-- What the clients see: the revisions of all answers in their order, no run named twice, and the
events as the revisions the session went through, up to the current one when none is pending. -/
structure Observed (host : SageHost σ) (w : World (Live σ) Reading) : Prop where
  isRun : ∃ pages, LiveInspectionProvider.Run host pages w.provider.1
  revisions : ∃ marks : List Mark,
    w.served.map (fun x => replyRevision x.answer) = marks.map Mark.name ∧ marks.Pairwise NotLater
  runs : (w.served.filterMap fun x => replyRun x.answer).Nodup
  announced : ∃ marks : List Mark,
    revisionName 0 host.salsaRevision :: w.events.map RevisionEvent.revisionId =
      marks.map Mark.name ∧ marks.Pairwise Mark.Earlier
  current : w.actor = some [] →
    (revisionName 0 host.salsaRevision :: w.events.map RevisionEvent.revisionId).getLast? =
      some w.provider.1.revisionId

variable {w : World (Live σ) Reading}

/-- In every reachable state of a live session. -/
theorem live_observed (h : Reachable (liveProvider reopen) (.new host, 0) w) :
    Observed host w := by
  have hw := Invariant.reachable h
  have hstory := Story.serves hw.serves
  obtain ⟨marks, hnames, hsorted, hlast⟩ := hstory.announced
  obtain ⟨revisions, hrevisions, hpairs, -⟩ := hstory.revisions
  obtain ⟨lost, hlost, hpending⟩ := hw.events
  refine ⟨serves_run hw.serves, ⟨revisions, hrevisions, hpairs⟩, hstory.runs, ?_, fun hidle => ?_⟩
  · -- what was broadcast is a first part of what was published
    rw [← hlost, List.map_append, ← List.cons_append] at hnames
    obtain ⟨seen, later, rfl, hseen, -⟩ := List.map_eq_append_iff.mp hnames.symm
    exact ⟨seen, hseen.symm, (List.pairwise_append.mp hsorted).1⟩
  · rw [hpending _ hidle, List.filterMap_nil, List.append_nil] at hlost
    rw [hlost, hnames, List.getLast?_map, hlast, LiveInspectionProvider.revisionId_eq]
    rfl

/-- A call that is made after another has returned never reads an earlier revision. -/
theorem monotonic_reads (h : Reachable (liveProvider reopen) (.new host, 0) w)
    {before after : List (Service.Event (String × Message) (Reply Reading))} {first second : Nat}
    {a b : Reply Reading} {request : String × Message}
    (hhistory : w.history = before ++ .returned first a :: after)
    (hinvoked : .invoked second request ∈ after) (hreturned : .returned second b ∈ w.history) :
    ∃ m n : Mark, replyRevision a = m.name ∧ replyRevision b = n.name ∧ NotLater m n := by
  have hw := Invariant.reachable h
  obtain ⟨marks, hrevisions, hpairs, -⟩ := (Story.serves hw.serves).revisions
  obtain ⟨front, rest, x, y, horder, hx, -, rfl, -, rfl⟩ :=
    hw.linearizes.ordered hhistory hinvoked hreturned
  rw [horder] at hrevisions
  obtain ⟨earlier, later, rfl, hearlier, hlater⟩ :=
    List.map_eq_append_iff.mp (List.map_append.symm.trans hrevisions).symm
  obtain ⟨n, others, rfl, hn, -⟩ := List.map_eq_cons_iff.mp hlater
  rcases List.mem_append.mp hx with hx | hx
  · have hname : replyRevision x.answer ∈ earlier.map Mark.name := by
      rw [hearlier]
      exact List.mem_map_of_mem hx
    obtain ⟨m, hm, hmx⟩ := List.mem_map.mp hname
    exact ⟨m, n, hmx.symm, hn.symm, (List.pairwise_append.mp hpairs).2.2 m hm n List.mem_cons_self⟩
  · obtain rfl := List.mem_singleton.mp hx
    exact ⟨n, n, hn.symm, hn.symm, .inl rfl⟩

/-! ### Two readings -/

/-- A session over the small crate, whose workspace is gone. -/
def demoProvider : InspectionProvider (Live Counter) Reading :=
  liveProvider fun _ => .error "no workspace"

/-- A client asks for the revision and then for the symbols. -/
theorem readings_reachable : ∃ w a b,
    Reachable demoProvider (LiveInspectionProvider.new demoHost, 0) w ∧ w.actor = some [] ∧
      w.history = [.invoked 0 (requestId 1, .revision), .returned 0 a,
        .invoked 1 (requestId 2, .symbols), .returned 1 b] := by
  have h := @Reachable.new _ _ demoProvider (LiveInspectionProvider.new demoHost, 0)
  replace h := h.step (.client (.invoke .revision))
  replace h := h.step (.client (@ClientStep.send _ _ _ 0 _ rfl rfl (Nat.zero_lt_succ 63)))
  replace h := h.step (.actor (.receive rfl rfl))
  replace h := h.step (.actor (.reply rfl))
  replace h := h.step (.actor (.demand rfl))
  replace h := h.step (.client (@ClientStep.return_ _ _ _ 0 _ rfl))
  replace h := h.step (.client (.invoke .symbols))
  replace h := h.step (.client (@ClientStep.send _ _ _ 1 _ rfl rfl (Nat.zero_lt_succ 63)))
  replace h := h.step (.actor (.receive rfl rfl))
  replace h := h.step (.actor (.reply rfl))
  replace h := h.step (.actor (.demand rfl))
  replace h := h.step (.client (@ClientStep.return_ _ _ _ 1 _ rfl))
  exact ⟨_, _, _, h, rfl, rfl⟩

theorem live_observed_readings : ∃ w, Reachable demoProvider
    (LiveInspectionProvider.new demoHost, 0) w ∧ w.history.length = 4 ∧ Observed demoHost w := by
  obtain ⟨w, a, b, h, -, hhistory⟩ := readings_reachable
  exact ⟨w, h, by rw [hhistory]; rfl, live_observed h⟩

theorem monotonic_reads_readings : ∃ w a b,
    Reachable demoProvider (LiveInspectionProvider.new demoHost, 0) w ∧
      w.history = [.invoked 0 (requestId 1, .revision), .returned 0 a,
        .invoked 1 (requestId 2, .symbols), .returned 1 b] ∧
      ∃ m n : Mark, replyRevision a = m.name ∧ replyRevision b = n.name ∧ NotLater m n := by
  obtain ⟨w, a, b, h, -, hhistory⟩ := readings_reachable
  have hsplit : w.history = [.invoked 0 (requestId 1, .revision)] ++ .returned 0 a ::
      [.invoked 1 (requestId 2, .symbols), .returned 1 b] := hhistory
  refine ⟨w, a, b, h, hhistory, monotonic_reads h hsplit List.mem_cons_self ?_⟩
  rw [hhistory]
  simp

end Sage.Inspector.Actor
