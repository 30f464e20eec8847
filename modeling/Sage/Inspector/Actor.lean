import Sage.Inspector.Provider
import Sage.Library.Service

/-!
# Inspector — the database actor

`actor.rs`: one thread owns the provider and answers the messages of a bounded mailbox, one after
the other.  Any number of clients make calls: a call takes a request id, puts its message into the
mailbox when there is room, and waits for the reply on a channel of its own.  A caller may go away
at any time, and so may the actor.

* `Message`, `InspectionProvider`, `complete` — the source's protocol.
* `serve` — what the loop does for one message, as the effects others see, in their order.
* `World` — the mailbox, the actor and the calls; `ActorStep`, `ClientStep`, `Step`.
-/

namespace Sage.Inspector.Actor

/-- `MAILBOX_CAPACITY`. -/
def mailboxCapacity : Nat := 64

inductive RevisionEvent where
  | revisionAdvanced (event : RevisionAdvanced)
  | workspaceReloaded (event : WorkspaceReloaded)

/-- The operations of a provider with state `S`; `V` is what its readings return. -/
structure InspectionProvider (S V : Type) where
  currentRevision : S → RevisionId
  revision : S → Except ApiError (Provided V) × S
  session : S → Except ApiError (Provided V) × S
  symbols : S → Except ApiError (Provided V) × S
  symbol : SymbolPath → S → Except ApiError (Provided V) × S
  product : SymbolPath → ProductId → S → Except ApiError (Provided V) × S
  continuation : ContinuationHandle → S → Except ApiError (Provided V) × S
  run : RunHandle → S → Except ApiError (Provided V) × S
  revisions : Option String → S → Except ApiError (Provided V) × S
  revisionDetail : RevisionId → S → Except ApiError (Provided V) × S
  compare : RevisionId → RevisionId → SymbolPath → ProductId → S →
    Except ApiError (Provided V) × S
  applyUpdates : List FileUpdate → S → Except ApiError (Provided RevisionEvent) × S
  reloadWorkspace : Issue → S → Except ApiError (Provided RevisionEvent) × S

structure ProviderDemand where
  operation : String
  arguments : List String
deriving DecidableEq

/-- A message, without the channel for its reply. -/
inductive Message where
  | revision
  | session
  | symbols
  | symbol (path : SymbolPath)
  | product (path : SymbolPath) (product : ProductId)
  | continuation (handle : ContinuationHandle)
  | run (handle : RunHandle)
  | revisions (cursor : Option String)
  | revisionDetail (revision : RevisionId)
  | compare (source target : RevisionId) (path : SymbolPath) (product : ProductId)
  | applyUpdates (updates : List FileUpdate)
  | reloadWorkspace (reason : Issue)

def Message.demand : Message → ProviderDemand
  | .revision => ⟨"current-revision", []⟩
  | .session => ⟨"session", []⟩
  | .symbols => ⟨"local-symbol-index", []⟩
  | .symbol path => ⟨"symbol", [path]⟩
  | .product path productId => ⟨"product", [path, productId]⟩
  | .continuation handle => ⟨"continuation", [handle]⟩
  | .run handle => ⟨"run", [handle]⟩
  | .revisions cursor => ⟨"revisions", cursor.toList⟩
  | .revisionDetail id => ⟨"revision-detail", [id]⟩
  | .compare source target path productId =>
      ⟨"revision-compare", [source, target, path, productId]⟩
  | .applyUpdates _ => ⟨"apply-updates", []⟩
  | .reloadWorkspace _ => ⟨"reload-workspace", []⟩

def mapProvided {α β : Type} (f : α → β) (provided : Provided α) : Provided β :=
  ⟨provided.revisionId, provided.runId, f provided.value⟩

section Actor

variable {S V : Type}

/-- The operation a message asks for; the values of the two updates are revision events. -/
def Message.perform (provider : InspectionProvider S V) (message : Message) (s : S) :
    Except ApiError (Provided (V ⊕ RevisionEvent)) × S :=
  let read := fun (answer : Except ApiError (Provided V) × S) =>
    (answer.1.map (mapProvided Sum.inl), answer.2)
  let update := fun (answer : Except ApiError (Provided RevisionEvent) × S) =>
    (answer.1.map (mapProvided Sum.inr), answer.2)
  match message with
  | .revision => read (provider.revision s)
  | .session => read (provider.session s)
  | .symbols => read (provider.symbols s)
  | .symbol path => read (provider.symbol path s)
  | .product path productId => read (provider.product path productId s)
  | .continuation handle => read (provider.continuation handle s)
  | .run handle => read (provider.run handle s)
  | .revisions cursor => read (provider.revisions cursor s)
  | .revisionDetail id => read (provider.revisionDetail id s)
  | .compare source target path productId =>
      read (provider.compare source target path productId s)
  | .applyUpdates updates => update (provider.applyUpdates updates s)
  | .reloadWorkspace reason => update (provider.reloadWorkspace reason s)

structure ServiceResponse (V : Type) where
  revisionId : RevisionId
  requestId : String
  runId : Option RunHandle
  value : V ⊕ RevisionEvent

structure ErrorResponse where
  revisionId : RevisionId
  requestId : String
  runId : Option RunHandle
  error : ApiError

/-- What a caller gets. -/
abbrev Reply (V : Type) := Except ErrorResponse (ServiceResponse V)

def complete (requestId : String) (result : Except ApiError (Provided (V ⊕ RevisionEvent)))
    (currentRevision : RevisionId) : Reply V :=
  match result with
  | .ok provided => .ok ⟨provided.revisionId, requestId, provided.runId, provided.value⟩
  | .error error => .error ⟨currentRevision, requestId, none, error⟩

def actorUnavailable : ErrorResponse where
  revisionId := "rev_unknown"
  requestId := "request-unavailable"
  runId := none
  error := ⟨"actor-unavailable", "the inspection database actor stopped"⟩

/-- The text of a request number. -/
def requestId (number : UInt64) : String := "request-" ++ number.toNat.repr

/-- A message in the mailbox, with its request id and the call that waits for the reply. -/
structure Envelope where
  call : Nat
  requestId : String
  message : Message

/-- The reply to a request, and the provider after it. -/
def answer (provider : InspectionProvider S V) (request : String × Message) (s : S) :
    Reply V × S :=
  let outcome := request.2.perform provider s
  (complete request.1 outcome.1 (provider.currentRevision outcome.2), outcome.2)

/-- An effect of the actor that others can see. -/
inductive Effect (V : Type) where
  | broadcast (event : RevisionEvent)
  | reply (call : Nat) (answer : Reply V)
  | demand (demand : ProviderDemand)

/-- One turn of the loop: an update is broadcast before it is replied to, and every demand is
recorded after the reply. -/
@[grind =] def serve (provider : InspectionProvider S V) (envelope : Envelope) (s : S) :
    List (Effect V) × S :=
  let outcome := envelope.message.perform provider s
  let broadcast := match outcome.1 with
    | .ok ⟨_, _, .inr event⟩ => [.broadcast event]
    | _ => []
  let reply := complete envelope.requestId outcome.1 (provider.currentRevision outcome.2)
  (broadcast ++ [.reply envelope.call reply, .demand envelope.message.demand], outcome.2)

/-- The state of a call. -/
inductive CallState (V : Type) where
  /-- It waits for room in the mailbox. -/
  | sending (envelope : Envelope)
  /-- Its message was sent, and its reply is not there yet. -/
  | waiting
  | replied (answer : Reply V)
  /-- The reply channel was closed without a reply. -/
  | unanswered
  | returned (answer : Reply V)
  /-- The caller went away. -/
  | dropped

/-- The provider, the effects the actor has still to do (none, when it has stopped), the mailbox,
the calls and the request counter; what was broadcast and recorded; and, as ghosts, what the
callers saw and what was served. -/
structure World (S V : Type) where
  provider : S
  actor : Option (List (Effect V))
  mailbox : List Envelope
  calls : List (CallState V)
  requestIds : UInt64
  events : List RevisionEvent
  demands : List ProviderDemand
  history : List (Service.Event (String × Message) (Reply V))
  served : List (Service.Served (String × Message) (Reply V))

namespace World

/-- `InspectionClient::channel`, with the actor serving `s`. -/
def new (s : S) : World S V := ⟨s, some [], [], [], 0, [], [], [], []⟩

def setCall (w : World S V) (call : Nat) (state : CallState V) : World S V :=
  { w with calls := w.calls.set call state }

/-- A reply goes to a call that waits for it, and nowhere when the caller has gone. -/
def deliver (w : World S V) (call : Nat) (answer : Reply V) : World S V :=
  match w.calls[call]? with
  | some .waiting => w.setCall call (.replied answer)
  | _ => w

/-- A new call takes the next request id. -/
def invoke (w : World S V) (message : Message) : World S V :=
  let number := w.requestIds + 1
  let envelope : Envelope := ⟨w.calls.length, requestId number, message⟩
  { w with
    requestIds := number
    calls := w.calls ++ [.sending envelope]
    history := w.history ++ [.invoked envelope.call (envelope.requestId, message)] }

/-- The actor takes a message. -/
def receive (w : World S V) (provider : InspectionProvider S V) (envelope : Envelope)
    (rest : List Envelope) : World S V :=
  let turn := serve provider envelope w.provider
  let request := (envelope.requestId, envelope.message)
  { w with
    provider := turn.2
    actor := some turn.1
    mailbox := rest
    served := w.served ++ [⟨envelope.call, request, (answer provider request w.provider).1⟩] }

/-- The actor stops: the messages it has not replied to are dropped with their channels. -/
def stop (w : World S V) : World S V :=
  { w with
    actor := none
    mailbox := []
    calls := w.calls.map fun state =>
      match state with
      | .waiting => .unanswered
      | state => state }

end World

/-- A step of the actor. -/
inductive ActorStep (provider : InspectionProvider S V) (w : World S V) : World S V → Prop
  | receive {envelope : Envelope} {rest : List Envelope} (h : w.actor = some [])
      (hm : w.mailbox = envelope :: rest) : ActorStep provider w (w.receive provider envelope rest)
  | broadcast {event : RevisionEvent} {effects : List (Effect V)}
      (h : w.actor = some (.broadcast event :: effects)) :
      ActorStep provider w { w with actor := some effects, events := w.events ++ [event] }
  | reply {call : Nat} {answer : Reply V} {effects : List (Effect V)}
      (h : w.actor = some (.reply call answer :: effects)) :
      ActorStep provider w ({ w with actor := some effects }.deliver call answer)
  | demand {demand : ProviderDemand} {effects : List (Effect V)}
      (h : w.actor = some (.demand demand :: effects)) :
      ActorStep provider w { w with actor := some effects, demands := w.demands ++ [demand] }

/-- A step of a caller. -/
inductive ClientStep (w : World S V) : World S V → Prop
  | invoke (message : Message) : ClientStep w (w.invoke message)
  | send {call : Nat} {envelope : Envelope} (h : w.calls[call]? = some (.sending envelope))
      (halive : w.actor.isSome) (hroom : w.mailbox.length < mailboxCapacity) :
      ClientStep w { w.setCall call .waiting with mailbox := w.mailbox ++ [envelope] }
  | refused {call : Nat} {envelope : Envelope} (h : w.calls[call]? = some (.sending envelope))
      (hstopped : w.actor = none) :
      ClientStep w (w.setCall call (.returned (.error actorUnavailable)))
  | return_ {call : Nat} {answer : Reply V} (h : w.calls[call]? = some (.replied answer)) :
      ClientStep w { w.setCall call (.returned answer) with
        history := w.history ++ [.returned call answer] }
  | unavailable {call : Nat} (h : w.calls[call]? = some .unanswered) :
      ClientStep w (w.setCall call (.returned (.error actorUnavailable)))
  | drop {call : Nat} {state : CallState V} (h : w.calls[call]? = some state)
      (hopen : ∀ answer, state ≠ .returned answer) : ClientStep w (w.setCall call .dropped)

inductive Step (provider : InspectionProvider S V) (w : World S V) : World S V → Prop
  | actor {w' : World S V} (h : ActorStep provider w w') : Step provider w w'
  | client {w' : World S V} (h : ClientStep w w') : Step provider w w'
  | stop (h : w.actor.isSome) : Step provider w w.stop

/-- The states any interleaving leads to. -/
inductive Reachable (provider : InspectionProvider S V) (s₀ : S) : World S V → Prop
  | new : Reachable provider s₀ (.new s₀)
  | step {w w' : World S V} (h : Reachable provider s₀ w) (hs : Step provider w w') :
      Reachable provider s₀ w'

end Actor

end Sage.Inspector.Actor
