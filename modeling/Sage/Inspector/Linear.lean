import Sage.Inspector.Actor

/-!
# Inspector — the actor linearizes its clients

Whatever the interleaving of clients and actor, whoever goes away, the clients see what a provider
would show them that is called by one client after the other.

* `Fits` — what the state of a call says about the mailbox, the actor and what was served.
* `Invariant` — the order of service explains the history, and nothing is lost on the way.
* `actor_linearizable` — what follows for every reachable state.
-/

namespace Sage.Inspector.Actor

variable {S V : Type} {provider : InspectionProvider S V} {s₀ : S} {w w' : World S V}

open Service (callsOf mem_callsOf callsOf_append)

/-! ### One turn of the loop -/

def Effect.event? : Effect V → Option RevisionEvent
  | .broadcast event => some event
  | _ => none

def Effect.demand? : Effect V → Option ProviderDemand
  | .demand d => some d
  | _ => none

/-- The events a served request publishes: an update that succeeded, its own. -/
def published (x : Service.Served (String × Message) (Reply V)) : List RevisionEvent :=
  match x.answer with
  | .ok ⟨_, _, _, .inr event⟩ => [event]
  | _ => []

theorem mem_serve {envelope : Envelope} {s : S} {call : Nat} {a : Reply V} :
    .reply call a ∈ (serve provider envelope s).1 ↔
      call = envelope.call ∧
        a = (answer provider (envelope.requestId, envelope.message) s).1 := by
  simp only [serve, answer]
  split <;> simp

theorem serve_events (envelope : Envelope) (s : S) :
    (serve provider envelope s).1.filterMap Effect.event? =
      published ⟨envelope.call, (envelope.requestId, envelope.message),
        (answer provider (envelope.requestId, envelope.message) s).1⟩ := by
  simp only [serve, answer, published, complete]
  rcases hp : (envelope.message.perform provider s).1 with e | ⟨_, _, value | event⟩ <;>
    simp [Effect.event?]

theorem serve_demands (envelope : Envelope) (s : S) :
    (serve provider envelope s).1.filterMap Effect.demand? = [envelope.message.demand] := by
  simp only [serve]
  rcases hp : (envelope.message.perform provider s).1 with e | ⟨_, _, value | event⟩ <;>
    simp [Effect.demand?, List.filterMap_cons]

theorem length_serve_le (envelope : Envelope) (s : S) :
    (serve provider envelope s).1.length ≤ 3 := by
  simp only [serve]
  rcases (envelope.message.perform provider s).1 with e | ⟨_, _, value | event⟩ <;> simp

theorem World.deliver_waiting {call : Nat} {a : Reply V} (h : w.calls[call]? = some .waiting) :
    w.deliver call a = w.setCall call (.replied a) := by
  simp [World.deliver, h]

theorem World.deliver_gone {call : Nat} {a : Reply V} (h : w.calls[call]? ≠ some .waiting) :
    w.deliver call a = w := by
  unfold World.deliver
  split
  · contradiction
  · rfl

/-! ### The invariant -/

/-- The calls whose messages are in the mailbox. -/
@[grind =] def queuedCalls (w : World S V) : List Nat := w.mailbox.map Envelope.call

/-- What the state of a call says. -/
@[grind =] def Fits (w : World S V) (call : Nat) : CallState V → Prop
  | .sending envelope => envelope.call = call ∧
      .invoked call (envelope.requestId, envelope.message) ∈ w.history ∧
        call ∉ callsOf w.served ∧ call ∉ queuedCalls w
  | .waiting => call ∈ queuedCalls w ∨
      ∃ effects answer, w.actor = some effects ∧ .reply call answer ∈ effects
  | .replied answer => ∃ request, ⟨call, request, answer⟩ ∈ w.served
  | .returned answer => .returned call answer ∈ w.history ∨
      answer = .error actorUnavailable ∧ w.actor = none
  | .unanswered => w.actor = none
  | .dropped => True

structure Invariant (provider : InspectionProvider S V) (s₀ : S) (w : World S V) : Prop where
  linearizes : Service.Linearizes (answer provider) s₀ w.history w.served
  serves : Service.Serves (answer provider) s₀ w.served w.provider
  numbered : w.requestIds = UInt64.ofNat w.calls.length
  made : ∀ call request, .invoked call request ∈ w.history →
    call < w.calls.length ∧ request.1 = requestId (UInt64.ofNat (call + 1))
  fits : ∀ call state, w.calls[call]? = some state → Fits w call state
  queued : ∀ e ∈ w.mailbox, .invoked e.call (e.requestId, e.message) ∈ w.history ∧
    e.call ∉ callsOf w.served
  distinct : (queuedCalls w).Nodup
  bounded : w.mailbox.length ≤ mailboxCapacity
  replying : ∀ effects call answer, w.actor = some effects → .reply call answer ∈ effects →
    ∃ request, ⟨call, request, answer⟩ ∈ w.served
  once : w.history.Nodup
  returned : ∀ call answer, .returned call answer ∈ w.history →
    w.calls[call]? = some (.returned answer)
  stopped : w.actor = none → w.mailbox = []
  short : ∀ effects, w.actor = some effects → effects.length ≤ 3
  events : ∃ lost, w.events ++ lost = w.served.flatMap published ∧
    ∀ effects, w.actor = some effects → lost = effects.filterMap Effect.event?
  demands : ∃ lost, w.demands ++ lost = w.served.map (fun x => x.request.2.demand) ∧
    ∀ effects, w.actor = some effects → lost = effects.filterMap Effect.demand?

/-- The calls after the state of one changed. -/
theorem getElem?_setCall {call : Nat} {old : CallState V} (h : w.calls[call]? = some old)
    (state : CallState V) (c : Nat) :
    (w.setCall call state).calls[c]? = if c = call then some state else w.calls[c]? := by
  have hlt := (List.getElem?_eq_some_iff.mp h).1
  rw [World.setCall, List.getElem?_set]
  by_cases hc : c = call
  · subst hc
    simp [hlt]
  · have hc' : ¬ call = c := fun e => hc e.symm
    simp [hc, hc']

namespace Invariant

theorem new (s₀ : S) : Invariant provider s₀ (.new s₀) where
  linearizes := .empty
  serves := .nil
  numbered := rfl
  made call request h := by cases h
  fits call state h := by simp [World.new] at h
  queued e he := by cases he
  distinct := List.nodup_nil
  bounded := Nat.zero_le _
  replying effects call answer h hm := by
    obtain rfl := Option.some.inj h
    cases hm
  returned call answer h := by cases h
  once := List.nodup_nil
  stopped h := by cases h
  short effects h := by
    obtain rfl := Option.some.inj h
    exact Nat.zero_le _
  events := ⟨[], rfl, fun effects h => by obtain rfl := Option.some.inj h; rfl⟩
  demands := ⟨[], rfl, fun effects h => by obtain rfl := Option.some.inj h; rfl⟩

theorem served_lt (h : Invariant provider s₀ w) {call : Nat} (hc : call ∈ callsOf w.served) :
    call < w.calls.length := by
  obtain ⟨x, hx, rfl⟩ := List.mem_map.mp hc
  exact (h.made _ _ (h.linearizes.invoked x hx)).1

theorem queued_lt (h : Invariant provider s₀ w) {call : Nat} (hc : call ∈ queuedCalls w) :
    call < w.calls.length := by
  obtain ⟨e, he, rfl⟩ := List.mem_map.mp hc
  exact (h.made _ _ (h.queued e he).1).1

/-- A call that has not returned gets another state, and nothing else changes. -/
theorem setCall (h : Invariant provider s₀ w) {call : Nat} {old state : CallState V}
    (hold : w.calls[call]? = some old) (hopen : ∀ answer, old ≠ .returned answer)
    (hfits : Fits w call state) : Invariant provider s₀ (w.setCall call state) := by
  have hget := getElem?_setCall hold state
  have hlength : (w.setCall call state).calls.length = w.calls.length := List.length_set
  refine { h with
    numbered := by rw [hlength]; exact h.numbered
    made := fun c request hm => by rw [hlength]; exact h.made c request hm
    fits := fun c st hc => ?_
    returned := fun c answer hr => ?_ }
  · rw [hget] at hc
    by_cases hcc : c = call
    · rw [if_pos hcc, Option.some.injEq] at hc
      subst hcc hc
      cases state <;> exact hfits
    · rw [if_neg hcc] at hc
      have := h.fits c st hc
      cases st <;> exact this
  · have hc := h.returned c answer hr
    have hne : c ≠ call := by
      rintro rfl
      rw [hold, Option.some.injEq] at hc
      exact hopen answer hc
    rw [hget, if_neg hne]
    exact hc

/-! ### The actor -/

theorem receive (h : Invariant provider s₀ w) {envelope : Envelope} {rest : List Envelope}
    (hidle : w.actor = some []) (hm : w.mailbox = envelope :: rest) :
    Invariant provider s₀ (w.receive provider envelope rest) := by
  have hmem : envelope ∈ w.mailbox := by rw [hm]; exact List.mem_cons_self
  obtain ⟨hinvoked, hfresh⟩ := h.queued envelope hmem
  have hcalls : queuedCalls w = envelope.call :: rest.map Envelope.call := by
    rw [queuedCalls, hm, List.map_cons]
  have hdistinct := h.distinct
  rw [hcalls, List.nodup_cons] at hdistinct
  have hnew : ∀ {c}, c ∉ callsOf w.served → c ≠ envelope.call →
      c ∉ callsOf (w.receive provider envelope rest).served := by
    intro c hc hne
    rw [World.receive, callsOf_append, List.mem_append, not_or]
    exact ⟨hc, by simpa [callsOf] using hne⟩
  have hactor : (w.receive provider envelope rest).actor =
      some (serve provider envelope w.provider).1 := rfl
  refine
    { linearizes := h.linearizes.serveNext h.serves hinvoked hfresh
      serves := h.serves.snoc _ _
      numbered := h.numbered
      made := h.made
      fits := fun c state hc => ?_
      queued := fun e he => ?_
      distinct := hdistinct.2
      bounded := ?_
      replying := fun effects c a he hr => ?_
      once := h.once
      returned := h.returned
      stopped := fun he => by simp [hactor] at he
      short := fun effects he => ?_
      events := ?_
      demands := ?_ }
  · have hf := h.fits c state hc
    cases state with
    | sending e =>
        obtain ⟨he, hi, hs, hq⟩ := hf
        rw [hcalls, List.mem_cons, not_or] at hq
        exact ⟨he, hi, hnew hs hq.1, hq.2⟩
    | waiting =>
        rcases hf with hq | ⟨effects, a, he, hr⟩
        · rw [hcalls, List.mem_cons] at hq
          rcases hq with rfl | hq
          · exact .inr ⟨_, _, rfl, mem_serve.mpr ⟨rfl, rfl⟩⟩
          · exact .inl hq
        · rw [hidle, Option.some.injEq] at he
          rw [← he] at hr
          cases hr
    | replied a => exact hf.imp fun _ hx => List.mem_append_left _ hx
    | returned a => exact .inl (hf.resolve_right fun hn => by simp [hidle] at hn)
    | unanswered => exact absurd hf (by simp [Fits, hidle])
    | dropped => trivial
  · have he' : e ∈ w.mailbox := by rw [hm]; exact List.mem_cons_of_mem _ he
    obtain ⟨hi, hs⟩ := h.queued e he'
    refine ⟨hi, hnew hs ?_⟩
    rintro heq
    exact hdistinct.1 (heq ▸ List.mem_map_of_mem he)
  · have := h.bounded
    rw [hm, List.length_cons] at this
    exact Nat.le_of_succ_le this
  · obtain rfl := Option.some.inj he
    obtain ⟨rfl, rfl⟩ := mem_serve.mp hr
    exact ⟨_, List.mem_append_right _ List.mem_cons_self⟩
  · obtain rfl := Option.some.inj he
    exact length_serve_le envelope w.provider
  · obtain ⟨lost, hlost, hpending⟩ := h.events
    rw [hpending [] hidle, List.filterMap_nil, List.append_nil] at hlost
    refine ⟨_, ?_, fun effects he => by obtain rfl := Option.some.inj he; rfl⟩
    rw [serve_events]
    simp [World.receive, hlost]
  · obtain ⟨lost, hlost, hpending⟩ := h.demands
    rw [hpending [] hidle, List.filterMap_nil, List.append_nil] at hlost
    refine ⟨_, ?_, fun effects he => by obtain rfl := Option.some.inj he; rfl⟩
    rw [serve_demands]
    simp [World.receive, hlost]

/-- The actor is done with an effect; no call waits for it any more, when it is a reply. -/
theorem effect (h : Invariant provider s₀ w) {first : Effect V} {effects : List (Effect V)}
    (ha : w.actor = some (first :: effects)) {events : List RevisionEvent}
    {demands : List ProviderDemand}
    (hreply : ∀ call a, first = .reply call a → w.calls[call]? ≠ some .waiting)
    (hevents : events = w.events ++ first.event?.toList)
    (hdemands : demands = w.demands ++ first.demand?.toList) :
    Invariant provider s₀ { w with actor := some effects, events, demands } := by
  obtain ⟨lost, hlost, hpending⟩ := h.events
  obtain ⟨lost', hlost', hpending'⟩ := h.demands
  rw [hpending _ ha] at hlost
  rw [hpending' _ ha] at hlost'
  refine { h with
    fits := fun c state hc => ?_
    replying := fun es c a he hr => ?_
    stopped := fun he => by cases he
    short := fun es he => ?_
    events := ⟨_, ?_, fun es he => by obtain rfl := Option.some.inj he; rfl⟩
    demands := ⟨_, ?_, fun es he => by obtain rfl := Option.some.inj he; rfl⟩ }
  · have hf := h.fits c state hc
    cases state with
    | waiting =>
        refine hf.imp id ?_
        rintro ⟨es, a, he, hr⟩
        rw [ha, Option.some.injEq] at he
        rw [← he, List.mem_cons] at hr
        exact ⟨effects, a, rfl, hr.resolve_left fun e => hreply c a e.symm hc⟩
    | sending e | replied a => exact hf
    | returned a => exact .inl (hf.resolve_right fun hn => by simp [ha] at hn)
    | unanswered => exact absurd hf (by simp [Fits, ha])
    | dropped => trivial
  · obtain rfl := Option.some.inj he
    exact h.replying _ c a ha (List.mem_cons_of_mem _ hr)
  · obtain rfl := Option.some.inj he
    exact Nat.le_of_succ_le (h.short _ ha)
  · rw [← hlost, hevents, List.append_assoc]
    cases first <;> rfl
  · rw [← hlost', hdemands, List.append_assoc]
    cases first <;> rfl

/-- The actor replies: to the call when it waits, else to nobody. -/
theorem reply (h : Invariant provider s₀ w) {call : Nat} {a : Reply V}
    {effects : List (Effect V)} (ha : w.actor = some (.reply call a :: effects)) :
    Invariant provider s₀ ({ w with actor := some effects }.deliver call a) := by
  by_cases hc : w.calls[call]? = some .waiting
  · have hserved := h.replying _ call a ha List.mem_cons_self
    have hfits : Fits w call (.replied a) := hserved
    have hw := (h.setCall hc (by simp) hfits).effect ha
      (fun c b he => ?_) (List.append_nil _).symm (List.append_nil _).symm
    · rw [World.deliver_waiting (by exact hc)]
      exact hw
    · obtain ⟨rfl, -⟩ := Effect.reply.inj he
      simp [getElem?_setCall hc]
  · have hw := h.effect ha (fun c b he => ?_) (List.append_nil _).symm (List.append_nil _).symm
    · rw [World.deliver_gone (by exact hc)]
      exact hw
    · obtain ⟨rfl, -⟩ := Effect.reply.inj he
      exact hc

theorem actorStep (h : Invariant provider s₀ w) (hs : ActorStep provider w w') :
    Invariant provider s₀ w' := by
  cases hs with
  | receive hidle hm => exact h.receive hidle hm
  | broadcast ha =>
      exact h.effect ha (fun c a he => by cases he) rfl (List.append_nil _).symm
  | reply ha => exact h.reply ha
  | demand ha =>
      exact h.effect ha (fun c a he => by cases he) (List.append_nil _).symm rfl

/-! ### The clients -/

theorem invoke (h : Invariant provider s₀ w) (message : Message) :
    Invariant provider s₀ (w.invoke message) := by
  have hserved : w.calls.length ∉ callsOf w.served := fun hc => Nat.lt_irrefl _ (h.served_lt hc)
  have hqueued : w.calls.length ∉ queuedCalls w := fun hc => Nat.lt_irrefl _ (h.queued_lt hc)
  have hnumber : w.requestIds + 1 = UInt64.ofNat (w.calls.length + 1) := by
    rw [h.numbered, UInt64.ofNat_add]
    rfl
  have hold : ∀ e, e ∈ w.history → e ∈ (w.invoke message).history :=
    fun e he => List.mem_append_left _ he
  refine
    { linearizes := h.linearizes.invoke hserved
      serves := h.serves
      numbered := ?_
      made := fun c request hm => ?_
      fits := fun c state hc => ?_
      queued := fun e he => (h.queued e he).imp_left (hold _)
      distinct := h.distinct
      bounded := h.bounded
      replying := h.replying
      once := ?_
      returned := fun c a hr => ?_
      stopped := h.stopped
      short := h.short
      events := h.events
      demands := h.demands }
  · simp [World.invoke, hnumber]
  · rcases List.mem_append.mp hm with hm | hm
    · refine (h.made c request hm).imp_left fun hlt => ?_
      simp only [World.invoke, List.length_append]
      exact Nat.lt_add_right _ hlt
    · rw [List.mem_singleton, Service.Event.invoked.injEq] at hm
      obtain ⟨rfl, rfl⟩ := hm
      exact ⟨by simp [World.invoke], by rw [hnumber]⟩
  · simp only [World.invoke] at hc
    by_cases hlt : c < w.calls.length
    · rw [List.getElem?_append_left hlt] at hc
      have hf := h.fits c state hc
      cases state with
      | sending e => exact ⟨hf.1, hold _ hf.2.1, hf.2.2⟩
      | waiting | replied a => exact hf
      | returned a => exact hf.imp_left (hold _)
      | unanswered => exact hf
      | dropped => trivial
    · rw [List.getElem?_append_right (Nat.le_of_not_lt hlt)] at hc
      rw [List.getElem?_singleton] at hc
      by_cases hz : c - w.calls.length = 0
      · rw [if_pos hz, Option.some.injEq] at hc
        obtain rfl : c = w.calls.length := Nat.le_antisymm (Nat.sub_eq_zero_iff_le.mp hz)
          (Nat.le_of_not_lt hlt)
        subst hc
        exact ⟨rfl, List.mem_append_right _ List.mem_cons_self, hserved, hqueued⟩
      · simp [hz] at hc
  · refine (List.nodup_append_comm.mpr (List.nodup_cons.mpr ⟨fun hm => ?_, h.once⟩))
    exact Nat.lt_irrefl _ (h.made _ _ hm).1
  · rcases List.mem_append.mp hr with hr | hr
    · have hc := h.returned c a hr
      simp only [World.invoke]
      rw [List.getElem?_append_left (List.getElem?_eq_some_iff.mp hc).1]
      exact hc
    · simp at hr

/-- A message reaches the mailbox. -/
theorem send (h : Invariant provider s₀ w) {call : Nat} {envelope : Envelope}
    (hc : w.calls[call]? = some (.sending envelope)) (halive : w.actor.isSome)
    (hroom : w.mailbox.length < mailboxCapacity) :
    Invariant provider s₀
      { w.setCall call .waiting with mailbox := w.mailbox ++ [envelope] } := by
  obtain ⟨hcall, hinvoked, hserved, hqueued⟩ := h.fits call _ hc
  have hget := getElem?_setCall hc .waiting
  have hlength : (w.setCall call .waiting).calls.length = w.calls.length := List.length_set
  have hcalls : queuedCalls { w.setCall call .waiting with mailbox := w.mailbox ++ [envelope] } =
      queuedCalls w ++ [call] := by
    simp [queuedCalls, hcall]
  refine
    { linearizes := h.linearizes
      serves := h.serves
      numbered := by rw [hlength]; exact h.numbered
      made := fun c request hm => by rw [hlength]; exact h.made c request hm
      fits := fun c state hs => ?_
      queued := fun e he => ?_
      distinct := ?_
      bounded := ?_
      replying := h.replying
      once := h.once
      returned := fun c a hr => ?_
      stopped := fun he => ?_
      short := h.short
      events := h.events
      demands := h.demands }
  · by_cases hcc : c = call
    · rw [hget, if_pos hcc, Option.some.injEq] at hs
      subst hs
      refine .inl ?_
      rw [hcalls, hcc]
      exact List.mem_append_right _ List.mem_cons_self
    · rw [hget, if_neg hcc] at hs
      have hf := h.fits c state hs
      cases state with
      | sending e =>
          refine ⟨hf.1, hf.2.1, hf.2.2.1, ?_⟩
          rw [hcalls, List.mem_append, List.mem_singleton, not_or]
          exact ⟨hf.2.2.2, hcc⟩
      | waiting =>
          refine hf.imp_left fun hq => ?_
          rw [hcalls]
          exact List.mem_append_left _ hq
      | replied a | returned a | unanswered => exact hf
      | dropped => trivial
  · rcases List.mem_append.mp he with he | he
    · exact h.queued e he
    · obtain rfl := List.mem_singleton.mp he
      rw [hcall]
      exact ⟨hinvoked, hserved⟩
  · rw [hcalls, List.nodup_append_comm]
    exact List.nodup_cons.mpr ⟨hqueued, h.distinct⟩
  · rw [List.length_append]
    exact hroom
  · have hr' := h.returned c a hr
    have hne : c ≠ call := by
      rintro rfl
      rw [hc] at hr'
      cases hr'
    rw [hget, if_neg hne]
    exact hr'
  · rw [show w.actor = none from he] at halive
    cases halive

/-- A caller takes its reply. -/
theorem return_ (h : Invariant provider s₀ w) {call : Nat} {a : Reply V}
    (hc : w.calls[call]? = some (.replied a)) :
    Invariant provider s₀ { w.setCall call (.returned a) with
      history := w.history ++ [.returned call a] } := by
  obtain ⟨request, hserved⟩ := h.fits call _ hc
  have hget := getElem?_setCall hc (.returned a)
  have hlength : (w.setCall call (.returned a)).calls.length = w.calls.length := List.length_set
  refine
    { linearizes := h.linearizes.reply hserved
      serves := h.serves
      numbered := by rw [hlength]; exact h.numbered
      made := fun c request hm => ?_
      fits := fun c state hs => ?_
      queued := fun e he => (h.queued e he).imp_left (List.mem_append_left _)
      distinct := h.distinct
      bounded := h.bounded
      replying := h.replying
      once := ?_
      returned := fun c b hr => ?_
      stopped := h.stopped
      short := h.short
      events := h.events
      demands := h.demands }
  · rw [hlength]
    rcases List.mem_append.mp hm with hm | hm
    · exact h.made c request hm
    · simp at hm
  · by_cases hcc : c = call
    · rw [hget, if_pos hcc, Option.some.injEq] at hs
      subst hs hcc
      exact .inl (List.mem_append_right _ List.mem_cons_self)
    · rw [hget, if_neg hcc] at hs
      have hf := h.fits c state hs
      cases state with
      | sending e => exact ⟨hf.1, List.mem_append_left _ hf.2.1, hf.2.2⟩
      | returned b => exact hf.imp_left (List.mem_append_left _)
      | waiting | replied b | unanswered => exact hf
      | dropped => trivial
  · refine (List.nodup_append_comm.mpr (List.nodup_cons.mpr ⟨fun hm => ?_, h.once⟩))
    have hr := h.returned call a hm
    rw [hc] at hr
    cases hr
  · rw [hget]
    rcases List.mem_append.mp hr with hr | hr
    · have hr' := h.returned c b hr
      have hne : c ≠ call := by
        rintro rfl
        rw [hc] at hr'
        cases hr'
      rw [if_neg hne]
      exact hr'
    · rw [List.mem_singleton, Service.Event.returned.injEq] at hr
      obtain ⟨rfl, rfl⟩ := hr
      exact if_pos rfl

theorem clientStep (h : Invariant provider s₀ w) (hs : ClientStep w w') :
    Invariant provider s₀ w' := by
  cases hs with
  | invoke message => exact h.invoke message
  | send hc halive hroom => exact h.send hc halive hroom
  | refused hc hstopped =>
      exact h.setCall hc (fun a ha => by cases ha) (.inr ⟨rfl, hstopped⟩)
  | return_ hc => exact h.return_ hc
  | unavailable hc =>
      exact h.setCall hc (fun a ha => by cases ha) (.inr ⟨rfl, h.fits _ _ hc⟩)
  | drop hc hopen => exact h.setCall hc hopen trivial

/-- The actor stops with its mailbox. -/
theorem stop (h : Invariant provider s₀ w) : Invariant provider s₀ w.stop := by
  have hlength : w.stop.calls.length = w.calls.length := List.length_map _
  obtain ⟨lost, hlost, -⟩ := h.events
  obtain ⟨lost', hlost', -⟩ := h.demands
  refine
    { linearizes := h.linearizes
      serves := h.serves
      numbered := by rw [hlength]; exact h.numbered
      made := fun c request hm => by rw [hlength]; exact h.made c request hm
      fits := fun c state hs => ?_
      queued := fun e he => by cases he
      distinct := List.nodup_nil
      bounded := Nat.zero_le _
      replying := fun effects c a he => by cases he
      once := h.once
      returned := fun c a hr => ?_
      stopped := fun _ => rfl
      short := fun effects he => by cases he
      events := ⟨lost, hlost, fun effects he => by cases he⟩
      demands := ⟨lost', hlost', fun effects he => by cases he⟩ }
  · rw [World.stop, List.getElem?_map, Option.map_eq_some_iff] at hs
    obtain ⟨old, hold, rfl⟩ := hs
    have hf := h.fits c old hold
    cases old with
    | sending e => exact ⟨hf.1, hf.2.1, hf.2.2.1, List.not_mem_nil⟩
    | replied a => exact hf
    | returned a => exact hf.imp_right fun hn => ⟨hn.1, rfl⟩
    | waiting | unanswered => exact rfl
    | dropped => trivial
  · rw [World.stop, List.getElem?_map, h.returned c a hr]
    rfl

theorem step (h : Invariant provider s₀ w) (hs : Step provider w w') :
    Invariant provider s₀ w' := by
  cases hs with
  | actor hs => exact h.actorStep hs
  | client hs => exact h.clientStep hs
  | stop _ => exact h.stop

theorem reachable (h : Reachable provider s₀ w) : Invariant provider s₀ w := by
  induction h with
  | new => exact .new s₀
  | step _ hs ih => exact ih.step hs

end Invariant

/-! ### What the clients see -/

/-- The request id a reply carries. -/
def replyId : Reply V → String
  | .ok response => response.requestId
  | .error error => error.requestId

theorem replyId_answer (request : String × Message) (s : S) :
    replyId (answer provider request s).1 = request.1 := by
  simp only [answer, complete]
  rcases (request.2.perform provider s).1 with e | ⟨_, _, value⟩ <;> rfl

/-- The clients see the provider called by one after the other: the order of service explains all
they saw and leads to its state; a call returns once, under its own request id or, with no actor
left, as unavailable; and events and demands tell what was served, in its order. -/
structure Linearized (provider : InspectionProvider S V) (s₀ : S) (w : World S V) : Prop where
  linearizes : Service.Linearizes (answer provider) s₀ w.history w.served
  serves : Service.Serves (answer provider) s₀ w.served w.provider
  once : w.history.Nodup ∧ ∀ call a b, .returned call a ∈ w.history →
    .returned call b ∈ w.history → a = b
  ownReply : ∀ call a, .returned call a ∈ w.history →
    replyId a = requestId (UInt64.ofNat (call + 1))
  callers : ∀ call a, w.calls[call]? = some (.returned a) →
    .returned call a ∈ w.history ∨ a = .error actorUnavailable ∧ w.actor = none
  bounded : w.mailbox.length ≤ mailboxCapacity
  events : w.events <+: w.served.flatMap published
  demands : w.demands <+: w.served.map fun x => x.request.2.demand
  caughtUp : w.actor = some [] → w.events = w.served.flatMap published ∧
    w.demands = w.served.map fun x => x.request.2.demand

/-- In every state that any interleaving of the clients and the actor leads to. -/
theorem actor_linearizable (h : Reachable provider s₀ w) : Linearized provider s₀ w := by
  have hw := Invariant.reachable h
  obtain ⟨lost, hlost, hpending⟩ := hw.events
  obtain ⟨lost', hlost', hpending'⟩ := hw.demands
  refine
    { linearizes := hw.linearizes
      serves := hw.serves
      once := ⟨hw.once, fun call a b ha hb => ?_⟩
      ownReply := fun call a ha => ?_
      callers := fun call a hc => hw.fits call _ hc
      bounded := hw.bounded
      events := ⟨lost, hlost⟩
      demands := ⟨lost', hlost'⟩
      caughtUp := fun hidle => ?_ }
  · have hab := (hw.returned call a ha).symm.trans (hw.returned call b hb)
    simpa using hab
  · obtain ⟨request, hserved⟩ := hw.linearizes.returned call a ha
    obtain ⟨s, hs⟩ := hw.serves.answered _ hserved
    rw [show a = _ from hs, replyId_answer]
    exact (hw.made call request (hw.linearizes.invoked _ hserved)).2
  · rw [← hlost, ← hlost', hpending _ hidle, hpending' _ hidle]
    simp

/-- A provider that counts its updates. -/
def countingProvider : InspectionProvider Nat Nat where
  currentRevision := Nat.repr
  revision := count
  session := count
  symbols := count
  symbol _ := count
  product _ _ := count
  continuation _ := count
  run _ := count
  revisions _ := count
  revisionDetail _ := count
  compare _ _ _ _ := count
  applyUpdates _ n := (.ok ⟨n.succ.repr, none, .revisionAdvanced ⟨n.succ.repr, "edit", []⟩⟩, n + 1)
  reloadWorkspace _ n := (.error ⟨"workspace-reload-failed", "no workspace"⟩, n)
where
  count (n : Nat) : Except ApiError (Provided Nat) × Nat := (.ok ⟨n.repr, none, n⟩, n)

/-- An update that waits. -/
def editing : World Nat Nat :=
  { ((World.new 0).invoke (.applyUpdates [])).setCall 0 .waiting with
    mailbox := [⟨0, requestId 1, .applyUpdates []⟩] }

theorem editing_reachable : Reachable countingProvider 0 editing :=
  .step (.step .new (.client (.invoke (.applyUpdates []))))
    (.client (.send rfl rfl (Nat.zero_lt_succ 63)))

/-- Its reply. -/
def editReply : Reply Nat :=
  .ok ⟨"1", requestId 1, none, .inr (.revisionAdvanced ⟨"1", "edit", []⟩)⟩

/-- The update has been served, broadcast and replied to. -/
def edited : World Nat Nat :=
  { editing with
    provider := 1
    actor := some [.demand ⟨"apply-updates", []⟩]
    mailbox := []
    calls := [.returned editReply]
    events := [.revisionAdvanced ⟨"1", "edit", []⟩]
    history := [.invoked 0 (requestId 1, .applyUpdates []), .returned 0 editReply]
    served := [⟨0, (requestId 1, .applyUpdates []), editReply⟩] }

theorem edited_reachable : Reachable countingProvider 0 edited := by
  have hreceived := Reachable.step editing_reachable (.actor (.receive rfl rfl))
  have hbroadcast := Reachable.step hreceived (.actor (.broadcast rfl))
  have hreplied := Reachable.step hbroadcast (.actor (.reply rfl))
  exact .step hreplied (.client (@ClientStep.return_ Nat Nat _ 0 editReply rfl))

theorem actor_linearizable_edited : Linearized countingProvider 0 edited :=
  actor_linearizable edited_reachable

end Sage.Inspector.Actor
