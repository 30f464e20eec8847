import Mathlib.Data.Finset.Basic
import Mathlib.Data.List.Nodup

/-!
# Infer — scoped tasks

The ready queue and the task set of `runtime.rs`.  A future is polled from outside: what it does is
any answer, and it may wake any task that has a waker.

* `ReadyQueue`, `ScopedTasks` — the source's structures and their operations.
* `Step`, `Run` — spawns, wakes, turns of `poll_next` and cancellations, with their events.
* `Phase` — the life of one task; `lifecycle` — the phase after some events, if these are in order.
* `Invariant` — a run follows the life of every task.
* `Orderly`, `run_orderly` — what holds after every run.
-/

namespace Sage.Infer

/-! ### The ready queue -/

structure ReadyQueue (T : Type) where
  queue : List T
  queued : Finset T

namespace ReadyQueue

variable {T : Type} [DecidableEq T] {q q' : ReadyQueue T} {value x : T}

def empty : ReadyQueue T := ⟨[], ∅⟩

def enqueue (q : ReadyQueue T) (value : T) : ReadyQueue T :=
  if value ∈ q.queued then q else ⟨q.queue ++ [value], insert value q.queued⟩

def pop (q : ReadyQueue T) : Option (T × ReadyQueue T) :=
  match q.queue with
  | [] => none
  | value :: rest => some (value, ⟨rest, q.queued.erase value⟩)

def remove (q : ReadyQueue T) (value : T) : ReadyQueue T :=
  if value ∈ q.queued then ⟨q.queue.filter fun queued => queued ≠ value, q.queued.erase value⟩
  else q

/-- The set holds what is queued, and nothing is queued twice. -/
structure Coherent (q : ReadyQueue T) : Prop where
  nodup : q.queue.Nodup
  mem_queued : ∀ x, x ∈ q.queued ↔ x ∈ q.queue

omit [DecidableEq T] in
theorem coherent_empty : (empty : ReadyQueue T).Coherent :=
  ⟨List.nodup_nil, fun _ => by simp [empty]⟩

theorem Coherent.enqueue (h : q.Coherent) (value : T) : (q.enqueue value).Coherent := by
  rw [ReadyQueue.enqueue]
  split
  · exact h
  · rename_i hvalue
    have hfresh : value ∉ q.queue := fun hmem => hvalue ((h.mem_queued value).mpr hmem)
    refine ⟨?_, ?_⟩
    · rw [List.nodup_append_comm]
      exact List.nodup_cons.mpr ⟨hfresh, h.nodup⟩
    · intro x
      rw [Finset.mem_insert, List.mem_append, List.mem_singleton, h.mem_queued, or_comm]

theorem Coherent.mem_enqueue (h : q.Coherent) :
    x ∈ (q.enqueue value).queue ↔ x ∈ q.queue ∨ x = value := by
  rw [ReadyQueue.enqueue]
  split
  · rename_i hvalue
    refine ⟨Or.inl, ?_⟩
    rintro (hx | rfl)
    · exact hx
    · exact (h.mem_queued _).mp hvalue
  · rw [List.mem_append, List.mem_singleton]

theorem pop_eq_none : q.pop = none ↔ q.queue = [] := by
  rw [pop]
  cases q.queue <;> simp

/-- What is popped is no longer queued. -/
theorem Coherent.pop (h : q.Coherent) (hpop : q.pop = some (value, q')) :
    q'.Coherent ∧ value ∉ q'.queue ∧ ∀ x, x ∈ q.queue ↔ x = value ∨ x ∈ q'.queue := by
  rw [ReadyQueue.pop] at hpop
  cases hqueue : q.queue with
  | nil =>
    rw [hqueue] at hpop
    cases hpop
  | cons first rest =>
    rw [hqueue] at hpop
    obtain ⟨rfl, rfl⟩ := Prod.mk.inj (Option.some.inj hpop)
    have hnodup := h.nodup
    rw [hqueue, List.nodup_cons] at hnodup
    refine ⟨⟨hnodup.2, fun x => ?_⟩, hnodup.1, fun x => List.mem_cons⟩
    rw [Finset.mem_erase, h.mem_queued, hqueue, List.mem_cons]
    constructor
    · rintro ⟨hne, hx⟩
      exact hx.resolve_left hne
    · intro hx
      refine ⟨?_, .inr hx⟩
      rintro rfl
      exact hnodup.1 hx

theorem Coherent.remove (h : q.Coherent) (value : T) :
    (q.remove value).Coherent ∧ ∀ x, x ∈ (q.remove value).queue ↔ x ∈ q.queue ∧ x ≠ value := by
  rw [ReadyQueue.remove]
  split
  · have hmem : ∀ x, x ∈ q.queue.filter (fun queued => queued ≠ value) ↔
        x ∈ q.queue ∧ x ≠ value := by
      intro x
      simp
    refine ⟨⟨h.nodup.filter _, fun x => ?_⟩, hmem⟩
    rw [Finset.mem_erase, h.mem_queued, hmem, and_comm]
  · rename_i hvalue
    refine ⟨h, fun x => ⟨fun hx => ⟨hx, ?_⟩, And.left⟩⟩
    rintro rfl
    exact hvalue ((h.mem_queued _).mpr hx)

end ReadyQueue

/-! ### The task set -/

abbrev TaskId := UInt32

/-- The tasks spawned so far; a task that ended leaves its slot empty. -/
structure ScopedTasks (F : Type) where
  ready : ReadyQueue TaskId
  tasks : List (Option F)
  live : Nat

/-- What happens to a task. -/
inductive TaskEvent where
  | spawned
  | woken
  | polled
  | completed
  | cancelled
deriving DecidableEq

/-- `idle` is a report that nothing can run. -/
inductive Event where
  | task (slot : Nat) (event : TaskEvent)
  | idle
deriving DecidableEq

/-- How a turn of the loop in `poll_next` ends: `again` goes on with the loop. -/
inductive Turn (T : Type) where
  | again
  | pending
  | ready (completed : Option (TaskId × T))

namespace ScopedTasks

variable {F T : Type}

def new : ScopedTasks F := ⟨.empty, [], 0⟩

def spawn (s : ScopedTasks F) (future : F) : TaskId × ScopedTasks F :=
  let id := UInt32.ofNat s.tasks.length
  (id, ⟨s.ready.enqueue id, s.tasks ++ [some future], s.live + 1⟩)

/-- A waker puts its task into the queue. -/
def wake (s : ScopedTasks F) (id : TaskId) : ScopedTasks F := { s with ready := s.ready.enqueue id }

/-- One turn of the loop in `poll_next`.  A future that is polled wakes some tasks, and then is to
be polled again or has an output; `none` is a panic. -/
def pollTurn (poll : F → List TaskId × (F ⊕ T)) (s : ScopedTasks F) :
    Option (Turn T × List Event × ScopedTasks F) :=
  match s.ready.pop with
  | none => some (if s.live = 0 then .ready none else .pending, [.idle], s)
  | some (id, ready) =>
      let s := { s with ready }
      match s.tasks[id.toNat]? with
      | none => none
      | some none => some (.again, [], s)
      | some (some future) =>
          let (wakes, result) := poll future
          let s := wakes.foldl wake s
          let events := .task id.toNat .polled :: wakes.map fun id => .task id.toNat .woken
          match result with
          | .inl future => some (.again, events, { s with tasks := s.tasks.set id.toNat future })
          | .inr output =>
              some (.ready (some (id, output)), events ++ [.task id.toNat .completed],
                { s with tasks := s.tasks.set id.toNat none, live := s.live - 1 })

/-- A task that did not end. -/
def Live (s : ScopedTasks F) (slot : Nat) : Prop := (s.tasks[slot]?.join).isSome

instance (s : ScopedTasks F) (slot : Nat) : Decidable (s.Live slot) :=
  inferInstanceAs (Decidable (_ = true))

def cancelAll (s : ScopedTasks F) : ScopedTasks F := ⟨.empty, s.tasks.map fun _ => none, 0⟩

def liveSlots (s : ScopedTasks F) : List Nat :=
  (List.range s.tasks.length).filter fun slot => s.Live slot

end ScopedTasks

open ScopedTasks

variable {F : Type}

/-- One step.  A waker belongs to a spawned task, and can be used at any time. -/
inductive Step (T : Type) : ScopedTasks F → List Event → ScopedTasks F → Prop where
  | spawn (s : ScopedTasks F) (future : F) :
      Step T s [.task s.tasks.length .spawned] (s.spawn future).2
  | wake (s : ScopedTasks F) (id : TaskId) (known : id.toNat < s.tasks.length) :
      Step T s [.task id.toNat .woken] (s.wake id)
  | poll {s s' : ScopedTasks F} {events : List Event} (poll : F → List TaskId × (F ⊕ T))
      {turn : Turn T}
      (known : ∀ future, ∀ id ∈ (poll future).1, id.toNat < s.tasks.length)
      (turned : s.pollTurn poll = some (turn, events, s')) : Step T s events s'
  | cancel (s : ScopedTasks F) :
      Step T s (s.liveSlots.map fun slot => .task slot .cancelled) s.cancelAll

inductive Run (T : Type) : ScopedTasks F → List Event → ScopedTasks F → Prop where
  | refl (s : ScopedTasks F) : Run T s [] s
  | step {s s' s'' : ScopedTasks F} {events events' : List Event}
      (before : Run T s events s') (last : Step T s' events' s'') :
      Run T s (events ++ events') s''

variable {T : Type} {s s' : ScopedTasks F} {events events' : List Event} {slot : Nat}

/-! ### The life of a task -/

/-- A task that is `due` was woken after its last poll began. -/
inductive Phase where
  | absent
  | waiting
  | due
  | ended
deriving DecidableEq

/-- The phase after an event of the task, if the event is in order. -/
def Phase.next : Phase → TaskEvent → Option Phase
  | .absent, .spawned => some .waiting
  | .waiting, .woken | .due, .woken => some .due
  | .waiting, .polled | .due, .polled => some .waiting
  | .waiting, .completed | .due, .completed => some .ended
  | .waiting, .cancelled | .due, .cancelled => some .ended
  | .ended, .woken => some .ended
  | _, _ => none

/-- With a task that is due, something can run. -/
@[grind =] def Phase.observe (slot : Nat) (phase : Phase) : Event → Option Phase
  | .task slot' event => if slot' = slot then phase.next event else some phase
  | .idle => if phase = .due then none else some phase

def lifecycle (slot : Nat) (events : List Event) : Option Phase :=
  events.foldlM (Phase.observe slot) .absent

variable {event : Event} {phase phase' : Phase}

@[simp] theorem lifecycle_nil : lifecycle slot [] = some .absent := rfl

theorem lifecycle_append : lifecycle slot (events ++ events') =
    (lifecycle slot events).bind fun phase => events'.foldlM (Phase.observe slot) phase :=
  List.foldlM_append

/-- What is in order after more events was in order before. -/
theorem lifecycle_append_eq_some : lifecycle slot (events ++ events') = some phase' ↔
    ∃ phase, lifecycle slot events = some phase ∧
      events'.foldlM (Phase.observe slot) phase = some phase' := by
  rw [lifecycle_append, Option.bind_eq_some_iff]

theorem lifecycle_concat (h : lifecycle slot events = some phase) :
    lifecycle slot (events ++ [event]) = phase.observe slot event := by
  rw [lifecycle_append, h, Option.bind_some, List.foldlM_cons]
  cases phase.observe slot event <;> rfl

theorem lifecycle_concat_eq_some : lifecycle slot (events ++ [event]) = some phase' ↔
    ∃ phase, lifecycle slot events = some phase ∧ phase.observe slot event = some phase' := by
  constructor
  · intro h
    obtain ⟨phase, hphase, -⟩ := lifecycle_append_eq_some.mp h
    exact ⟨phase, hphase, (lifecycle_concat hphase).symm.trans h⟩
  · rintro ⟨phase, hphase, h⟩
    exact (lifecycle_concat hphase).trans h

/-- Another event than its end leaves a task as it is, or takes a due task to be polled. -/
theorem observe_of_due (h : Phase.due.observe slot event = some phase')
    (hpolled : event ≠ .task slot .polled) (hcompleted : event ≠ .task slot .completed)
    (hcancelled : event ≠ .task slot .cancelled) : event ≠ .idle ∧ phase' = .due := by
  cases event with
  | idle => cases h
  | task slot' event =>
    refine ⟨nofun, ?_⟩
    rw [Phase.observe] at h
    split at h
    · rename_i hslot
      subst hslot
      cases event with
      | spawned => cases h
      | woken =>
        cases h
        rfl
      | polled => exact absurd rfl hpolled
      | completed => exact absurd rfl hcompleted
      | cancelled => exact absurd rfl hcancelled
    · cases h
      rfl

/-- Nothing is idle while a task is due. -/
theorem foldlM_of_due : ∀ {events : List Event},
    events.foldlM (Phase.observe slot) .due = some phase' → .task slot .polled ∉ events →
      .task slot .completed ∉ events → .task slot .cancelled ∉ events →
        Event.idle ∉ events ∧ phase' = .due
  | [], h, _, _, _ => by
      cases h
      exact ⟨List.not_mem_nil, rfl⟩
  | event :: events, h, hpolled, hcompleted, hcancelled => by
      rw [List.foldlM_cons, Option.bind_eq_bind, Option.bind_eq_some_iff] at h
      obtain ⟨phase, hphase, h⟩ := h
      rw [List.mem_cons, not_or] at hpolled hcompleted hcancelled
      obtain ⟨hidle, rfl⟩ := observe_of_due hphase (Ne.symm hpolled.1) (Ne.symm hcompleted.1)
        (Ne.symm hcancelled.1)
      obtain ⟨hidle', rfl⟩ := foldlM_of_due h hpolled.2 hcompleted.2 hcancelled.2
      exact ⟨List.not_mem_cons_of_ne_of_not_mem hidle.symm hidle', rfl⟩

/-- How often a task ends, and whether it was spawned, can be told from its phase. -/
theorem lifecycle_counts (h : lifecycle slot events = some phase) :
    events.count (.task slot .completed) + events.count (.task slot .cancelled) =
        (if phase = .ended then 1 else 0) ∧
      (.task slot .spawned ∈ events ↔ phase ≠ .absent) := by
  induction events using List.reverseRecOn generalizing phase with
  | nil =>
    cases h
    simp
  | append_singleton events event ih =>
    obtain ⟨before, hbefore, hevent⟩ := lifecycle_concat_eq_some.mp h
    obtain ⟨hcount, hspawned⟩ := ih hbefore
    rw [List.count_append, List.count_append, List.mem_append, hspawned, List.mem_singleton]
    cases event with
    | idle =>
      rw [Phase.observe] at hevent
      split at hevent
      · cases hevent
      · cases hevent
        simpa using hcount
    | task slot' event =>
      rw [Phase.observe] at hevent
      split at hevent
      · rename_i hslot
        subst hslot
        cases before <;> cases event <;> cases hevent <;> simp_all
      · rename_i hslot
        cases hevent
        have hne : ∀ event', Event.task slot' event ≠ .task slot event' := by
          intro event' heq
          exact hslot (Event.task.inj heq).1
        rw [List.count_singleton, List.count_singleton]
        simp only [beq_iff_eq, hne, if_false, Nat.add_zero, (hne _).symm, or_false, and_true]
        exact hcount

/-- One event for each of some tasks. -/
theorem foldlM_map {event : TaskEvent} {slots : List Nat} (hnodup : slots.Nodup) :
    (slots.map fun slot => Event.task slot event).foldlM (Phase.observe slot) phase =
      if slot ∈ slots then phase.next event else some phase := by
  induction slots generalizing phase with
  | nil => rfl
  | cons slot' slots ih =>
    obtain ⟨hfresh, hnodup⟩ := List.nodup_cons.mp hnodup
    rw [List.map_cons, List.foldlM_cons, Phase.observe]
    by_cases hslot : slot' = slot
    · subst hslot
      rw [if_pos rfl, if_pos List.mem_cons_self]
      cases phase.next event with
      | none => rfl
      | some phase' => exact (ih hnodup).trans (if_neg hfresh)
    · rw [if_neg hslot]
      refine (ih hnodup).trans ?_
      simp only [List.mem_cons, Ne.symm hslot, false_or]

/-! ### The task set follows the life of every task -/

/-- The task set agrees with the phase of a task. -/
@[grind =] def ScopedTasks.Matches (s : ScopedTasks F) (slot : Nat) : Phase → Prop
  | .absent => s.tasks[slot]? = none
  | .waiting => ∃ future, s.tasks[slot]? = some (some future)
  | .due => (∃ future, s.tasks[slot]? = some (some future)) ∧
      ∃ id ∈ s.ready.queue, id.toNat = slot
  | .ended => s.tasks[slot]? = some none

theorem live_iff : s.Live slot ↔ ∃ future, s.tasks[slot]? = some (some future) := by
  rw [Live, Option.isSome_iff_exists]
  simp only [Option.join_eq_some_iff]

structure Invariant (s : ScopedTasks F) (events : List Event) : Prop where
  coherent : s.ready.Coherent
  known : ∀ id ∈ s.ready.queue, id.toNat < s.tasks.length
  counted : s.live = s.tasks.countP Option.isSome
  phases : ∀ slot, ∃ phase, lifecycle slot events = some phase ∧ s.Matches slot phase

/-- What is not due does not depend on the queue. -/
theorem ScopedTasks.Matches.congr (h : s.Matches slot phase) (htasks : s'.tasks = s.tasks)
    (hready : ∀ id ∈ s.ready.queue, id.toNat = slot → id ∈ s'.ready.queue) :
    s'.Matches slot phase := by
  cases phase with
  | absent | waiting | ended => simpa only [Matches, htasks] using h
  | due =>
    obtain ⟨hlive, id, hid, hslot⟩ := h
    exact ⟨htasks ▸ hlive, id, hready id hid hslot, hslot⟩

/-- A live task is waiting or due. -/
theorem ScopedTasks.Matches.live {future : F} (h : s.Matches slot phase)
    (hlive : s.tasks[slot]? = some (some future)) : phase = .waiting ∨ phase = .due := by
  cases phase with
  | waiting => exact .inl rfl
  | due => exact .inr rfl
  | absent | ended =>
    rw [Matches, hlive] at h
    cases h

namespace Invariant

theorem new : Invariant (ScopedTasks.new : ScopedTasks F) [] where
  coherent := ReadyQueue.coherent_empty
  known _ hid := absurd hid List.not_mem_nil
  counted := rfl
  phases _ := ⟨.absent, rfl, rfl⟩

/-- A single event of one task: the other tasks stay as they are. -/
theorem extend (h : Invariant s events) {event : TaskEvent} (coherent : s'.ready.Coherent)
    (known : ∀ id ∈ s'.ready.queue, id.toNat < s'.tasks.length)
    (counted : s'.live = s'.tasks.countP Option.isSome)
    (own : ∀ phase, lifecycle slot events = some phase → s.Matches slot phase →
      ∃ phase', phase.next event = some phase' ∧ s'.Matches slot phase')
    (others : ∀ slot', slot' ≠ slot → ∀ phase, s.Matches slot' phase → s'.Matches slot' phase) :
    Invariant s' (events ++ [.task slot event]) where
  coherent := coherent
  known := known
  counted := counted
  phases slot' := by
    obtain ⟨phase, hphase, hmatches⟩ := h.phases slot'
    rw [lifecycle_concat hphase, Phase.observe]
    by_cases hslot : slot = slot'
    · subst hslot
      rw [if_pos rfl]
      exact own phase hphase hmatches
    · rw [if_neg hslot]
      exact ⟨phase, rfl, others slot' (Ne.symm hslot) phase hmatches⟩

theorem spawn (h : Invariant s events) (future : F) :
    Invariant (s.spawn future).2 (events ++ [.task s.tasks.length .spawned]) := by
  refine h.extend (h.coherent.enqueue _) ?_ ?_ ?_ ?_
  · intro id hid
    have hlength : (s.tasks ++ [some future]).length = s.tasks.length + 1 := by simp
    refine Nat.lt_of_lt_of_eq ?_ hlength.symm
    rcases h.coherent.mem_enqueue.mp hid with hid | rfl
    · exact Nat.lt_succ_of_lt (h.known id hid)
    -- the id of a new task may be that of an old one
    · rw [UInt32.toNat_ofNat']
      exact Nat.lt_succ_of_le (Nat.mod_le _ _)
  · exact (congrArg (· + 1) h.counted).trans (by simp [ScopedTasks.spawn])
  · intro phase _ hmatches
    have habsent : s.tasks[s.tasks.length]? = none := List.getElem?_eq_none (Nat.le_refl _)
    have hphase : phase = .absent := by
      cases phase with
      | absent => rfl
      | waiting =>
        obtain ⟨_, hlive⟩ := hmatches
        rw [habsent] at hlive
        cases hlive
      | due =>
        obtain ⟨⟨_, hlive⟩, -⟩ := hmatches
        rw [habsent] at hlive
        cases hlive
      | ended =>
        rw [Matches, habsent] at hmatches
        cases hmatches
    subst hphase
    exact ⟨.waiting, rfl, future, List.getElem?_concat_length⟩
  · intro slot hslot phase hmatches
    have hlookup : (s.spawn future).2.tasks[slot]? = s.tasks[slot]? := by
      rcases Nat.lt_or_ge slot s.tasks.length with hlt | hge
      · exact List.getElem?_append_left hlt
      · have hlt : s.tasks.length < slot := Nat.lt_of_le_of_ne hge (Ne.symm hslot)
        rw [List.getElem?_eq_none hge]
        exact List.getElem?_eq_none (by simpa [ScopedTasks.spawn] using Nat.succ_le_of_lt hlt)
    cases phase with
    | absent | waiting | ended => simpa only [Matches, hlookup] using hmatches
    | due =>
      obtain ⟨hlive, id, hid, hid'⟩ := hmatches
      exact ⟨hlookup ▸ hlive, id, h.coherent.mem_enqueue.mpr (.inl hid), hid'⟩

theorem wake (h : Invariant s events) {id : TaskId} (hid : id.toNat < s.tasks.length) :
    Invariant (s.wake id) (events ++ [.task id.toNat .woken]) := by
  have hready : ∀ id' ∈ s.ready.queue, id' ∈ (s.wake id).ready.queue :=
    fun _ hmem => h.coherent.mem_enqueue.mpr (.inl hmem)
  refine h.extend (h.coherent.enqueue id) ?_ h.counted ?_ ?_
  · intro id' hmem
    rcases h.coherent.mem_enqueue.mp hmem with hmem | rfl
    · exact h.known id' hmem
    · exact hid
  · intro phase _ hmatches
    have hqueued : id ∈ (s.wake id).ready.queue := h.coherent.mem_enqueue.mpr (.inr rfl)
    cases phase with
    | absent => exact absurd hid (Nat.not_lt.mpr (List.getElem?_eq_none_iff.mp hmatches))
    | waiting => exact ⟨.due, rfl, hmatches, id, hqueued, rfl⟩
    | due => exact ⟨.due, rfl, hmatches.1, id, hqueued, rfl⟩
    | ended => exact ⟨.ended, rfl, hmatches⟩
  · exact fun _ _ _ hmatches => hmatches.congr rfl fun id' hmem _ => hready id' hmem

theorem wakes : ∀ {wakes : List TaskId} {s : ScopedTasks F} {events : List Event},
    Invariant s events → (∀ id ∈ wakes, id.toNat < s.tasks.length) →
      Invariant (wakes.foldl ScopedTasks.wake s)
        (events ++ wakes.map fun id => .task id.toNat .woken)
  | [], s, events, h, _ => by
      rw [List.map_nil, List.append_nil]
      exact h
  | id :: wakes, s, events, h, hknown => by
      have hwake := h.wake (hknown id List.mem_cons_self)
      have := hwake.wakes fun id' hid' => hknown id' (List.mem_cons_of_mem id hid')
      rwa [List.append_assoc] at this

@[simp] theorem tasks_foldl_wake (wakes : List TaskId) (s : ScopedTasks F) :
    (wakes.foldl ScopedTasks.wake s).tasks = s.tasks := by
  induction wakes generalizing s with
  | nil => rfl
  | cons id wakes ih => exact ih (s.wake id)

/-- A task that ended is popped without a poll. -/
theorem skip (h : Invariant s events) {id : TaskId} {ready : ReadyQueue TaskId}
    (hpop : s.ready.pop = some (id, ready)) (hended : s.tasks[id.toNat]? = some none) :
    Invariant { s with ready } events := by
  obtain ⟨hcoherent, -, hmem⟩ := h.coherent.pop hpop
  refine ⟨hcoherent, fun id' hid' => h.known id' ((hmem id').mpr (.inr hid')), h.counted, ?_⟩
  intro slot
  obtain ⟨phase, hphase, hmatches⟩ := h.phases slot
  refine ⟨phase, hphase, ?_⟩
  cases phase with
  | absent | waiting | ended => exact hmatches
  | due =>
    obtain ⟨⟨future, hlive⟩, id', hid', rfl⟩ := hmatches
    refine ⟨⟨future, hlive⟩, id', ((hmem id').mp hid').resolve_left ?_, rfl⟩
    rintro rfl
    rw [hended] at hlive
    cases hlive

theorem poll (h : Invariant s events) {id : TaskId} {ready : ReadyQueue TaskId} {future : F}
    (hpop : s.ready.pop = some (id, ready)) (hlive : s.tasks[id.toNat]? = some (some future)) :
    Invariant { s with ready } (events ++ [.task id.toNat .polled]) := by
  obtain ⟨hcoherent, -, hmem⟩ := h.coherent.pop hpop
  refine h.extend hcoherent (fun id' hid' => h.known id' ((hmem id').mpr (.inr hid'))) h.counted
    ?_ ?_
  · intro phase _ hmatches
    rcases hmatches.live hlive with rfl | rfl
    · exact ⟨.waiting, rfl, future, hlive⟩
    · exact ⟨.waiting, rfl, future, hlive⟩
  · intro slot hslot phase hmatches
    refine hmatches.congr rfl fun id' hid' hid => ((hmem id').mp hid').resolve_left ?_
    rintro rfl
    exact hslot hid.symm

/-- The future of a live task is another one after a poll. -/
theorem store (h : Invariant s events) {future : F} (hlive : s.tasks[slot]? = some (some future))
    (future' : F) : Invariant { s with tasks := s.tasks.set slot (some future') } events := by
  obtain ⟨hlt, hget⟩ := List.getElem?_eq_some_iff.mp hlive
  refine ⟨h.coherent, fun id hid => ?_, ?_, fun slot' => ?_⟩
  · rw [List.length_set]
    exact h.known id hid
  · have hpos : 0 < s.tasks.countP Option.isSome :=
      List.countP_pos_iff.mpr ⟨some future, List.mem_of_getElem? hlive, rfl⟩
    rw [List.countP_set hlt, hget, Option.isSome_some, if_pos rfl, Option.isSome_some, if_pos rfl,
      Nat.sub_add_cancel hpos]
    exact h.counted
  · obtain ⟨phase, hphase, hmatches⟩ := h.phases slot'
    refine ⟨phase, hphase, ?_⟩
    by_cases hslot : slot = slot'
    · subst hslot
      have hset : (s.tasks.set slot (some future'))[slot]? = some (some future') :=
        List.getElem?_set_self hlt
      rcases hmatches.live hlive with rfl | rfl
      · exact ⟨future', hset⟩
      · exact ⟨⟨future', hset⟩, hmatches.2⟩
    · have hset : (s.tasks.set slot (some future'))[slot']? = s.tasks[slot']? :=
        List.getElem?_set_ne hslot
      cases phase with
      | absent | waiting | ended => simpa only [Matches, hset] using hmatches
      | due => exact ⟨hset ▸ hmatches.1, hmatches.2⟩

theorem complete (h : Invariant s events) {future : F}
    (hlive : s.tasks[slot]? = some (some future)) :
    Invariant { s with tasks := s.tasks.set slot none, live := s.live - 1 }
      (events ++ [.task slot .completed]) := by
  obtain ⟨hlt, hget⟩ := List.getElem?_eq_some_iff.mp hlive
  refine h.extend h.coherent (fun id hid => ?_) ?_ ?_ ?_
  · rw [List.length_set]
    exact h.known id hid
  · rw [List.countP_set hlt, hget, Option.isSome_some, if_pos rfl, Option.isSome_none]
    exact congrArg (· - 1) h.counted
  · intro phase _ hmatches
    have hset : (s.tasks.set slot none)[slot]? = some none := List.getElem?_set_self hlt
    rcases hmatches.live hlive with rfl | rfl
    · exact ⟨.ended, rfl, hset⟩
    · exact ⟨.ended, rfl, hset⟩
  · intro slot' hslot phase hmatches
    have hset : (s.tasks.set slot none)[slot']? = s.tasks[slot']? :=
      List.getElem?_set_ne (Ne.symm hslot)
    cases phase with
    | absent | waiting | ended => simpa only [Matches, hset] using hmatches
    | due => exact ⟨hset ▸ hmatches.1, hmatches.2⟩

/-- When the queue is empty no task is due. -/
theorem idle (h : Invariant s events) (hpop : s.ready.pop = none) :
    Invariant s (events ++ [.idle]) := by
  refine ⟨h.coherent, h.known, h.counted, fun slot => ?_⟩
  obtain ⟨phase, hphase, hmatches⟩ := h.phases slot
  rw [lifecycle_concat hphase, Phase.observe, if_neg ?_]
  · exact ⟨phase, rfl, hmatches⟩
  · rintro rfl
    obtain ⟨-, id, hid, -⟩ := hmatches
    rw [ReadyQueue.pop_eq_none.mp hpop] at hid
    exact List.not_mem_nil hid

/-- A turn does not panic. -/
theorem pollTurn_isSome (h : Invariant s events) (poll : F → List TaskId × (F ⊕ T)) :
    (s.pollTurn poll).isSome := by
  rw [pollTurn]
  cases hpop : s.ready.pop with
  | none => rfl
  | some popped =>
    obtain ⟨id, ready⟩ := popped
    obtain ⟨-, -, hmem⟩ := h.coherent.pop hpop
    have hlt := h.known id ((hmem id).mpr (.inl rfl))
    dsimp only
    rw [List.getElem?_eq_getElem hlt]
    cases s.tasks[id.toNat] with
    | none => rfl
    | some future =>
      dsimp only
      cases (poll future).2 <;> rfl

theorem pollTurn (h : Invariant s events) {poll : F → List TaskId × (F ⊕ T)} {turn : Turn T}
    (hknown : ∀ future, ∀ id ∈ (poll future).1, id.toNat < s.tasks.length)
    (hturn : s.pollTurn poll = some (turn, events', s')) : Invariant s' (events ++ events') := by
  rw [ScopedTasks.pollTurn] at hturn
  cases hpop : s.ready.pop with
  | none =>
    rw [hpop] at hturn
    cases hturn
    exact h.idle hpop
  | some popped =>
    obtain ⟨id, ready⟩ := popped
    rw [hpop] at hturn
    dsimp only at hturn
    cases htask : s.tasks[id.toNat]? with
    | none =>
      rw [htask] at hturn
      cases hturn
    | some task =>
      rw [htask] at hturn
      cases task with
      | none =>
        cases hturn
        rw [List.append_nil]
        exact h.skip hpop htask
      | some future =>
        dsimp only at hturn
        -- the poll is first, then the wakes, and then the future is stored or the task ends
        have hwakes := (h.poll hpop htask).wakes (hknown future)
        have htask' : ((poll future).1.foldl ScopedTasks.wake
            { s with ready := ready }).tasks[id.toNat]? = some (some future) := by
          rw [tasks_foldl_wake]
          exact htask
        rw [List.append_assoc] at hwakes
        cases hresult : (poll future).2 with
        | inl future' =>
          rw [hresult] at hturn
          cases hturn
          have hstore := hwakes.store htask' future'
          exact hstore
        | inr output =>
          rw [hresult] at hturn
          cases hturn
          have hcomplete := hwakes.complete htask'
          rw [List.append_assoc] at hcomplete
          exact hcomplete

theorem mem_liveSlots : slot ∈ s.liveSlots ↔ ∃ future, s.tasks[slot]? = some (some future) := by
  rw [liveSlots, List.mem_filter, List.mem_range, decide_eq_true_eq, live_iff]
  refine ⟨And.right, fun hlive => ⟨?_, hlive⟩⟩
  obtain ⟨future, hlive⟩ := hlive
  exact (List.getElem?_eq_some_iff.mp hlive).1

theorem cancelAll (h : Invariant s events) : Invariant s.cancelAll
    (events ++ s.liveSlots.map fun slot => .task slot .cancelled) := by
  refine ⟨ReadyQueue.coherent_empty, fun id hid => absurd hid List.not_mem_nil, ?_, ?_⟩
  · symm
    rw [ScopedTasks.cancelAll, List.countP_map, List.countP_eq_zero]
    exact fun _ _ => Bool.false_ne_true
  intro slot
  obtain ⟨phase, hphase, hmatches⟩ := h.phases slot
  have hnodup : s.liveSlots.Nodup := List.nodup_range.filter _
  rw [lifecycle_append, hphase, Option.bind_some, foldlM_map hnodup]
  have hmap : s.cancelAll.tasks[slot]? = s.tasks[slot]?.map fun _ => none := List.getElem?_map
  by_cases hlive : ∃ future, s.tasks[slot]? = some (some future)
  · rw [if_pos (mem_liveSlots.mpr hlive)]
    obtain ⟨future, hlive⟩ := hlive
    have hended : s.cancelAll.tasks[slot]? = some none := by rw [hmap, hlive, Option.map_some]
    rcases hmatches.live hlive with rfl | rfl
    · exact ⟨.ended, rfl, hended⟩
    · exact ⟨.ended, rfl, hended⟩
  · rw [if_neg fun hmem => hlive (mem_liveSlots.mp hmem)]
    refine ⟨phase, rfl, ?_⟩
    cases phase with
    | absent | ended =>
      rw [Matches] at hmatches ⊢
      rw [hmap, hmatches]
      rfl
    | waiting => exact absurd hmatches hlive
    | due => exact absurd hmatches.1 hlive

theorem step (h : Invariant s events) (hstep : Step T s events' s') :
    Invariant s' (events ++ events') := by
  cases hstep with
  | spawn future => exact h.spawn future
  | wake id known => exact h.wake known
  | poll poll known turned => exact h.pollTurn known turned
  | cancel => exact h.cancelAll

theorem run (h : Run T ScopedTasks.new events s) : Invariant s events := by
  induction h with
  | refl => exact .new
  | step _ last ih => exact ih.step last

end Invariant

/-! ### Runs -/

/-- What holds of the events so far, and of the tasks after them. -/
structure Orderly (s : ScopedTasks F) (events : List Event) : Prop where
  /-- No task is queued twice. -/
  nodup : s.ready.queue.Nodup
  /-- A task that was woken and did not end is polled before nothing can run. -/
  answered (slot : Nat) (before between after : List Event) :
    events = before ++ .task slot .woken :: between ++ .idle :: after →
      .task slot .completed ∉ before ++ between → .task slot .cancelled ∉ before ++ between →
        .task slot .polled ∈ between
  /-- A spawned task is live, or it completed once, or it was cancelled once. -/
  once (slot : Nat) : .task slot .spawned ∈ events →
    events.count (.task slot .completed) + events.count (.task slot .cancelled) +
      (if s.Live slot then 1 else 0) = 1
  /-- A task that ended is not polled. -/
  ended (slot : Nat) (before after : List Event) : events = before ++ .task slot .polled :: after →
    .task slot .completed ∉ before ∧ .task slot .cancelled ∉ before

theorem polled_not_ended {before after : List Event}
    (h : lifecycle slot (before ++ .task slot .polled :: after) = some phase) :
    .task slot .completed ∉ before ∧ .task slot .cancelled ∉ before := by
  obtain ⟨phase', hbefore, h⟩ := lifecycle_append_eq_some.mp h
  rw [List.foldlM_cons, Option.bind_eq_bind, Option.bind_eq_some_iff] at h
  obtain ⟨polled, hpolled, -⟩ := h
  rw [Phase.observe, if_pos rfl] at hpolled
  have hcount := (lifecycle_counts hbefore).1
  rw [if_neg (by rintro rfl; cases hpolled), Nat.add_eq_zero_iff, List.count_eq_zero,
    List.count_eq_zero] at hcount
  exact hcount

/-- A task that was woken is due or ended, and due until its next poll. -/
theorem woken_answered {before between after : List Event}
    (h : lifecycle slot (before ++ .task slot .woken :: between ++ .idle :: after) = some phase)
    (hcompleted : .task slot .completed ∉ before ++ between)
    (hcancelled : .task slot .cancelled ∉ before ++ between) :
    .task slot .polled ∈ between := by
  by_contra hpolled
  rw [List.mem_append, not_or] at hcompleted hcancelled
  rw [List.append_assoc] at h
  obtain ⟨phase', hbefore, h⟩ := lifecycle_append_eq_some.mp h
  rw [List.cons_append, List.foldlM_cons, Option.bind_eq_bind, Option.bind_eq_some_iff] at h
  obtain ⟨woken, hwoken, h⟩ := h
  rw [List.foldlM_append, Option.bind_eq_bind, Option.bind_eq_some_iff] at h
  obtain ⟨idle, hbetween, h⟩ := h
  rw [List.foldlM_cons, Option.bind_eq_bind, Option.bind_eq_some_iff] at h
  obtain ⟨_, hidle, -⟩ := h
  have hdue : woken = .due := by
    rw [Phase.observe, if_pos rfl] at hwoken
    cases phase' with
    | absent => cases hwoken
    | waiting | due =>
      cases hwoken
      rfl
    | ended =>
      have hcount := (lifecycle_counts hbefore).1
      rw [List.count_eq_zero.mpr hcompleted.1, List.count_eq_zero.mpr hcancelled.1] at hcount
      cases hcount
  subst hdue
  obtain ⟨-, rfl⟩ := foldlM_of_due hbetween hpolled hcompleted.2 hcancelled.2
  cases hidle

theorem Invariant.orderly (h : Invariant s events) : Orderly s events where
  nodup := h.coherent.nodup
  answered slot before between after heq hcompleted hcancelled := by
    obtain ⟨phase, hphase, -⟩ := h.phases slot
    exact woken_answered (heq ▸ hphase) hcompleted hcancelled
  once slot hspawned := by
    obtain ⟨phase, hphase, hmatches⟩ := h.phases slot
    obtain ⟨hcount, hspawned'⟩ := lifecycle_counts hphase
    rw [hcount]
    cases phase with
    | absent => exact absurd rfl (hspawned'.mp hspawned)
    | waiting =>
      rw [if_pos (live_iff.mpr hmatches)]
      rfl
    | due =>
      rw [if_pos (live_iff.mpr hmatches.1)]
      rfl
    | ended =>
      have hdead : ¬s.Live slot := by
        rintro hlive
        obtain ⟨_, hlive⟩ := live_iff.mp hlive
        rw [Matches, hlive] at hmatches
        cases hmatches
      rw [if_neg hdead]
      rfl
  ended slot before after heq := by
    obtain ⟨phase, hphase, -⟩ := h.phases slot
    exact polled_not_ended (heq ▸ hphase)

/-- Every run from an empty set is orderly. -/
theorem run_orderly (h : Run T (ScopedTasks.new : ScopedTasks F) events s) : Orderly s events :=
  (Invariant.run h).orderly

/-- A task that wakes itself in its first poll, and then completes. -/
def wakeOnce (polled : Bool) : List TaskId × (Bool ⊕ Nat) :=
  if polled then ([], .inr 42) else ([0], .inl true)

theorem run_orderly_wakeOnce : ∃ s : ScopedTasks Bool, s.live = 0 ∧
    Orderly s [.task 0 .spawned, .task 0 .polled, .task 0 .woken, .task 0 .polled,
      .task 0 .completed, .idle] := by
  have hspawn := Run.step (.refl _) (Step.spawn (T := Nat) .new false)
  have hknown : ∀ future, ∀ id ∈ (wakeOnce future).1, id.toNat < 1 := by
    intro future id hid
    cases future
    · rw [List.mem_singleton.mp hid]
      exact Nat.one_pos
    · cases hid
  have hpending := hspawn.step (.poll wakeOnce hknown rfl)
  have hcompleted := hpending.step (.poll wakeOnce hknown rfl)
  have hidle := hcompleted.step (.poll wakeOnce hknown rfl)
  exact ⟨_, rfl, run_orderly hidle⟩

end Sage.Infer
