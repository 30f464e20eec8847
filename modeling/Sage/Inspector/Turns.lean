import Sage.Inspector.Linear

/-!
# Inspector — every call that waits is replied to

Whatever the clients do meanwhile: while the actor lives it can take a step when a call waits, and
after four steps for every message of a full mailbox the reply is there.

* `CallState.rank` — how far a call has got; no step takes it back.
* `Within` — how many steps of the actor are left until the reply.
* `waiting_progress` — the bound in every reachable state.
-/

namespace Sage.Inspector.Actor

variable {S V : Type} {provider : InspectionProvider S V} {s₀ : S} {w w' : World S V}

/-! ### The calls of one step -/

/-- How far a call has got: its message is in no mailbox yet, it waits, or it waits no more. -/
def CallState.rank : CallState V → Nat
  | .sending _ => 0
  | .waiting => 1
  | _ => 2

theorem CallState.rank_eq_one {state : CallState V} : state.rank = 1 ↔ state = .waiting := by
  cases state <;> simp [CallState.rank]

/-- What became of a call: it is still there, and no further back. -/
def Keeps (w w' : World S V) : Prop :=
  ∀ (call : Nat) (old : CallState V), w.calls[call]? = some old →
    ∃ state : CallState V, w'.calls[call]? = some state ∧ old.rank ≤ state.rank

theorem Keeps.refl (h : w'.calls = w.calls) : Keeps w w' :=
  fun _ old ho => ⟨old, by rw [h]; exact ho, Nat.le_refl _⟩

theorem Keeps.setCall {call : Nat} {old state : CallState V} (ho : w.calls[call]? = some old)
    (hle : old.rank ≤ state.rank) (h : w'.calls = (w.setCall call state).calls) : Keeps w w' := by
  intro c other hc
  rw [h, getElem?_setCall ho]
  by_cases hcc : c = call
  · subst hcc
    rw [ho, Option.some.injEq] at hc
    exact ⟨state, if_pos rfl, hc ▸ hle⟩
  · exact ⟨other, by rw [if_neg hcc]; exact hc, Nat.le_refl _⟩

theorem ActorStep.keeps (hs : ActorStep provider w w') : Keeps w w' := by
  cases hs with
  | receive _ _ | broadcast _ | demand _ => exact .refl rfl
  | @reply call a effects _ =>
      by_cases hc : w.calls[call]? = some .waiting
      · rw [World.deliver_waiting (by exact hc)]
        refine Keeps.setCall hc ?_ rfl
        exact Nat.le_succ 1
      · rw [World.deliver_gone (by exact hc)]
        exact .refl rfl

theorem ClientStep.keeps (hs : ClientStep w w') : Keeps w w' := by
  cases hs with
  | invoke message =>
      intro c old hc
      have hlt := (List.getElem?_eq_some_iff.mp hc).1
      exact ⟨old, (List.getElem?_append_left hlt).trans hc, Nat.le_refl _⟩
  | send hc _ _ => exact Keeps.setCall hc (Nat.zero_le _) rfl
  | refused hc _ => exact Keeps.setCall hc (Nat.zero_le _) rfl
  | return_ hc =>
      refine Keeps.setCall hc ?_ rfl
      exact Nat.le_refl 2
  | unavailable hc =>
      refine Keeps.setCall hc ?_ rfl
      exact Nat.le_refl 2
  | @drop _ state hc _ =>
      refine Keeps.setCall hc ?_ rfl
      cases state <;> simp [CallState.rank]

/-- A client does nothing to the actor but put messages behind the others. -/
theorem ClientStep.mailbox (hs : ClientStep w w') :
    w'.actor = w.actor ∧ ∃ extra, w'.mailbox = w.mailbox ++ extra := by
  cases hs with
  | send _ _ _ => exact ⟨rfl, _, rfl⟩
  | invoke _ | refused _ _ | return_ _ | unavailable _ | drop _ _ =>
      exact ⟨rfl, [], (List.append_nil _).symm⟩

/-! ### Steps until the reply -/

/-- A run without the actor stopping, with the number of its steps. -/
inductive Runs (provider : InspectionProvider S V) (w : World S V) : Nat → World S V → Prop
  | refl : Runs provider w 0 w
  | actor {n : Nat} {w' w'' : World S V} (h : Runs provider w n w')
      (hs : ActorStep provider w' w'') : Runs provider w (n + 1) w''
  | client {n : Nat} {w' w'' : World S V} (h : Runs provider w n w') (hs : ClientStep w' w'') :
      Runs provider w n w''

/-- A call that waits is replied to within `n` steps of the actor: four for each message up to its
own, after the effects that are pending. -/
inductive Within (w : World S V) (call n : Nat) : Prop
  | pending {effects : List (Effect V)} {a : Reply V} (ha : w.actor = some effects)
      (hm : .reply call a ∈ effects) (hn : effects.length ≤ n)
  | queued {effects : List (Effect V)} {before after : List Envelope} {envelope : Envelope}
      (ha : w.actor = some effects) (hm : w.mailbox = before ++ envelope :: after)
      (hc : envelope.call = call) (hn : effects.length + 4 * (before.length + 1) ≤ n)

namespace Within

variable {call n : Nat}

theorem mono (h : Within w call n) {m : Nat} (hle : n ≤ m) : Within w call m := by
  cases h with
  | pending ha hm hn => exact .pending ha hm (Nat.le_trans hn hle)
  | queued ha hm hc hn => exact .queued ha hm hc (Nat.le_trans hn hle)

/-- Nobody is replied to in no steps. -/
theorem pos (h : Within w call n) : 0 < n := by
  cases h with
  | pending ha hm hn => exact Nat.lt_of_lt_of_le (List.length_pos_of_mem hm) hn
  | queued ha hm hc hn => omega

/-- The actor is done with an effect that is not the reply. -/
theorem pop (h : Within w call (n + 1)) {first : Effect V} {effects : List (Effect V)}
    (ha : w.actor = some (first :: effects)) (hfirst : ∀ a, first ≠ .reply call a)
    (ha' : w'.actor = some effects) (hm' : w'.mailbox = w.mailbox) : Within w' call n := by
  cases h with
  | @pending es a hes hm hn =>
      rw [ha, Option.some.injEq] at hes
      subst hes
      exact .pending ha' ((List.mem_cons.mp hm).resolve_left fun e => hfirst a e.symm)
        (Nat.le_of_succ_le_succ hn)
  | queued hes hm hc hn =>
      rw [ha, Option.some.injEq] at hes
      subst hes
      rw [List.length_cons] at hn
      exact .queued ha' (hm'.trans hm) hc (by omega)

/-- A step of the actor brings the reply nearer. -/
theorem actorStep (h : Within w call (n + 1)) (hs : ActorStep provider w w')
    (hwait : w.calls[call]? = some .waiting) (hwait' : w'.calls[call]? = some .waiting) :
    Within w' call n := by
  cases hs with
  | @receive envelope rest hidle hmail =>
      have hshort : (serve provider envelope w.provider).1.length ≤ 3 :=
        length_serve_le envelope w.provider
      cases h with
      | pending ha hm hn =>
          rw [hidle, Option.some.injEq] at ha
          subst ha
          cases hm
      | @queued effects before after e ha hm hc hn =>
          rw [hmail] at hm
          cases before with
          | nil =>
              obtain ⟨rfl, rfl⟩ := List.cons.inj hm
              rw [List.length_nil] at hn
              exact .pending rfl (mem_serve.mpr ⟨hc.symm, rfl⟩) (by omega)
          | cons b before =>
              obtain ⟨rfl, hrest⟩ := List.cons.inj hm
              rw [List.length_cons] at hn
              exact .queued rfl hrest hc (by omega)
  | broadcast ha => exact h.pop ha (fun a he => by cases he) rfl rfl
  | demand ha => exact h.pop ha (fun a he => by cases he) rfl rfl
  | @reply c b effects ha =>
      by_cases hc : w.calls[c]? = some .waiting
      · rw [World.deliver_waiting (by exact hc)] at hwait' ⊢
        refine h.pop ha (fun a he => ?_) rfl rfl
        obtain ⟨rfl, -⟩ := Effect.reply.inj he
        rw [getElem?_setCall (by exact hc), if_pos rfl] at hwait'
        cases hwait'
      · rw [World.deliver_gone (by exact hc)]
        refine h.pop ha (fun a he => ?_) rfl rfl
        obtain ⟨rfl, -⟩ := Effect.reply.inj he
        exact hc hwait

/-- What the clients do does not delay it. -/
theorem clientStep (h : Within w call n) (hs : ClientStep w w') : Within w' call n := by
  obtain ⟨hactor, extra, hmail⟩ := hs.mailbox
  cases h with
  | pending ha hm hn => exact .pending (hactor.trans ha) hm hn
  | queued ha hm hc hn =>
      have hm' := hmail.trans (congrArg (· ++ extra) hm)
      rw [List.append_assoc, List.cons_append] at hm'
      exact .queued (hactor.trans ha) hm' hc hn

end Within

namespace Runs

variable {call n : Nat}

theorem keeps (h : Runs provider w n w') : Keeps w w' := by
  induction h with
  | refl => exact .refl rfl
  | actor _ hs ih =>
      intro c old hc
      obtain ⟨state, hstate, hle⟩ := ih c old hc
      obtain ⟨state', hstate', hle'⟩ := hs.keeps c state hstate
      exact ⟨state', hstate', Nat.le_trans hle hle'⟩
  | client _ hs ih =>
      intro c old hc
      obtain ⟨state, hstate, hle⟩ := ih c old hc
      obtain ⟨state', hstate', hle'⟩ := hs.keeps c state hstate
      exact ⟨state', hstate', Nat.le_trans hle hle'⟩

/-- A call that waits before and after has waited in between. -/
theorem still_waiting (h : Runs provider w n w') {w'' : World S V} (hk : Keeps w' w'')
    (hwait : w.calls[call]? = some .waiting) (hwait' : w''.calls[call]? = some .waiting) :
    w'.calls[call]? = some .waiting := by
  obtain ⟨state, hstate, hle⟩ := h.keeps call _ hwait
  obtain ⟨last, hlast, hle'⟩ := hk call state hstate
  rw [hwait', Option.some.injEq] at hlast
  subst hlast
  rw [hstate, CallState.rank_eq_one.mp (Nat.le_antisymm hle' hle)]

/-- Every step of the actor has brought the reply nearer. -/
theorem within (h : Runs provider w n w') (hwait : w.calls[call]? = some .waiting)
    (hwait' : w'.calls[call]? = some .waiting) {k : Nat} (hin : Within w call (n + k)) :
    Within w' call k := by
  induction h generalizing k with
  | refl => rwa [Nat.zero_add] at hin
  | @actor n w₁ w₂ h hs ih =>
      have hwait₁ := h.still_waiting hs.keeps hwait hwait'
      rw [Nat.add_assoc, Nat.add_comm 1 k] at hin
      exact (ih hwait₁ hin).actorStep hs hwait₁ hwait'
  | client h hs ih => exact (ih (h.still_waiting hs.keeps hwait hwait') hin).clientStep hs

end Runs

/-- How long a call waits at most. -/
theorem Invariant.within (h : Invariant provider s₀ w) {call : Nat}
    (hwait : w.calls[call]? = some .waiting) : Within w call (4 * mailboxCapacity + 3) := by
  rcases h.fits call _ hwait with hq | ⟨effects, a, ha, hm⟩
  · obtain ⟨envelope, hmem, hcall⟩ := List.mem_map.mp hq
    obtain ⟨before, after, hsplit⟩ := List.append_of_mem hmem
    obtain ⟨effects, ha⟩ : ∃ effects, w.actor = some effects := by
      refine Option.ne_none_iff_exists'.mp fun hnone => ?_
      rw [h.stopped hnone] at hmem
      cases hmem
    have hshort := h.short effects ha
    have hbounded := h.bounded
    rw [hsplit, List.length_append, List.length_cons] at hbounded
    exact .queued ha hsplit hcall (by omega)
  · exact .pending ha hm (Nat.le_trans (h.short effects ha) (Nat.le_add_left _ _))

/-- The actor can take a step when a call is to be replied to. -/
theorem Within.actor_steps {call n : Nat} (h : Within w call n) :
    ∃ w', ActorStep provider w w' := by
  have hstep : ∀ (first : Effect V) (effects : List (Effect V)),
      w.actor = some (first :: effects) → ∃ w', ActorStep provider w w' := by
    intro first effects ha
    cases first with
    | broadcast event => exact ⟨_, .broadcast ha⟩
    | reply c a => exact ⟨_, .reply ha⟩
    | demand d => exact ⟨_, .demand ha⟩
  cases h with
  | @pending effects a ha hm hn =>
      cases effects with
      | nil => cases hm
      | cons first effects => exact hstep first effects ha
  | @queued effects before after envelope ha hm hc hn =>
      cases effects with
      | nil =>
          cases before with
          | nil => exact ⟨_, .receive ha hm⟩
          | cons b before => exact ⟨_, .receive ha hm⟩
      | cons first effects => exact hstep first effects ha

/-- While the actor lives, no call waits for ever: the actor can step, and at the end of a run with
as many of its steps as a full mailbox takes, whatever the clients did, the call waits no more. -/
theorem waiting_progress (h : Reachable provider s₀ w) {call : Nat}
    (hwait : w.calls[call]? = some .waiting) :
    (∃ w', ActorStep provider w w') ∧
      ∀ n w', Runs provider w n w' → w'.calls[call]? = some .waiting →
        n < 4 * mailboxCapacity + 3 := by
  have hin := (Invariant.reachable h).within hwait
  refine ⟨hin.actor_steps, fun n w' hr hwait' => ?_⟩
  by_contra hn
  -- past the bound the reply would be due in no steps
  have hdue := hr.within (k := 0) hwait hwait' (hin.mono (Nat.le_of_not_lt hn))
  exact Nat.lt_irrefl 0 hdue.pos

theorem waiting_progress_editing :
    (∃ w', ActorStep countingProvider editing w') ∧
      ∀ n w', Runs countingProvider editing n w' → w'.calls[0]? = some .waiting →
        n < 4 * mailboxCapacity + 3 :=
  waiting_progress editing_reachable rfl

end Sage.Inspector.Actor
