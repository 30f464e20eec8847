import Sage.Solve.Stable

/-!
# Inference — obligations

An obligation that cannot make progress is stalled on the variables that its canonical query
stands over, and is ready again when a commit wakes one of them.

* `published_current` — what a stalled obligation stores is never out of date.
-/

namespace Sage

inductive ObligationState where
  | ready
  | stalled
  | terminal
deriving DecidableEq

inductive ObligationGoal where
  | prove (goal : Goal)
  | normalize (aliasTy : AliasTy) (expected : Ty)

def ObligationGoal.solverGoal : ObligationGoal → SolverGoal
  | .prove goal => .prove goal
  | .normalize aliasTy _ => .normalize aliasTy

/-- One retained proof request of a caller. -/
structure Obligation where
  goal : ObligationGoal
  assumptions : List Assumption
  assumptionsComplete : Bool
  canonicalGoal : GoalQueryData
  mapping : CanonicalMapping
  state : ObligationState
  stalledOn : List InferVarIndex

structure ObligationManager where
  obligations : List Obligation

def Obligation.wake (woken : List InferVarIndex) (obligation : Obligation) : Obligation :=
  if obligation.state = .stalled ∧ obligation.stalledOn.any (woken.contains ·) then
    { obligation with state := .ready }
  else obligation

def ObligationManager.wake (manager : ObligationManager) (woken : List InferVarIndex) :
    ObligationManager :=
  if woken.isEmpty then manager
  else ⟨manager.obligations.map (Obligation.wake woken)⟩

def CallerCanonicalVar.existential? : CallerCanonicalVar → Option InferVarIndex
  | .existential index => some index
  | .rigid _ => none

namespace VersionedEGraph

def canonicalizeObligationGoal (fuel : Nat) (g : VersionedEGraph) (assumptionsComplete : Bool)
    (assumptions : List Assumption) (goal : ObligationGoal) :
    Option ((GoalQueryData × CanonicalMapping) × List InferVarIndex) := do
  let canonical ← g.canonicalizeSolverGoal fuel .root 1 assumptionsComplete assumptions
    goal.solverGoal
  return (canonical, canonical.2.inputs.filterMap (·.existential?))

end VersionedEGraph

/-- What an obligation stores is what canonicalizing its goal gives, from some fuel on. -/
def Obligation.IsCurrent (o : Obligation) (g : VersionedEGraph) : Prop :=
  ∃ N, ∀ n ≥ N, g.canonicalizeObligationGoal n o.assumptionsComplete o.assumptions o.goal =
    some ((o.canonicalGoal, o.mapping), o.stalledOn)

/-- The stalled obligations are current, and stand over variables of the root. -/
def ObligationManager.IsCurrent (m : ObligationManager) (g : VersionedEGraph) : Prop :=
  ∀ o ∈ m.obligations, o.state = .stalled →
    o.IsCurrent g ∧ ∀ x ∈ o.stalledOn, x ∈ g.versions.visibleVariables .root

/-! ### Waking -/

theorem Obligation.wake_stalled {woken : List InferVarIndex} {o : Obligation}
    (h : (o.wake woken).state = .stalled) :
    o.wake woken = o ∧ ∀ x ∈ o.stalledOn, x ∉ woken := by
  rw [Obligation.wake] at h ⊢
  split at h
  · cases h
  · rename_i hkept
    refine ⟨if_neg hkept, fun x hx hmem => hkept ⟨h, ?_⟩⟩
    exact List.any_eq_true.mpr ⟨x, hx, by simpa using hmem⟩

theorem ObligationManager.stalled_of_wake {m : ObligationManager} {woken : List InferVarIndex}
    {o : Obligation} (ho : o ∈ (m.wake woken).obligations) (h : o.state = .stalled) :
    o ∈ m.obligations ∧ ∀ x ∈ o.stalledOn, x ∉ woken := by
  rw [ObligationManager.wake] at ho
  split at ho
  · rename_i hempty
    refine ⟨ho, fun x _ => ?_⟩
    rw [List.isEmpty_iff.mp hempty]
    exact List.not_mem_nil
  · obtain ⟨o', ho', rfl⟩ := List.mem_map.mp ho
    obtain ⟨heq, hkept⟩ := Obligation.wake_stalled h
    rw [heq]
    exact ⟨ho', hkept⟩

/-! ### Commits into the root -/

namespace VersionedEGraph

theorem mem_visible_child {g : VersionedEGraph} {parent child : Version} (hg : g.WF)
    (hp : g.versions.parent child = some parent) {i : InferVarIndex}
    (h : i ∈ g.versions.visibleVariables parent) : i ∈ g.versions.visibleVariables child := by
  have hacc := canAccess_child hg hp (canAccess_of_mem_visible h)
  simp only [VersionTree.visibleVariables, VersionTree.canAccess, List.mem_filter,
    Option.any_eq_true, Bool.and_eq_true] at h hacc ⊢
  obtain ⟨hrange, info, hi, hlive, -⟩ := h
  obtain ⟨info', hi', hanc⟩ := hacc
  obtain rfl := Option.some.inj (hi.symm.trans hi')
  exact ⟨hrange, info, hi, hlive, hanc⟩

section Commits

variable [HashOrder] {g g' : VersionedEGraph} {parent : Version} {effects : CommitEffects}
  {bounds : Bound → Prop}

/-- A commit leads from reachable states to reachable states. -/
theorem Commits.reachable (hg : Reachable bounds g) (hc : Commits bounds g parent effects g') :
    Reachable bounds g' := by
  cases hc with
  | collapseInto hc => exact .step hg (.collapseInto hc)
  | tryUnifyBatch hv hrun =>
      exact .step hg (.transaction hv.1 (fun _ => hv.2) (.tryUnifyBatch hrun))
  | tryUnifyRequired hv hrun =>
      exact .step hg (.transaction hv.1 (fun _ => hv.2) (.tryUnifyRequired hrun))
  | trySetBound hv hb hrun =>
      exact .step hg (.transaction hv.1 (fun _ => hv.2) (.trySetBound hb hrun))
  | installErrorRecovery hv hrun =>
      exact .step hg (.transaction hv.1 (fun _ => hv.2) (.installErrorRecovery hrun))
  | applyQueryResponse hv hm hrun =>
      exact .step hg (.transaction hv.1 (fun _ => hv.2) (.applyQueryResponse hm hrun))

/-- A commit hides no variable of its parent. -/
theorem Commits.visible (h : AllAccounted (∀ b, bounds b → b.IsExact) g)
    (hc : Commits bounds g parent effects g') {i : InferVarIndex}
    (hi : i ∈ g.versions.visibleVariables parent) :
    i ∈ g'.versions.visibleVariables parent := by
  rcases hc.collapses h with ⟨rfl, -⟩ | ⟨probe, child, hp, hcan, ho, -, -, he⟩
  · exact hi
  · have hwf := hp.valid.wf
    have hprobe : i ∈ probe.versions.visibleVariables parent := by
      rwa [show probe.versions.visibleVariables parent = g.versions.visibleVariables parent from
        congrArg Observation.visible ho]
    have hg' : g' = (probe.collapseInto child parent).2 := congrArg Prod.snd he
    rw [hg', show (probe.collapseInto child parent).2.versions.visibleVariables parent =
      probe.versions.visibleVariables child from congrArg Observation.visible
        (observe_collapse hp.valid hcan (VersionedEGraph.collapsed hwf hcan))]
    exact mem_visible_child hwf hcan.2.2.1 hprobe

/-- Commits into the root, the wakes of each of which are published to the obligations. -/
inductive Published (g : VersionedEGraph) (m : ObligationManager) :
    VersionedEGraph → ObligationManager → Prop
  | refl : Published g m g m
  | commit {g' g'' : VersionedEGraph} {m' : ObligationManager} {effects : CommitEffects}
      (h : Published g m g' m') (hc : Commits Bound.IsExact g' .root effects g'') :
      Published g m g'' (m'.wake effects.wakes)

/-- One commit: what stays stalled is not woken, and stays current. -/
theorem Commits.isCurrent {m : ObligationManager} (hg : Reachable Bound.IsExact g)
    (hm : m.IsCurrent g) (hc : Commits Bound.IsExact g .root effects g') :
    (m.wake effects.wakes).IsCurrent g' := by
  intro o ho hs
  obtain ⟨hmem, hkept⟩ := ObligationManager.stalled_of_wake ho hs
  obtain ⟨⟨N, hN⟩, hvisible⟩ := hm o hmem hs
  refine ⟨?_, fun x hx => hc.visible (.reachable hg) (hvisible x hx)⟩
  obtain ⟨M, hM⟩ := hc.query_same hg 1 o.assumptionsComplete o.assumptions o.goal.solverGoal
  refine ⟨max N M, fun n hn => ?_⟩
  obtain ⟨data, mapping, hq, hsame⟩ := hM n (Nat.le_trans (Nat.le_max_right ..) hn)
  have hstored := hN n (Nat.le_trans (Nat.le_max_left ..) hn)
  rw [canonicalizeObligationGoal, hq] at hstored
  obtain ⟨⟨rfl, rfl⟩, hstalled⟩ := by simpa using hstored
  rw [canonicalizeObligationGoal, hsame fun x hx => ?_, ← hq, ← canonicalizeObligationGoal]
  · exact hN n (Nat.le_trans (Nat.le_max_left ..) hn)
  · have hx' : x ∈ o.stalledOn := by
      rw [← hstalled]
      exact List.mem_filterMap.mpr ⟨_, hx, rfl⟩
    exact ⟨hvisible x hx', hkept x hx'⟩

/-- Whatever is committed into the root, an obligation that is still stalled stores the query and
the mapping that its goal has: nothing was published that it should have been woken for. -/
theorem published_current {m m' : ObligationManager} (hg : Reachable Bound.IsExact g)
    (hm : m.IsCurrent g) (h : Published g m g' m') :
    Reachable Bound.IsExact g' ∧ m'.IsCurrent g' := by
  induction h with
  | refl => exact ⟨hg, hm⟩
  | commit _ hc ih => exact ⟨hc.reachable ih.1, hc.isCurrent ih.1 ih.2⟩

end Commits

/-- The other variable of two is to be `bool`. -/
def stalledOnOther : Obligation where
  goal := .prove (.atom (.equals (.inferVar 1) .bool))
  assumptions := []
  assumptionsComplete := true
  canonicalGoal :=
    { canonicalUniverse := 1
      canonicalVars := [⟨⟨.type, 0⟩, .type, .existentialInput, 0, .any⟩]
      nextResponseParam := 1
      assumptionsComplete := true
      assumptions := []
      goal := .prove (.atom (.equals (.param (.alphaEquiv ⟨.type, 0⟩)) .bool)) }
  mapping := ⟨0, [.existential 1]⟩
  state := .stalled
  stalledOn := [1]

theorem published_current_other : ∃ g' m', Published twoVars ⟨[stalledOnOther]⟩ g' m' ∧
    stalledOnOther ∈ m'.obligations ∧ stalledOnOther.IsCurrent g' := by
  obtain ⟨effects, g', hc, hwakes⟩ := commits_bool
  have hm : (⟨[stalledOnOther]⟩ : ObligationManager).IsCurrent twoVars := by
    rintro o ho -
    obtain rfl := List.mem_singleton.mp ho
    refine ⟨⟨1, fun n hn => ?_⟩, by decide⟩
    obtain ⟨k, rfl⟩ := Nat.exists_eq_add_of_le' hn
    rfl
  have hp := Published.commit (.refl (m := ⟨[stalledOnOther]⟩)) hc
  rw [hwakes] at hp
  have hmem : stalledOnOther ∈ ((⟨[stalledOnOther]⟩ : ObligationManager).wake [0]).obligations :=
    List.mem_singleton_self _
  exact ⟨g', _, hp, hmem, ((published_current reachable_twoVars hm hp).2 _ hmem rfl).1⟩

end VersionedEGraph

end Sage
