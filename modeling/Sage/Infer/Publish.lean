import Sage.Infer.Account
import Sage.Infer.CongruenceRun

/-!
# Inference — what a commit publishes

A commit returns the variables to wake and the new revision of its parent; the waiters of other
variables stay parked, and a loop that sees its revision again stops.

* `Observation.Publishes` — the effects account for what a reader of the parent can tell.
* `commit_publishes` — they do, for every commit from a reachable state.
* `commit_refines` — types resolve to refinements of what they resolved to, and one that mentions
  woken variables only where it changes.
-/

namespace Sage

open Loop

/-- Nothing that could be read reads otherwise. -/
structure Observation.Unchanged (a b : Observation) : Prop where
  find : b.find = a.find
  bound : b.bound = a.bound
  domain : ∀ t d, a.domain t = some d → b.domain t = some d
  ceiling : ∀ i u, a.ceiling i = some u → b.ceiling i = some u

/-- A visible unresolved variable that is not woken reads as before, and so does everything when
no change was counted. -/
structure Observation.Publishes (a : Observation) (effects : CommitEffects) (b : Observation) :
    Prop where
  revision : b.revision = effects.semanticRevision
  kept : ∀ i ∈ a.visible, i ∉ effects.wakes → a.find (.inferVar i) = .inferVar i →
    b.find (.inferVar i) = .inferVar i ∧ b.domain (.inferVar i) = a.domain (.inferVar i) ∧
      b.bound (.inferVar i) = a.bound (.inferVar i) ∧ b.ceiling i = a.ceiling i
  counted : ∃ k : Nat, b.revision = a.revision + UInt64.ofNat k ∧
    (k = 0 → effects.wakes = [] ∧ a.Unchanged b)

theorem Observation.Publishes.refl (a : Observation) : a.Publishes ⟨[], a.revision⟩ a where
  revision := rfl
  kept _ _ _ hroot := ⟨hroot, rfl, rfl, rfl⟩
  counted := ⟨0, by simp, fun _ => ⟨rfl, rfl, rfl, fun _ _ => id, fun _ _ => id⟩⟩

namespace VersionedEGraph

variable {g g' : VersionedEGraph} {parent child : Nat} {keeps : Prop}

/-! ### Collapses -/

theorem canAccess_of_mem_visible {w : Nat} {i : InferVarIndex}
    (h : i ∈ g.versions.visibleVariables w) : g.versions.canAccess w i = true := by
  rw [VersionTree.visibleVariables, List.mem_filter] at h
  obtain ⟨info, hi, ha⟩ := Option.any_eq_true _ _ |>.mp h.2
  rw [VersionTree.canAccess, hi]
  exact (Bool.and_eq_true_iff.mp ha).2

theorem observe_domain_of_root {w : Nat} {t : Ty} {i : InferVarIndex}
    (hf : g.find w t = .inferVar i) (hi : g.versions.canAccess w i = true) :
    (g.observe w).domain t = some (((g.view w).domain (.inferVar i)).getD
      (g.versions.getVariable i).initialDomain) := by
  have hroot := accessibleRoot_eq_some.mpr ⟨hf, hi⟩
  simp only [observe, hroot, Option.bind_some]
  exact effectiveDomain_of_root hf

theorem observe_ceiling {w : Nat} {i : InferVarIndex} (hi : g.versions.canAccess w i = true) :
    (g.observe w).ceiling i = some (((g.view w).ceiling i).getD
      (g.versions.getVariable i).creationUniverse) := by
  simp only [observe, hi, if_true]
  rfl

theorem semanticRevision_eq (hg : g.WF) (w : Nat) :
    g.semanticRevision w = (g.view w).revision := by
  rw [view_eq hg, View.ofLayers_cons]
  rfl

theorem mem_wakes_iff (hg : g.WF) {w : Nat} {i : InferVarIndex} :
    i ∈ (g.state w).wakes ↔ i ∈ (g.view w).wakes := by
  rw [view_eq hg, View.ofLayers_cons]
  exact Iff.rfl

/-- A collapse publishes the child's account. -/
theorem AllAccounted.publishes (h : AllAccounted keeps g) (hc : g.CanCollapse child parent) :
    (g.observe parent).Publishes (g.collapseInto child parent).1
      ((g.collapseInto child parent).2.observe parent) := by
  have hwf := h.valid.wf
  have ht := (h.accounted hc.1 hc.2.2.1).tracked
  have hgp := h.valid.grounded parent hc.2.1
  have hgc := h.valid.grounded child hc.1
  have hchild : ∀ {i}, g.versions.canAccess parent i = true →
      g.versions.canAccess child i = true := fun hi => canAccess_child hwf hc.2.2.1 hi
  rw [observe_collapse h.valid hc (VersionedEGraph.collapsed hwf hc)]
  refine ⟨rfl, fun i hi hwake hroot => ?_, ?_⟩
  · have hacc := canAccess_of_mem_visible hi
    have hwake' : i ∉ (g.view child).wakes := fun hm => by
      refine hwake ?_
      change i ∈ (g.state child).wakes.insertionSort (· ≤ ·)
      rw [List.mem_insertionSort]
      exact (mem_wakes_iff hwf).mpr hm
    have hparent : g.getParent parent (.inferVar i) = .inferVar i := by
      have := getParent_find hgp (.inferVar i)
      rwa [show g.find parent (.inferVar i) = .inferVar i from hroot] at this
    have hfind := find_of_root (ht.root i hwake' hparent)
    refine ⟨hfind, ?_, ht.bound i hwake', ?_⟩
    · rw [observe_domain_of_root hfind (hchild hacc), observe_domain_of_root hroot hacc,
        ht.domain i hwake']
      rfl
    · rw [observe_ceiling (hchild hacc), observe_ceiling hacc, ht.ceiling i hacc hwake']
      rfl
  · obtain ⟨k, hk, hquiet⟩ := ht.revision
    refine ⟨k, ?_, fun hzero => ?_⟩
    · change g.semanticRevision child = g.semanticRevision parent + UInt64.ofNat k
      rw [semanticRevision_eq hwf, semanticRevision_eq hwf]
      exact hk
    have hq := hquiet hzero rfl
    have hfind : g.find child = g.find parent := by
      funext t
      exact (find_eq_iff hgc).mpr (hq.representative t _ (find_reaches hgp t))
    refine ⟨?_, hfind, hq.bound, fun t d hd => ?_, fun i u hu => ?_⟩
    · have hnil : (g.state child).wakes = [] := by
        refine List.eq_nil_iff_forall_not_mem.mpr fun i hi => ?_
        have hi' := (mem_wakes_iff hwf).mp hi
        rw [hq.wakes] at hi'
        cases hi'
      change (g.state child).wakes.insertionSort (· ≤ ·) = []
      rw [hnil]
      rfl
    · have hd' := hd
      simp only [observe] at hd'
      obtain ⟨i, hroot, -⟩ := Option.bind_eq_some_iff.mp hd'
      obtain ⟨hf, hi⟩ := accessibleRoot_eq_some.mp hroot
      rw [← hd, observe_domain_of_root hf hi,
        observe_domain_of_root (hfind ▸ hf) (hchild hi), hq.domain]
      rfl
    · have hi : g.versions.canAccess parent i = true := by
        by_contra hi
        simp only [observe, hi] at hu
        cases hu
      rw [← hu, observe_ceiling hi, observe_ceiling (hchild hi), hq.ceiling i hi]
      rfl

/-! ### Commits -/

section Commits

variable [HashOrder]

/-- A commit into `parent`: a collapse, or a transaction that succeeds. -/
inductive Commits (bounds : Bound → Prop) (g : VersionedEGraph) (parent : Version) :
    CommitEffects → VersionedEGraph → Prop
  | collapseInto {child : Version} (hc : g.CanCollapse child parent) :
      Commits bounds g parent (g.collapseInto child parent).1 (g.collapseInto child parent).2
  | tryUnifyBatch (hv : g.IsMutable parent) {fuel : Nat} {equalities : List (Ty × Ty)}
      {effects : CommitEffects} {g' : VersionedEGraph}
      (hrun : g.tryUnifyBatch fuel parent equalities = some (.ok ((), effects), g')) :
      Commits bounds g parent effects g'
  | tryUnifyRequired (hv : g.IsMutable parent) {fuel : Nat} {left right : Ty}
      {effects : CommitEffects} {g' : VersionedEGraph}
      (hrun : g.tryUnifyRequired fuel parent left right = some (.ok effects, g')) :
      Commits bounds g parent effects g'
  | trySetBound (hv : g.IsMutable parent) {fuel : Nat} {variableTy : Ty} {bound : Bound}
      {effects : CommitEffects} {g' : VersionedEGraph} (hb : bounds bound)
      (hrun : g.trySetBound fuel parent variableTy bound = some (.ok ((), effects), g')) :
      Commits bounds g parent effects g'
  | installErrorRecovery (hv : g.IsMutable parent) {fuel : Nat} {variableTy errorTy : Ty}
      {effects : CommitEffects} {g' : VersionedEGraph}
      (hrun : g.installErrorRecovery fuel parent variableTy errorTy =
        some (.ok ((), effects), g')) :
      Commits bounds g parent effects g'
  | applyQueryResponse (hv : g.IsMutable parent) {fuel : Nat} {query : GoalQueryData}
      {mapping : CanonicalMapping} {response : QueryResult} {applied : AppliedResponse}
      {g' : VersionedEGraph} (hm : g.Registered query mapping)
      (hrun : g.applyQueryResponse fuel parent query mapping response =
        some (.ok applied, g')) :
      Commits bounds g parent applied.effects g'

variable {bounds : Bound → Prop} {effects : CommitEffects}

/-- A commit collapses a child of a state that keeps its accounts, in which the parent reads as
before; or there was nothing to commit. -/
theorem Commits.collapses (h : AllAccounted (∀ b, bounds b → b.IsExact) g)
    (hc : Commits bounds g parent effects g') :
    (g' = g ∧ effects = ⟨[], g.semanticRevision parent⟩) ∨
      ∃ probe child, AllAccounted (∀ b, bounds b → b.IsExact) probe ∧
        probe.CanCollapse child parent ∧ probe.observe parent = g.observe parent ∧
        probe.layers parent = g.layers parent ∧
        probe.placeholderUniverse = g.placeholderUniverse ∧
        (effects, g') = probe.collapseInto child parent := by
  have key : g.IsMutable parent → Worked (∀ b, bounds b → b.IsExact) g parent (some effects) g' →
      ∃ probe child, AllAccounted (∀ b, bounds b → b.IsExact) probe ∧
        probe.CanCollapse child parent ∧ probe.observe parent = g.observe parent ∧
        probe.layers parent = g.layers parent ∧
        probe.placeholderUniverse = g.placeholderUniverse ∧
        (effects, g') = probe.collapseInto child parent := by
    rintro hv ⟨probe, hr, ⟨he, -⟩ | ⟨he, rfl⟩⟩
    · cases he
    obtain rfl := Option.some.inj he
    have hl := hr.1.toLocal
    have hb := (h.valid.branchFrom hv.1).wf
    have hlt := VersionTree.lt_length_of_isLive hv.1
    have hlive : (g.branchFrom parent).2.versions.isLive parent = true :=
      (VersionTree.branchFrom_isLive hlt _).trans (by simp [hv.1])
    refine ⟨probe, _, h.probe hv.1 hr, probe_canCollapse hv.1 hv.2 hl, ?_, ?_,
      hl.placeholderUniverse_eq, rfl⟩
    · exact (observe_confined hl.toConfined hb (probe_leaf hv.1) hlive (Nat.ne_of_lt hlt)).trans
        (observe_branchFrom h.valid.wf hv.1 hv.1)
    · rw [hl.layers_of_leaf hb.versions (probe_leaf hv.1) hlive (Nat.ne_of_lt hlt),
        branchFrom_layers h.valid.wf hv.1 hlt]
  cases hc with
  | collapseInto hc => exact .inr ⟨g, _, h, hc, rfl, rfl, rfl, rfl⟩
  | tryUnifyBatch hv hrun => exact .inr (key hv (worked_tryUnifyBatch hrun))
  | tryUnifyRequired hv hrun => exact .inr (key hv (worked_tryUnifyRequired hrun))
  | trySetBound hv hb hrun =>
      exact .inr (key hv (worked_trySetBound (fun hk => hk _ hb) hrun))
  | installErrorRecovery hv hrun => exact .inr (key hv (worked_installErrorRecovery hrun))
  | applyQueryResponse hv hm hrun =>
      rcases worked_applyQueryResponse hv.1 hm hrun with ⟨hg, he⟩ | hw
      · exact .inl ⟨hg, he _ rfl⟩
      · exact .inr (key hv hw)

theorem Commits.publishes (h : AllAccounted (∀ b, bounds b → b.IsExact) g)
    (hc : Commits bounds g parent effects g') :
    (g.observe parent).Publishes effects (g'.observe parent) := by
  rcases hc.collapses h with ⟨rfl, rfl⟩ | ⟨probe, child, hp, hcan, ho, -, -, he⟩
  · exact .refl _
  · have hpub := hp.publishes hcan
    rwa [← he, ho] at hpub

theorem Commits.placeholderUniverse_eq (h : AllAccounted (∀ b, bounds b → b.IsExact) g)
    (hc : Commits bounds g parent effects g') :
    g'.placeholderUniverse = g.placeholderUniverse := by
  rcases hc.collapses h with ⟨rfl, -⟩ | ⟨probe, child, -, -, -, -, hu, he⟩
  · rfl
  · have hg' : g' = (probe.collapseInto child parent).2 := congrArg Prod.snd he
    rw [hg', ← hu]
    rfl

theorem Commits.isLive (hc : Commits bounds g parent effects g') :
    g.versions.isLive parent = true := by
  cases hc with
  | collapseInto hc => exact hc.2.1
  | tryUnifyBatch hv _ => exact hv.1
  | tryUnifyRequired hv _ => exact hv.1
  | trySetBound hv _ _ => exact hv.1
  | installErrorRecovery hv _ => exact hv.1
  | applyQueryResponse hv _ _ => exact hv.1

/-- A commit takes no equality of its parent back. -/
theorem Commits.refinesStore (hb : ∀ b, bounds b → b.IsExact)
    (h : AllAccounted (∀ b, bounds b → b.IsExact) g) (hc : Commits bounds g parent effects g') :
    RefinesStore parent g g' := by
  rcases hc.collapses h with ⟨rfl, -⟩ | ⟨probe, child, hp, hcan, -, hl, -, he⟩
  · exact .refl _ _
  · intro S hS
    obtain ⟨T, hT, heT⟩ := refinesStore_of_layers hp.valid.wf hcan.2.1 hl S hS
    obtain ⟨U, hU, heU⟩ := (hp.accounted hcan.1 hcan.2.2.1).equates hb T hT
    have hg' : g' = (probe.collapseInto child parent).2 := congrArg Prod.snd he
    have hV := hU.collapseInto hcan
    rw [← hg'] at hV
    exact ⟨_, hV, (heT.trans heU).trans (.of_resolve rfl)⟩

/-- When only exact bounds are recorded: after a commit, every type resolves to a refinement of
what it resolved to, and to the same type when that mentions variables only that are visible and
not woken. -/
theorem commit_refines (hb : ∀ b, bounds b → b.IsExact) (hg : Reachable bounds g)
    (hc : Commits bounds g parent effects g') :
    ∃ ρ ρ', g.Resolution parent ρ ∧ g'.Resolution parent ρ' ∧
      (∀ t : Ty, (t.subst ρ).subst ρ' = t.subst ρ') ∧
      ∀ t : Ty, (∀ i ∈ (t.subst ρ).vars, i ∈ g.versions.visibleVariables parent ∧
        i ∉ effects.wakes) → t.subst ρ' = t.subst ρ := by
  have hall := AllAccounted.reachable hg
  obtain ⟨S, hS⟩ := (hg.modelled hb).store parent hc.isLive
  obtain ⟨S', hS', he⟩ := hc.refinesStore hb hall S hS
  refine ⟨S.resolve, S'.resolve, hS.resolution, hS'.resolution, he.subst_subst,
    fun t ht => ?_⟩
  rw [← he.subst_subst]
  refine Ty.subst_eq_self_iff.mpr fun i hi => ?_
  obtain ⟨hvisible, hwake⟩ := ht i hi
  -- an unresolved variable is its own representative, and stays so
  have hroot : g.find parent (.inferVar i) = .inferVar i := by
    rw [hS.find_eq_inferVar, Ty.subst_inferVar]
    exact Store.unresolved_of_mem hi
  have hkept := ((hc.publishes hall).kept i hvisible hwake hroot).1
  have hroot' : g'.find parent (.inferVar i) = .inferVar i := hkept
  rwa [hS'.find_eq_inferVar, Ty.subst_inferVar] at hroot'

end Commits

/-- Two variables, one of which is equated with `bool`. -/
theorem commits_bool : ∃ effects g', Commits Bound.IsExact twoVars 0 effects g' ∧
    effects.wakes = [0] := by
  have hok : (twoVars.tryUnify 8 0 (.inferVar 0) .bool).map (·.1.isOk) = some true := by
    decide
  have hwakes : (twoVars.tryUnify 8 0 (.inferVar 0) .bool).bind
      (fun r => r.1.toOption.map fun u => u.2.wakes) = some [0] := by
    decide
  obtain ⟨⟨⟨⟩, effects⟩, hrun⟩ := eq_some_ok_of_isOk .new hok
  rw [hrun] at hwakes
  exact ⟨effects, _, .tryUnifyBatch ⟨by decide, by decide⟩ hrun, Option.some.inj hwakes⟩

theorem reachable_twoVars : Reachable Bound.IsExact twoVars :=
  .step (.step .new (.alloc ⟨by decide, by decide⟩ 0 .any)) (.alloc ⟨by decide, by decide⟩ 0 .any)

/-- A tuple of the other variable resolves to itself, before and after. -/
theorem commit_refines_bool : ∃ effects g' ρ ρ', Commits Bound.IsExact twoVars 0 effects g' ∧
    twoVars.Resolution 0 ρ ∧ g'.Resolution 0 ρ' ∧
    (∀ t : Ty, (t.subst ρ).subst ρ' = t.subst ρ') := by
  obtain ⟨effects, g', hc, -⟩ := commits_bool
  obtain ⟨ρ, ρ', hρ, hρ', hsubst, -⟩ := commit_refines (fun _ => id) reachable_twoVars hc
  exact ⟨effects, g', ρ, ρ', hc, hρ, hρ', hsubst⟩

end VersionedEGraph

end Sage
