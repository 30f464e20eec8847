import Sage.Infer.Termination

/-!
# Inference — operations on a probe

A transaction branches a probe from its parent, works on the probe alone, and collapses or
discards it.  Whatever an operation does, it keeps the probe representing a store.

* `KeepsStore` — a version that represents a store still represents one after the change.
* `Probed` — what a transaction leaves behind, as seen from its parent.
* `probed_tryProbe` — `tryProbe` is such a transaction when its operation is local.
-/

namespace Sage

open Loop

def Bound.IsExact : Bound → Prop
  | .atLeast _ => False
  | _ => True

namespace VersionedEGraph

/-! ### Stores under mutation -/

/-- A change of version `v` after which it still represents a store. -/
def KeepsStore (v : Version) (g g' : VersionedEGraph) : Prop :=
  ∀ S, Represents g v S → ∃ S', Represents g' v S'

theorem KeepsStore.trans {v : Version} {g g' g'' : VersionedEGraph} (h : KeepsStore v g g')
    (h' : KeepsStore v g' g'') : KeepsStore v g g'' := fun S hS =>
  let ⟨S', hS'⟩ := h S hS
  h' S' hS'

theorem Represents.of_layers {g g' : VersionedEGraph} {v w : Version} {S : Store}
    (h : Represents g v S) (hwf : g'.WF) (hlive : g'.versions.isLive w = true)
    (hl : g'.layers w = g.layers v) : ∃ S', Represents g' w S' :=
  ⟨_, h.of_view hwf (lt_length_of_isLive hwf hlive) (by rw [view, view, hl])
    (by rw [view, view, hl]) (by rw [view, view, hl])⟩

theorem keepsStore_registerPlaceholder {g : VersionedEGraph} {v : Version} (param : GenericParam)
    (u : Universe) : KeepsStore v g (g.registerPlaceholder param u) := by
  intro S h
  have hwf : (g.registerPlaceholder param u).WF := ⟨h.wf.versions, h.wf.length⟩
  exact ⟨_, h.of_view hwf h.lt rfl rfl rfl⟩

theorem keepsStore_allocVarInDomain {g : VersionedEGraph} {v : Version}
    (hv : g.versions.isLive v = true) (u : Universe) (domain : InferDomain) :
    KeepsStore v g (g.allocVarInDomain v u domain).2 := by
  intro S h
  have hl := Local.allocVarInDomain g v u domain hv
  have hview := Local.view_allocVarInDomain h.wf hv u domain
  exact ⟨_, h.of_view (hl.wf h.wf) (hl.length ▸ h.lt) (by rw [hview]) (by rw [hview])
    (by rw [hview])⟩

section Operations

variable {g g' : VersionedEGraph} {v : Version} {S : Store} {r : Except UnifyError Unit}

theorem keepsStore_unifyInProbe {fuel : Nat} {left right : Ty}
    (hrun : unifyInProbe fuel v left right g = some (r, g')) : KeepsStore v g g' := by
  intro S h
  obtain ⟨hl, hr⟩ := covers_span S left right
  obtain ⟨S', h'⟩ := unifyInProbe_spec fuel left right g S r g' h hl hr hrun
  exact ⟨S', h'.represents⟩

theorem keepsStore_batch {fuel : Nat} {equalities : List (Ty × Ty)}
    (hrun : forEach (fun p : Ty × Ty => unifyInProbe fuel v p.1 p.2) equalities g = some (r, g')) :
    KeepsStore v g g' :=
  forEach_invariant (R := KeepsStore v) (fun _ S h => ⟨S, h⟩) KeepsStore.trans
    (fun _ _ _ _ _ hp => keepsStore_unifyInProbe hp) hrun

/-- Recording no bound, or one the store already implies. -/
theorem Represents.setBoundIn (h : Represents g v S) {x : InferVarIndex} {b : Bound}
    (hb : ∀ t, b.ty = some t → t.subst S.resolve = S.resolve x) :
    Represents (g.setBoundIn v (.inferVar x) b) v S := by
  obtain ⟨wakes, revision, hview⟩ := setBoundIn_view h.wf h.lt (x := x) b
  have hl := Local.setBoundIn g v (.inferVar x) b
  have hversions := setBoundIn_versions (g := g) (v := v) (x := x) b
  generalize g.setBoundIn v (.inferVar x) b = g' at hview hl hversions
  have hparent : g'.getParent v = g.getParent v := by
    funext t
    rw [← view_parent, hview, view_parent]
  have hrestrictions : g'.restrictions v = g.restrictions v :=
    restrictions_congr hversions (by rw [hview]) (by rw [hview])
  refine ⟨hl.wf h.wf, hl.length ▸ h.lt, hparent ▸ h.grounded, hparent ▸ h.resolves,
    hrestrictions ▸ h.domain, hrestrictions ▸ h.ceiling, fun z t ht => ?_, fun c d hd => ?_⟩
  · rw [← view_bound, hview] at ht
    by_cases hz : z = x
    · subst hz
      simp only [Function.update_self] at ht
      exact hb t ht
    · have hne : Ty.inferVar z ≠ .inferVar x := fun e => hz (Ty.inferVar.inj e)
      simp only [Function.update_of_ne hne] at ht
      exact h.bound z t ht
  · rw [hview] at hd
    exact h.dependents c d hd

/-- What `trySetBound` does with an unresolved variable on the probe. -/
theorem local_setBound {fuel : Nat} {x : InferVarIndex} {bound : Bound}
    (hrun : andThen
      (match bound with
        | .none => some (.ok (), g)
        | .atLeast boundTy =>
            match makeAccessible v x (g.currentUniverse v x) fuel boundTy ([], g) with
            | none => none
            | some (r, (_, g)) => some (r, g)
        | .exactly boundTy => unifyInProbe fuel v (.inferVar x) boundTy g)
      (fun _ g => some (.ok (), g.setBoundIn v (.inferVar x) bound)) = some (r, g')) :
    Local v g g' := by
  refine andThen_invariant (R := Local v) Local.trans (fun r g₁ h => ?_) (fun _ g₁ r g₂ _ h => ?_)
    hrun
  · cases bound with
    | none =>
        simp only [Option.some.injEq, Prod.mk.injEq] at h
        exact h.2 ▸ Local.refl v g
    | atLeast t =>
        simp only at h
        split at h
        · cases h
        · rename_i hacc
          simp only [Option.some.injEq, Prod.mk.injEq] at h
          exact h.2 ▸ Local.makeAccessible _ _ _ _ _ hacc
    | exactly t => exact Local.unifyInProbe _ h
  · simp only [Option.some.injEq, Prod.mk.injEq] at h
    exact h.2 ▸ Local.setBoundIn g₁ v _ _

theorem keepsStore_setBound {fuel : Nat} {x : InferVarIndex} {bound : Bound} (hb : bound.IsExact)
    (hrun : andThen
      (match bound with
        | .none => some (.ok (), g)
        | .atLeast boundTy =>
            match makeAccessible v x (g.currentUniverse v x) fuel boundTy ([], g) with
            | none => none
            | some (r, (_, g)) => some (r, g)
        | .exactly boundTy => unifyInProbe fuel v (.inferVar x) boundTy g)
      (fun _ g => some (.ok (), g.setBoundIn v (.inferVar x) bound)) = some (r, g')) :
    KeepsStore v g g' := by
  intro S h
  cases bound with
  | none =>
      simp only [andThen, Option.some.injEq, Prod.mk.injEq] at hrun
      exact ⟨S, hrun.2 ▸ h.setBoundIn fun t ht => by cases ht⟩
  | atLeast t => exact hb.elim
  | exactly t =>
      cases r with
      | error e =>
          rcases andThen_eq_error.mp hrun with hu | ⟨_, _, -, hset⟩
          · exact keepsStore_unifyInProbe hu S h
          · cases hset
      | ok u =>
          obtain ⟨_, g₁, hu, hset⟩ := andThen_eq_ok.mp hrun
          simp only [Option.some.injEq, Prod.mk.injEq, true_and] at hset
          obtain ⟨hl, hr⟩ := covers_span S (.inferVar x) t
          obtain ⟨S', h'⟩ := unifyInProbe_spec fuel _ t g S _ g₁ h hl hr hu
          refine ⟨S', hset ▸ h'.represents.setBoundIn fun u hu => ?_⟩
          obtain rfl := Option.some.inj hu
          have he := h'.equates rfl
          rw [Ty.subst_inferVar] at he
          exact he.symm

/-- The operation of `installErrorRecovery` on the probe. -/
theorem keepsStore_recovery {x : InferVarIndex} {e : ErrorReported}
    (hx : g.find v (.inferVar x) = .inferVar x) :
    KeepsStore v g
      ((g.setBoundIn v (.inferVar x) (.exactly (.error e))).union v (.inferVar x) (.error e)).2 := by
  intro S h
  have hu : S.Unresolved x :=
    Store.unresolved_of_eq (t := .inferVar x) (h.find_eq_inferVar.mp hx)
  have hocc : x ∉ ((Ty.error e).subst S.resolve).vars := fun hm => by
    obtain ⟨c, hc, -⟩ := (Ty.mem_vars_iff (Ty.rigid_subst (t := .error e) trivial _)).mp hm
    exact absurd hc List.not_mem_nil
  exact ⟨_, (h.bind (t := .error e) hu trivial hocc rfl rfl).1⟩

end Operations

/-! ### Transactions on a probe -/

/-- A transaction worked on a probe of `parent`, which was collapsed or discarded. -/
def Probed (keeps : Prop) (g : VersionedEGraph) (parent : Version) (ok : Bool)
    (g' : VersionedEGraph) : Prop :=
  ∃ probe, Local g.versions.nodes.length (g.branchFrom parent).2 probe ∧
    (keeps → KeepsStore g.versions.nodes.length (g.branchFrom parent).2 probe) ∧
    g' = if ok then (probe.collapseInto g.versions.nodes.length parent).2
      else probe.discard g.versions.nodes.length

section Probe

variable [HashOrder] {g g' : VersionedEGraph} {parent : Version} {fuel : Nat} {keeps : Prop}

theorem keepsStore_rebuild {v : Version} {changed : List Ty}
    (h : g.rebuild fuel v = some (changed, g')) : KeepsStore v g g' :=
  fun S hS => ⟨S, hS.rebuild h⟩

theorem probed_tryProbe {α : Type}
    {operation : Version → VersionedEGraph → Outcome UnifyError VersionedEGraph α}
    (hop : ∀ child g r g', operation child g = some (r, g') →
      Local child g g' ∧ (keeps → KeepsStore child g g'))
    {r : Except UnifyError (α × CommitEffects)}
    (hrun : g.tryProbe fuel parent operation = some (r, g')) :
    Probed keeps g parent r.isOk g' := by
  simp only [tryProbe] at hrun
  split at hrun
  · cases hrun
  · rename_i probe hoperation
    obtain ⟨hl, hk⟩ := hop _ _ _ _ hoperation
    split at hrun
    · cases hrun
    · rename_i rebuilt hrebuild
      simp only [Option.some.injEq, Prod.mk.injEq] at hrun
      obtain ⟨rfl, rfl⟩ := hrun
      exact ⟨rebuilt, hl.trans (Local.rebuild _ hrebuild),
        fun h => (hk h).trans (keepsStore_rebuild hrebuild), rfl⟩
  · rename_i probe hoperation
    obtain ⟨hl, hk⟩ := hop _ _ _ _ hoperation
    simp only [Option.some.injEq, Prod.mk.injEq] at hrun
    obtain ⟨rfl, rfl⟩ := hrun
    exact ⟨probe, hl, hk, rfl⟩

end Probe

end VersionedEGraph

end Sage
