import Sage.Solve.Import

/-!
# Inference — reachable states

The steps callers take: they allocate variables in leaf versions and unify in them, register
placeholders, branch, collapse and discard, and run transactions.  A step is taken only where the source's assertions
let it through.  `bounds` says which bounds callers record; no caller in the source records a
lower bound.

* `Transaction.probed` — a transaction works on a probe, which it collapses or discards.
* `Reachable.modelled` — when no lower bound is recorded, every reachable state is well formed,
  and each of its live versions represents a store.
-/

namespace Sage

open Loop

/-- What a step did; a transaction against `parent` ended with success or failure. -/
inductive Event where
  | mutated (version : Version)
  | registered (param : GenericParam)
  | branched (parent : Version)
  | collapsed (child parent : Version)
  | discarded (version : Version)
  | ended (parent : Version) (ok : Bool)

namespace VersionedEGraph

/-- A version that may be written to. -/
def IsMutable (g : VersionedEGraph) (version : Version) : Prop :=
  g.versions.isLive version = true ∧ g.versions.children version = []

section Steps

variable [HashOrder]

/-- A transaction against `parent`, and whether it succeeded. -/
inductive Transaction (bounds : Bound → Prop) (g : VersionedEGraph) (parent : Version) :
    Bool → VersionedEGraph → Prop
  | tryUnifyBatch {fuel : Nat} {equalities : List (Ty × Ty)}
      {r : Except UnifyError (Unit × CommitEffects)} {g' : VersionedEGraph}
      (hrun : g.tryUnifyBatch fuel parent equalities = some (r, g')) :
      Transaction bounds g parent r.isOk g'
  | tryUnifyRequired {fuel : Nat} {left right : Ty}
      {r : Except RequiredUnifyFailure CommitEffects} {g' : VersionedEGraph}
      (hrun : g.tryUnifyRequired fuel parent left right = some (r, g')) :
      Transaction bounds g parent r.isOk g'
  | trySetBound {fuel : Nat} {variableTy : Ty} {bound : Bound}
      {r : Except UnifyError (Unit × CommitEffects)} {g' : VersionedEGraph} (hb : bounds bound)
      (hrun : g.trySetBound fuel parent variableTy bound = some (r, g')) :
      Transaction bounds g parent r.isOk g'
  | installErrorRecovery {fuel : Nat} {variableTy errorTy : Ty}
      {r : Except UnifyError (Unit × CommitEffects)} {g' : VersionedEGraph}
      (hrun : g.installErrorRecovery fuel parent variableTy errorTy = some (r, g')) :
      Transaction bounds g parent r.isOk g'
  | applyQueryResponse {fuel : Nat} {query : GoalQueryData} {mapping : CanonicalMapping}
      {response : QueryResult} {r : Except ApplyResponseError AppliedResponse}
      {g' : VersionedEGraph} (hm : g.Registered query mapping)
      (hrun : g.applyQueryResponse fuel parent query mapping response = some (r, g')) :
      Transaction bounds g parent r.isOk g'

inductive Step (bounds : Bound → Prop) (g : VersionedEGraph) : Event → VersionedEGraph → Prop
  | alloc {v : Version} (hv : g.IsMutable v) (u : Universe) (domain : InferDomain) :
      Step bounds g (.mutated v) (g.allocVarInDomain v u domain).2
  | findMut {v : Version} (hv : g.IsMutable v) (ty : Ty) :
      Step bounds g (.mutated v) (g.findMut v ty).2
  | unifyInProbe {v : Version} (hv : g.IsMutable v) {fuel : Nat} {left right : Ty}
      {r : Except UnifyError Unit} {g' : VersionedEGraph}
      (hrun : VersionedEGraph.unifyInProbe fuel v left right g = some (r, g')) :
      Step bounds g (.mutated v) g'
  | rebuild {v : Version} (hv : g.IsMutable v) {fuel : Nat} {changed : List Ty}
      {g' : VersionedEGraph} (hrun : g.rebuild fuel v = some (changed, g')) :
      Step bounds g (.mutated v) g'
  | registerPlaceholder (param : GenericParam) (u : Universe)
      (h : ∀ previous, g.placeholderUniverses.lookup param = some previous → previous = u) :
      Step bounds g (.registered param) (g.registerPlaceholder param u)
  | branchFrom {parent : Version} (h : g.versions.isLive parent = true) :
      Step bounds g (.branched parent) (g.branchFrom parent).2
  | collapseInto {child parent : Version} (h : g.CanCollapse child parent) :
      Step bounds g (.collapsed child parent) (g.collapseInto child parent).2
  | discard {v parent : Version} (h : g.versions.isLive v = true)
      (hp : g.versions.parent v = some parent) : Step bounds g (.discarded v) (g.discard v)
  | transaction {parent : Version} {ok : Bool} {g' : VersionedEGraph}
      (h : g.versions.isLive parent = true) (hleaf : ok = true → g.versions.children parent = [])
      (ht : Transaction bounds g parent ok g') : Step bounds g (.ended parent ok) g'

/-- The states any sequence of steps leads to. -/
inductive Reachable (bounds : Bound → Prop) : VersionedEGraph → Prop
  | new : Reachable bounds .new
  | step {g g' : VersionedEGraph} {event : Event} (h : Reachable bounds g)
      (hs : Step bounds g event g') : Reachable bounds g'

end Steps

/-! ### Transactions on a probe -/

section Probe

variable [HashOrder] {g g' : VersionedEGraph} {parent : Version}

theorem Transaction.probed {bounds : Bound → Prop} {ok : Bool}
    (hlive : g.versions.isLive parent = true) (h : Transaction bounds g parent ok g') :
    g' = g ∨ Probed (∀ b, bounds b → b.IsExact) g parent ok g' := by
  cases h with
  | applyQueryResponse hm hrun => exact probed_applyQueryResponse hlive hm hrun
  | tryUnifyBatch hrun =>
      refine .inr (probed_tryProbe (fun child g r g' hop => ⟨?_, fun _ => keepsStore_batch hop⟩) hrun)
      exact forEach_invariant (Local.refl child) Local.trans
        (fun _ _ _ _ _ hp => Local.unifyInProbe _ hp) hop
  | tryUnifyRequired hrun =>
      simp only [VersionedEGraph.tryUnifyRequired] at hrun
      split at hrun
      · cases hrun
      · rename_i probe hunify
        split at hrun
        · cases hrun
        · rename_i rebuilt hrebuild
          simp only [Option.some.injEq, Prod.mk.injEq] at hrun
          obtain ⟨rfl, rfl⟩ := hrun
          exact .inr ⟨rebuilt, (Local.unifyInProbe _ hunify).trans (Local.rebuild _ hrebuild),
            fun _ => (keepsStore_unifyInProbe hunify).trans (keepsStore_rebuild hrebuild), rfl⟩
      · rename_i probe hunify
        simp only [Option.some.injEq, Prod.mk.injEq] at hrun
        obtain ⟨rfl, rfl⟩ := hrun
        exact .inr ⟨probe, Local.unifyInProbe _ hunify, fun _ => keepsStore_unifyInProbe hunify, rfl⟩
  | trySetBound hb hrun =>
      refine .inr (probed_tryProbe (fun child g r g' hop => ?_) hrun)
      simp only at hop
      split at hop
      · rename_i x hx
        rw [hx] at hop
        exact ⟨local_setBound hop, fun hexact => keepsStore_setBound (hexact _ hb) hop⟩
      · simp only [Option.some.injEq, Prod.mk.injEq] at hop
        exact ⟨hop.2 ▸ Local.refl _ _, fun _ S h => ⟨S, hop.2 ▸ h⟩⟩
  | installErrorRecovery hrun =>
      refine .inr (probed_tryProbe (fun child g r g' hop => ?_) hrun)
      simp only at hop
      split at hop
      · rename_i x e hx he
        simp only [Option.some.injEq, Prod.mk.injEq] at hop
        obtain ⟨-, rfl⟩ := hop
        rw [hx, he]
        refine ⟨(Local.setBoundIn g child _ _).trans (Local.union _ child _ _), fun _ S h => ?_⟩
        exact keepsStore_recovery (hx ▸ find_find h.grounded _) S h
      · simp only [Option.some.injEq, Prod.mk.injEq] at hop
        exact ⟨hop.2 ▸ Local.refl _ _, fun _ S h => ⟨S, hop.2 ▸ h⟩⟩

end Probe

/-! ### Every reachable state -/

/-- A new egraph has one version. -/
theorem new_eq_zero {v : Version} (hv : VersionedEGraph.new.versions.isLive v = true) : v = 0 := by
  rcases v with _ | v
  · rfl
  · simp [VersionTree.isLive, VersionedEGraph.new, VersionTree.new] at hv

theorem new_getParent (t : Ty) : VersionedEGraph.new.getParent 0 t = t := by
  rw [getParent, show VersionedEGraph.new.layers 0 = [default] from rfl]
  rfl

/-- A valid egraph, every live version of which represents a store. -/
structure Modelled (g : VersionedEGraph) : Prop where
  valid : g.Valid
  store : ∀ v, g.versions.isLive v = true → ∃ S, Represents g v S

namespace Modelled

variable {g g' : VersionedEGraph} {v parent child : Nat}

theorem new : Modelled .new where
  valid := .new
  store v hv := by
    obtain rfl := new_eq_zero hv
    have hlayers : VersionedEGraph.new.layers 0 = [default] := rfl
    refine ⟨⟨.inferVar, VersionedEGraph.new.restrictions 0, fun x => Ty.subst_inferVar _ x⟩, ?_⟩
    refine ⟨Valid.new.wf, by decide, Valid.new.grounded 0 hv, ⟨fun ty => by rw [new_getParent], ?_⟩,
      fun _ _ => rfl, fun _ _ => rfl, fun x b hb => ?_, fun c d hd => ?_⟩
    · intro _ x _ _
      exact Ty.term_inferVar x
    · rw [getBound, hlayers] at hb
      cases hb
    · rw [view, hlayers] at hd
      obtain ⟨s, hs, hd⟩ := hd
      rw [List.mem_singleton.mp hs] at hd
      cases hd

theorem of_local (h : g.Modelled) (hleaf : g.versions.children v = []) (hl : Local v g g')
    (hk : KeepsStore v g g') : g'.Modelled where
  valid := h.valid.of_local hleaf hl
  store w hw := by
    have hw' := (hl.isLive w).symm.trans hw
    obtain ⟨S, hS⟩ := h.store w hw'
    by_cases hwv : w = v
    · subst hwv
      exact hk S hS
    · exact hS.of_layers (hl.wf h.valid.wf) hw
        (hl.layers_of_leaf h.valid.wf.versions hleaf hw' hwv)

theorem branchFrom (h : g.Modelled) (hlive : g.versions.isLive parent = true) :
    (g.branchFrom parent).2.Modelled where
  valid := h.valid.branchFrom hlive
  store w hw := by
    have hp := VersionTree.lt_length_of_isLive hlive
    have hwf := h.valid.wf.branchFrom hlive
    have hw' := (VersionTree.branchFrom_isLive hp w).symm.trans hw
    by_cases hwn : w = g.versions.nodes.length
    · subst hwn
      obtain ⟨S, hS⟩ := h.store parent hlive
      have hview := view_branchFrom h.valid.wf hlive
      exact ⟨_, hS.of_view hwf (lt_length_of_isLive hwf hw) (by rw [hview]) (by rw [hview])
        (by rw [hview])⟩
    · have hwl : g.versions.isLive w = true := by simpa [hwn] using hw'
      obtain ⟨S, hS⟩ := h.store w hwl
      exact hS.of_layers hwf hw
        (branchFrom_layers h.valid.wf hlive (VersionTree.lt_length_of_isLive hwl))

theorem collapsed (h : g.Modelled) (hc : g.CanCollapse child parent) :
    (g.collapseInto child parent).2.Modelled where
  valid := h.valid.collapsed hc (VersionedEGraph.collapsed h.valid.wf hc)
  store w hw := by
    have hcol := VersionedEGraph.collapsed h.valid.wf hc
    by_cases hwp : w = parent
    · subst hwp
      obtain ⟨S, hS⟩ := h.store child hc.1
      have hview := hcol.view_parent h.valid.wf hc.2.2.1
      exact ⟨_, hS.of_view hcol.wf (lt_length_of_isLive hcol.wf hw) (by rw [hview])
        (by rw [hview]) (by rw [hview])⟩
    · obtain ⟨S, hS⟩ := h.store w ((hcol.isLive w).mp hw).1
      exact hS.of_layers hcol.wf hw (hcol.layers w hw hwp)

theorem discarded (h : g.Modelled) (hlive : g.versions.isLive v = true)
    (hp : g.versions.parent v = some parent) : (g.discard v).Modelled where
  valid := h.valid.discarded (VersionedEGraph.discarded h.valid.wf hlive hp)
  store w hw := by
    have hd := VersionedEGraph.discarded h.valid.wf hlive hp
    obtain ⟨S, hS⟩ := h.store w ((hd.isLive w).mp hw).1
    exact hS.of_layers hd.wf hw (hd.layers w hw)

/-- A transaction keeps the model, whether its probe is collapsed or discarded. -/
theorem probed (h : g.Modelled) (hlive : g.versions.isLive parent = true) {ok : Bool}
    {keeps : Prop} (hleaf : ok = true → g.versions.children parent = []) (hk : keeps)
    (hp : Probed keeps g parent ok g') : g'.Modelled := by
  obtain ⟨probe, hl, hkeeps, rfl⟩ := hp
  have hprobe := (h.branchFrom hlive).of_local (probe_leaf hlive) hl (hkeeps hk)
  cases ok with
  | true => exact hprobe.collapsed (probe_canCollapse hlive (hleaf rfl) hl)
  | false => exact hprobe.discarded (probe_isLive hlive hl) (probe_parent hlive hl)

theorem registerPlaceholder (h : g.Modelled) (param : GenericParam) (u : Universe) :
    (g.registerPlaceholder param u).Modelled where
  valid := ⟨⟨h.valid.wf.versions, h.valid.wf.length⟩, h.valid.grounded⟩
  store w hw := by
    obtain ⟨S, hS⟩ := h.store w hw
    exact keepsStore_registerPlaceholder param u S hS

theorem allocVarInDomain (h : g.Modelled) (hv : g.IsMutable v) (u : Universe)
    (domain : InferDomain) : (g.allocVarInDomain v u domain).2.Modelled :=
  h.of_local hv.2 (Local.allocVarInDomain g v u domain hv.1)
    (keepsStore_allocVarInDomain hv.1 u domain)

end Modelled

variable [HashOrder] {bounds : Bound → Prop} {g g' : VersionedEGraph} {event : Event}

/-- One step keeps the model. -/
theorem Modelled.step (hb : ∀ b, bounds b → b.IsExact) (h : g.Modelled)
    (hs : Step bounds g event g') : g'.Modelled := by
  cases hs with
  | alloc hv u domain => exact h.allocVarInDomain hv u domain
  | findMut hv ty =>
      exact h.of_local hv.2 (Local.findMut g _ ty) fun S hS => ⟨S, hS.findMut ty⟩
  | unifyInProbe hv hrun =>
      exact h.of_local hv.2 (Local.unifyInProbe _ hrun) (keepsStore_unifyInProbe hrun)
  | rebuild hv hrun => exact h.of_local hv.2 (Local.rebuild _ hrun) (keepsStore_rebuild hrun)
  | registerPlaceholder param u _ => exact h.registerPlaceholder param u
  | branchFrom hlive => exact h.branchFrom hlive
  | collapseInto hc => exact h.collapsed hc
  | discard hlive hp => exact h.discarded hlive hp
  | transaction hlive hleaf ht =>
      rcases ht.probed hlive with rfl | hp
      · exact h
      · exact h.probed hlive hleaf hb hp

/-- Every live version of a reachable state represents a store. -/
theorem Reachable.modelled (hb : ∀ b, bounds b → b.IsExact) (h : Reachable bounds g) :
    g.Modelled := by
  induction h with
  | new => exact .new
  | step _ hs ih => exact ih.step hb hs

end VersionedEGraph

end Sage
