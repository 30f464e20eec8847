import Sage.Infer.Reachable
import Sage.Infer.Transaction

/-!
# Inference — transactions are isolated and atomic

Versions form a tree of overlays over shared tables.  Over every interleaving of steps, on
whatever versions are live:

* `Valid.step`, `Reachable.valid` — the layers stay well formed, whatever bounds are recorded.
* `Probed.aborted`, `Probed.committed` — the two ends of a transaction, as others observe them.
* `step_isolated` — a failed transaction changes no observation, a collapse gives the parent the
  child's, and no other version sees anything.
-/

namespace Sage

open Loop

/-- The version an event may change: the one mutated, or collapsed into. -/
def Event.target : Event → Option Version
  | .mutated version => some version
  | .registered _ | .branched _ | .discarded _ => none
  | .collapsed _ parent => some parent
  | .ended parent _ => some parent

namespace VersionedEGraph

variable {g g' : VersionedEGraph} {v parent child : Nat} {keeps : Prop}

theorem Probed.aborted (h : Probed keeps g parent false g') (hg : g.Valid)
    (hlive : g.versions.isLive parent = true) : Aborted g g' := by
  obtain ⟨probe, hl, -, rfl⟩ := h
  exact aborted_of_local hg hlive hl

theorem Probed.committed (h : Probed keeps g parent true g') (hg : g.Valid)
    (hlive : g.versions.isLive parent = true) (hleaf : g.versions.children parent = []) :
    Committed g parent g' := by
  obtain ⟨probe, hl, -, rfl⟩ := h
  exact committed_of_local hg hlive hleaf hl

theorem Aborted.refl (hg : g.Valid) : Aborted g g := ⟨hg, fun _ => rfl, fun _ _ => rfl⟩

/-- A transaction that has nothing to write is as good as one that wrote nothing. -/
theorem Committed.refl (hg : g.Valid) (hlive : g.versions.isLive parent = true) :
    Committed g parent g :=
  ⟨hg, fun _ => rfl, fun _ _ _ => rfl, _, _, rfl, Local.refl _ _,
    (observe_branchFrom_child hg.wf hlive).symm⟩

theorem Valid.registerPlaceholder (hg : g.Valid) (param : GenericParam) (u : Universe) :
    (g.registerPlaceholder param u).Valid :=
  ⟨⟨hg.wf.versions, hg.wf.length⟩, hg.grounded⟩

/-- A mutation of a leaf is seen by that leaf alone. -/
theorem observe_of_local (hg : g.Valid) (hv : g.IsMutable v) (hl : Local v g g') {w : Nat}
    (hw : g.versions.isLive w = true) (hne : w ≠ v) : g'.observe w = g.observe w :=
  observe_confined hl.toConfined hg.wf hv.2 hw hne

section Steps

variable [HashOrder] {bounds : Bound → Prop} {event : Event}

/-- A transaction, as the other versions observe it. -/
theorem Transaction.atomic (hg : g.Valid) (hlive : g.versions.isLive parent = true) {ok : Bool}
    (hleaf : ok = true → g.versions.children parent = [])
    (h : Transaction bounds g parent ok g') :
    if ok then Committed g parent g' else Aborted g g' := by
  rcases h.probed hlive with rfl | hp
  · cases ok with
    | true => exact Committed.refl hg hlive
    | false => exact Aborted.refl hg
  · cases ok with
    | true => exact hp.committed hg hlive (hleaf rfl)
    | false => exact hp.aborted hg hlive

theorem Valid.step (hg : g.Valid) (hs : Step bounds g event g') : g'.Valid := by
  cases hs with
  | alloc hv u domain => exact hg.of_local hv.2 (Local.allocVarInDomain g _ u domain hv.1)
  | findMut hv ty => exact hg.of_local hv.2 (Local.findMut g _ ty)
  | unifyInProbe hv hrun => exact hg.of_local hv.2 (Local.unifyInProbe _ hrun)
  | rebuild hv hrun => exact hg.of_local hv.2 (Local.rebuild _ hrun)
  | registerPlaceholder param u _ => exact hg.registerPlaceholder param u
  | branchFrom hlive => exact hg.branchFrom hlive
  | collapseInto hc => exact hg.collapsed hc (VersionedEGraph.collapsed hg.wf hc)
  | discard hlive hp => exact hg.discarded (VersionedEGraph.discarded hg.wf hlive hp)
  | @transaction _ ok _ hlive hleaf ht =>
      have h := ht.atomic hg hlive hleaf
      cases ok with
      | true => exact h.valid
      | false => exact h.valid

theorem Reachable.valid (h : Reachable bounds g) : g.Valid := by
  induction h with
  | new => exact .new
  | step _ hs ih => exact ih.step hs

/-- Whatever the step, only its target observes anything new. -/
theorem Step.observe_of_ne (hg : g.Valid) (hs : Step bounds g event g') {w : Nat}
    (hw : g.versions.isLive w = true) (hw' : g'.versions.isLive w = true)
    (hne : some w ≠ event.target) : g'.observe w = g.observe w := by
  have hne' : ∀ v, event.target = some v → w ≠ v := fun v hv e => hne (by rw [e, hv])
  cases hs with
  | alloc hv u domain =>
      exact observe_of_local hg hv (Local.allocVarInDomain g _ u domain hv.1) hw (hne' _ rfl)
  | findMut hv ty => exact observe_of_local hg hv (Local.findMut g _ ty) hw (hne' _ rfl)
  | unifyInProbe hv hrun =>
      exact observe_of_local hg hv (Local.unifyInProbe _ hrun) hw (hne' _ rfl)
  | rebuild hv hrun => exact observe_of_local hg hv (Local.rebuild _ hrun) hw (hne' _ rfl)
  | registerPlaceholder param u _ => rfl
  | branchFrom hlive => exact observe_branchFrom hg.wf hlive hw
  | collapseInto hc =>
      exact observe_collapse_of_ne hg.wf hc (VersionedEGraph.collapsed hg.wf hc) hw' (hne' _ rfl)
  | discard hlive hp =>
      exact observe_discard hg.wf (VersionedEGraph.discarded hg.wf hlive hp) hw'
  | @transaction _ ok _ hlive hleaf ht =>
      have h := ht.atomic hg hlive hleaf
      cases ok with
      | true => exact h.observe w hw (hne' _ rfl)
      | false => exact h.observe w hw

/-- In every reachable state, over any interleaving: a failed transaction keeps every version
and everything each of them observes; a fork observes what its parent does, and a collapse makes
the parent observe what the child observed, as a transaction that succeeds does with its probe;
and no version but the one written to or collapsed into changes what it observes. -/
theorem step_isolated (hg : Reachable bounds g) (hs : Step bounds g event g') :
    (∀ parent, event = .ended parent false → ∀ w, g.versions.isLive w = true →
      g'.versions.isLive w = true ∧ g'.observe w = g.observe w) ∧
    (∀ parent, event = .branched parent →
      g'.observe g.versions.nodes.length = g.observe parent) ∧
    (∀ child parent, event = .collapsed child parent → g'.observe parent = g.observe child) ∧
    (∀ parent, event = .ended parent true → ∃ probe,
      Local g.versions.nodes.length (g.branchFrom parent).2 probe ∧
        g'.observe parent = probe.observe g.versions.nodes.length) ∧
    ∀ w, g.versions.isLive w = true → g'.versions.isLive w = true → some w ≠ event.target →
      g'.observe w = g.observe w := by
  have hvalid := hg.valid
  refine ⟨?_, ?_, ?_, ?_, fun w hw hw' => hs.observe_of_ne hvalid hw hw'⟩
  · rintro parent rfl w hw
    cases hs with
    | transaction hlive hleaf ht =>
        have h := ht.atomic hvalid hlive hleaf
        exact ⟨(h.isLive w).trans hw, h.observe w hw⟩
  · rintro parent rfl
    cases hs with
    | branchFrom hlive => exact observe_branchFrom_child hvalid.wf hlive
  · rintro child parent rfl
    cases hs with
    | collapseInto hc =>
        exact observe_collapse hvalid hc (VersionedEGraph.collapsed hvalid.wf hc)
  · rintro parent rfl
    cases hs with
    | transaction hlive hleaf ht =>
        obtain ⟨_, probe, rfl, hl, ho⟩ := (ht.atomic hvalid hlive hleaf).probe
        exact ⟨probe, hl, ho⟩

end Steps

/-- `bool` against `char` fails in the root version of an empty state. -/
theorem step_isolated_mismatch : ∃ g', Step (fun _ => True) .new (.ended 0 false) g' ∧
    ∀ w, VersionedEGraph.new.versions.isLive w = true →
      g'.versions.isLive w = true ∧ g'.observe w = VersionedEGraph.new.observe w := by
  have hrun : (VersionedEGraph.new.tryUnifyBatch 2 0 [(.bool, .char)]).map (·.1.isOk) =
      some false := by decide
  obtain ⟨⟨r, g'⟩, heq, hr⟩ := Option.map_eq_some_iff.mp hrun
  have hs : Step (fun _ => True) .new (.ended 0 false) g' := by
    have ht : Transaction (fun _ => True) .new 0 r.isOk g' := .tryUnifyBatch heq
    rw [show r.isOk = false from hr] at ht
    exact .transaction (by decide) (fun h => by cases h) ht
  exact ⟨g', hs, (step_isolated .new hs).1 0 rfl⟩

end VersionedEGraph

end Sage
