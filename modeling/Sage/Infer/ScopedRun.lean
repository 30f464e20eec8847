import Sage.Infer.InvariantRun
import Sage.Infer.Scope

/-!
# Inference — scoped runs

Being in scope goes with what a version records, so it holds of every live version along the runs
in which a placeholder is registered before any variable is resolved to a type that names it.

* `InScope.versionInvariant` — such steps keep a version in scope.
* `ScopedRun.wellScoped` — every live version is in scope.
* `scopedRun_noEscape` — no placeholder escapes, and an equality that would let one escape fails
  without a change.
-/

namespace Sage

open Loop

namespace VersionedEGraph

variable {g g' : VersionedEGraph} {v : Version} {S : Store}

theorem InScope.versionInvariant : VersionInvariant InScope where
  unify := InScope.unifyInvariant
  transfer h hrep hr ht := h.congr hrep hr ht.placeholderUniverse ht.ceiling ht.varCount_le
  recovery := InScope.recovery

/-- Registering a placeholder where it already is, or before anything is resolved to it. -/
theorem InScope.registerPlaceholder {param : GenericParam} {u : Universe} (h : InScope g v S)
    (hn : g.placeholderUniverse param = u ∨
      ∀ x, (S.resolve x).All (fun s => s.placeholder ≠ some param) fun _ => True) :
    ∃ S', InScope (g.registerPlaceholder param u) v S' := by
  have hwf := h.represents.wf
  have hwf' : (g.registerPlaceholder param u).WF := ⟨hwf.versions, hwf.length⟩
  have hrep : Represents (g.registerPlaceholder param u) v _ :=
    h.represents.of_view hwf' h.represents.lt rfl rfl rfl
  refine ⟨_, hrep, fun x => ?_, h.allocated.unresolved, h.allocated.within⟩
  have hU : ∀ p, (g.registerPlaceholder param u).placeholderUniverse p =
      if p = param then u else g.placeholderUniverse p := fun p => by
    simp only [placeholderUniverse, VersionedEGraph.registerPlaceholder]
    split
    · rename_i hp
      rw [hp, AList.lookup_insert, Option.getD_some]
    · rename_i hp
      rw [AList.lookup_insert_ne hp]
  rcases hn with hu | hn
  · refine Ty.All.imp (h.below x) (fun s hs p hp => ?_) fun _ _ => id
    rw [hU]
    split
    · rename_i he
      subst he
      exact hu ▸ hs p hp
    · exact hs p hp
  · have hname : (S.resolve x).All (fun s => s.placeholder ≠ some param) fun y =>
        g.currentUniverse v y ≤ g.currentUniverse v x :=
      (hn x).imp (fun _ => id) fun y hy _ => (h.below x).of_mem y hy
    refine Ty.All.imp (Terms.Term.All.and (h.below x) hname) (fun s hs p hp => ?_) fun _ _ => id
    rw [hU p, if_neg fun e : p = param => hs.2 (e ▸ hp)]
    exact hs.1 p hp

/-- A valid egraph, every live version of which is in scope. -/
structure WellScoped (g : VersionedEGraph) : Prop where
  valid : g.Valid
  inScope : ∀ v, g.versions.isLive v = true → ∃ S, InScope g v S

namespace WellScoped

theorem new : WellScoped .new where
  valid := .new
  inScope v hv := by
    obtain ⟨S, hS⟩ := Modelled.new.store v hv
    obtain rfl := new_eq_zero hv
    have hu : ∀ x, S.Unresolved x := fun x => hS.unresolved_of_root (new_getParent _)
    refine ⟨S, hS, fun x => ?_, fun x _ => hu x, fun x hx => absurd hx (Nat.not_lt_zero x)⟩
    rw [show S.resolve x = .inferVar x from hu x]
    exact Ty.all_inferVar.mpr (Nat.le_refl _)

/-- A placeholder no variable is resolved to yet may be registered anywhere. -/
theorem registerPlaceholder (h : g.WellScoped) {param : GenericParam} {u : Universe}
    (hn : g.placeholderUniverse param = u ∨ g.Unnamed param) :
    (g.registerPlaceholder param u).WellScoped where
  valid := h.valid.registerPlaceholder param u
  inScope w hw := by
    obtain ⟨S, hS⟩ := h.inScope w hw
    exact hS.registerPlaceholder (hn.imp_right fun hn => hn w hw _ hS.represents.resolution)

end WellScoped

section Runs

variable [HashOrder]

/-- One step over types in scope keeps every version in scope. -/
theorem WellScoped.step {event : Event} (h : g.WellScoped) (hs : ScopedStep g event g') :
    g'.WellScoped where
  valid := h.valid.step hs.step
  inScope := by
    refine InScope.versionInvariant.step h.valid h.inScope hs fun {param u} he hg => ?_
    subst he hg
    cases hs with
    | registerPlaceholder param u' _ hn => exact (h.registerPlaceholder hn).inScope

theorem ScopedRun.wellScoped (h : ScopedRun g) : g.WellScoped := by
  induction h with
  | new => exact .new
  | step _ hs ih => exact ih.step hs

/-! ### No placeholder escapes -/

/-- The assignment gives every variable placeholders and variables of the universe `v` has it in
and below; `Γ` says where the variables it uses are. -/
def Confines (g : VersionedEGraph) (v : Version) (Γ : InferVarIndex → Universe)
    (θ : InferVarIndex → Ty) : Prop :=
  ∀ x, (θ x).All (Skeleton.Below g.placeholderUniverse (g.currentUniverse v x)) fun y =>
    Γ y ≤ g.currentUniverse v x

/-- The assignment extends what `v` has recorded and makes the two types equal. -/
def Equates (g : VersionedEGraph) (v : Version) (a b : Ty) (θ : InferVarIndex → Ty) : Prop :=
  (∀ t, (g.getParent v t).subst θ = t.subst θ) ∧ a.subst θ = b.subst θ

/-- The resolution a successful unification leaves would be an assignment in scope. -/
theorem WellScoped.tryUnify_error (h : g.WellScoped) (hv : g.IsMutable v) {a b : Ty}
    (ha : g.Allocates a) (hb : g.Allocates b)
    (hbreak : ∀ Γ θ, g.Equates v a b θ → ¬ g.Confines v Γ θ) :
    ∃ e N, ∀ n ≥ N, ∃ g', g.tryUnify n v a b = some (.error e, g') := by
  obtain ⟨S, hS⟩ := InScope.versionInvariant.probe h.valid h.inScope hv.1
  have hview := view_branchFrom h.valid.wf hv.1
  have hparent : (g.branchFrom v).2.getParent g.versions.nodes.length = g.getParent v := by
    funext t
    rw [← view_parent, hview, view_parent]
  have hceiling : (g.branchFrom v).2.currentUniverse g.versions.nodes.length =
      g.currentUniverse v :=
    currentUniverse_of_restrictions
      (congrArg Restrictions.ceiling (branchFrom_restrictions h.valid.wf hv.1))
  have hca : Covers (vars (g.branchFrom v).2) S a := Allocates.covers ha hS.allocated
  have hcb : Covers (vars (g.branchFrom v).2) S b := Allocates.covers hb hS.allocated
  refine tryUnify_fails hS.represents fun n probe hrun => ?_
  obtain ⟨⟨S₁, h₁⟩, hle⟩ := hS.unifyInProbe n a b hca hcb hrun
  obtain ⟨S', h'⟩ := unifyInProbe_spec n a b _ S _ probe hS.represents hca hcb hrun
  have hscope := h₁.of_represents h'.represents
  refine hbreak (probe.currentUniverse g.versions.nodes.length) S'.resolve
    ⟨fun t => ?_, h'.equates rfl⟩ fun x => ?_
  · rw [← hparent]
    exact h'.narrows.equates _ _ (hS.represents.subst_getParent t)
  · have hlow : probe.currentUniverse g.versions.nodes.length x ≤ g.currentUniverse v x :=
      Nat.le_trans (hle x) (Nat.le_of_eq (congrFun hceiling x))
    have hbelow := hscope.below x
    rw [(Local.unifyInProbe n hrun).placeholderUniverse_eq] at hbelow
    exact Store.all_below_mono hlow (fun _ hy => Nat.le_trans hy hlow) hbelow

/-- In every state of a scoped run and every live version, every variable is resolved to
placeholders and unresolved variables of its own universe or below; a failed transaction
changes no observation; and an equality that holds under assignments out of scope only fails, and
changes none. -/
theorem scopedRun_noEscape (hg : ScopedRun g) :
    (∀ v, g.versions.isLive v = true →
      ∃ ρ, g.Resolution v ρ ∧ g.Confines v (g.currentUniverse v) ρ) ∧
    (∀ parent g', ScopedStep g (.ended parent false) g' → ∀ w, g.versions.isLive w = true →
      g'.versions.isLive w = true ∧ g'.observe w = g.observe w) ∧
    ∀ v a b, g.IsMutable v → g.Allocates a → g.Allocates b →
      (∀ Γ θ, g.Equates v a b θ → ¬ g.Confines v Γ θ) →
      ∃ N, ∀ n ≥ N, ∃ e g', g.tryUnify n v a b = some (.error e, g') ∧
        ∀ w, g.versions.isLive w = true → g'.versions.isLive w = true ∧ g'.observe w = g.observe w := by
  have h := hg.wellScoped
  have hfail : ∀ parent g', ScopedStep g (.ended parent false) g' → ∀ w,
      g.versions.isLive w = true → g'.versions.isLive w = true ∧ g'.observe w = g.observe w :=
    fun parent g' hs => (step_isolated hg.reachable hs.step).1 parent rfl
  refine ⟨fun v hv => ?_, hfail, fun v a b hv ha hb hbreak => ?_⟩
  · obtain ⟨S, hS⟩ := h.inScope v hv
    exact ⟨S.resolve, hS.represents.resolution, hS.below⟩
  obtain ⟨e, N, hrun⟩ := h.tryUnify_error hv ha hb hbreak
  refine ⟨N, fun n hn => ?_⟩
  obtain ⟨g', hn⟩ := hrun n hn
  refine ⟨e, g', hn, hfail v g' (.transaction hv.1 (fun hok => by cases hok) ?_)⟩
  have ht : ScopedTransaction g v (Except.isOk (.error e)) g' :=
    .tryUnifyBatch (fun p hp => (List.mem_singleton.mp hp).symm ▸ ⟨ha, hb⟩) hn
  exact ht

end Runs

/-- While no version has resolved anything, as when a query is instantiated, no placeholder is
named. -/
theorem unnamed_of_unresolved (h : ∀ w, g.versions.isLive w = true → ∀ x,
    g.find w (.inferVar x) = .inferVar x) (param : GenericParam) : g.Unnamed param := by
  intro w hw ρ hρ x
  obtain ⟨M, hM⟩ := hρ x
  have hx := hM (M + 1) (Nat.le_succ M)
  rw [VersionedEGraph.deepResolve, h w hw x, Option.some.injEq] at hx
  exact hx ▸ Ty.all_inferVar.mpr trivial

/-- A placeholder of the universe 1, next to a variable of the root universe. -/
def outer : VersionedEGraph :=
  ((VersionedEGraph.new.registerPlaceholder (.alphaEquiv ⟨.type, 0⟩) 1).allocVarInDomain 0 0 .any).2

theorem scopedRun_outer : ScopedRun outer := by
  refine .step (.step .new (.registerPlaceholder (.alphaEquiv ⟨.type, 0⟩) 1 ?_ (.inr ?_)))
    (.alloc ⟨by decide, by decide⟩ 0 .any)
  · intro previous h
    cases h
  · refine unnamed_of_unresolved (fun w hw x => ?_) _
    have hw0 : w = 0 := by
      rcases w with _ | w
      · rfl
      · simp [VersionTree.isLive, VersionedEGraph.new, VersionTree.new] at hw
    subst hw0
    rfl

/-- The variable and the placeholder cannot be equated. -/
theorem scopedRun_noEscape_outer :
    (∀ v, outer.versions.isLive v = true →
      ∃ ρ, outer.Resolution v ρ ∧ outer.Confines v (outer.currentUniverse v) ρ) ∧
    ∃ N, ∀ n ≥ N, ∃ e g',
      outer.tryUnify n 0 (.inferVar 0) (.param (.alphaEquiv ⟨.type, 0⟩)) = some (.error e, g') ∧
      ∀ w, outer.versions.isLive w = true →
        g'.versions.isLive w = true ∧ g'.observe w = outer.observe w := by
  obtain ⟨hscope, -, hfail⟩ := scopedRun_noEscape scopedRun_outer
  refine ⟨hscope, hfail 0 _ _ ⟨by decide, by decide⟩ ?_ ?_ ?_⟩
  · intro y hy
    rw [Ty.mem_vars_inferVar] at hy
    exact hy ▸ Nat.zero_lt_one
  · intro y hy
    have hnil : (Ty.param (.alphaEquiv ⟨.type, 0⟩)).vars = [] := rfl
    rw [hnil] at hy
    exact absurd hy List.not_mem_nil
  · rintro Γ θ ⟨-, heq⟩ hconf
    rw [Ty.subst_inferVar] at heq
    have h0 := hconf 0
    rw [heq] at h0
    have hbelow := ((Ty.all_iff (Ty.rigid_subst (t := .param _) trivial θ)).mp h0).1 _ rfl
    exact absurd hbelow (by decide)

end VersionedEGraph

end Sage
