import Sage.Infer.Invariant
import Sage.Infer.Isolation

/-!
# Inference — no placeholder escapes its universe

A variable may be resolved to types over the placeholders of its current universe and below, and
to variables whose current universe is as low.  A bind checks the placeholders and lowers the
variables; a link lowers both variables to one ceiling.  The variables nested in an outer one
only ever go down, so what is bound to them later is low enough for the outer one as well.

* `Store.Scoped` — the invariant, on the resolution and the ceilings.
* `InScope.unifyInvariant` — binding and linking keep it and lower ceilings only.
* `InScope.unifyInProbe` — so unification does, whether it succeeds or not.
-/

namespace Sage

open Loop

/-! ### The invariant -/

namespace Store

variable {S : Store} {U : GenericParam → Universe} {c c' : InferVarIndex → Universe}
  {x : InferVarIndex} {t : Ty}

/-- A variable is resolved to placeholders and variables of its own universe or below. -/
def Scoped (S : Store) (U : GenericParam → Universe) (ceiling : InferVarIndex → Universe) : Prop :=
  ∀ x, (S.resolve x).All (Skeleton.Below U (ceiling x)) fun y => ceiling y ≤ ceiling x

theorem all_below_mono {u u' : Universe} (hu : u ≤ u') (hc : ∀ y, c y ≤ u → c' y ≤ u')
    (h : t.All (Skeleton.Below U u) fun y => c y ≤ u) :
    t.All (Skeleton.Below U u') fun y => c' y ≤ u' :=
  Ty.All.imp h (fun _ hs param hp => Nat.le_trans (hs param hp) hu) fun y _ => hc y

theorem Scoped.subst (h : S.Scoped U c) {u : Universe}
    (ht : t.All (Skeleton.Below U u) fun y => c y ≤ u) :
    (t.subst S.resolve).All (Skeleton.Below U u) fun y => c y ≤ u :=
  Ty.all_subst.mpr (Ty.All.imp ht (fun _ => id) fun y _ hy =>
    all_below_mono hy (fun _ hz => Nat.le_trans hz hy) (h y))

/-- Lowering the ceilings of unresolved variables. -/
theorem Scoped.lower (h : S.Scoped U c) (hle : ∀ y, c' y ≤ c y)
    (heq : ∀ y, ¬ S.Unresolved y → c' y = c y) : S.Scoped U c' := by
  intro y
  by_cases hy : S.Unresolved y
  · rw [show S.resolve y = .inferVar y from hy]
    exact Ty.all_inferVar.mpr (Nat.le_refl _)
  · rw [heq y hy]
    exact all_below_mono (Nat.le_refl _) (fun z => Nat.le_trans (hle z)) (h y)

/-- Resolving one more variable, to a type within its ceiling. -/
theorem Scoped.extend (h : S.Scoped U c) (hx : S.Unresolved x) {restrictions : Restrictions}
    (hocc : x ∉ (t.subst S.resolve).vars)
    (ht : (t.subst S.resolve).All (Skeleton.Below U (c' x)) fun y => c' y ≤ c' x)
    (hle : ∀ y, c' y ≤ c y) (heq : ∀ y, ¬ S.Unresolved y → c' y = c y) :
    (S.extend restrictions hocc).Scoped U c' := by
  have hlow := h.lower hle heq
  intro y
  refine Ty.all_subst.mpr (Ty.All.imp (hlow y) (fun _ => id) fun z _ hz => ?_)
  by_cases hzx : z = x
  · subst hzx
    rw [single_self]
    exact all_below_mono hz (fun w hw => Nat.le_trans hw hz) ht
  · rw [single_of_ne hzx]
    exact Ty.all_inferVar.mpr hz

end Store

namespace VersionedEGraph

variable {g g' : VersionedEGraph} {v w : Version} {S : Store} {r : Except UnifyError Unit}

/-- Version `v` resolves every variable within its universe. -/
structure InScope (g : VersionedEGraph) (v : Version) (S : Store) : Prop where
  represents : Represents g v S
  below : S.Scoped g.placeholderUniverse (g.currentUniverse v)
  allocated : S.Allocated g.varCount

theorem currentUniverse_of_restrictions
    (h : (g'.restrictions w).ceiling = (g.restrictions v).ceiling) :
    g'.currentUniverse w = g.currentUniverse v :=
  funext fun x => congrFun h x

namespace InScope

/-- The same resolution under the same ceilings.  Of a variable that is yet to be allocated no
resolution makes any use, so its ceiling may differ. -/
theorem congr {S' : Store} (h : InScope g v S) (hrep : Represents g' w S')
    (hr : S'.resolve = S.resolve) (hU : g'.placeholderUniverse = g.placeholderUniverse)
    (hc : ∀ x < g.varCount, g'.currentUniverse w x = g.currentUniverse v x)
    (hn : g.varCount ≤ g'.varCount) : InScope g' w S' where
  represents := hrep
  below x := by
    rw [hr, hU]
    by_cases hx : x < g.varCount
    · rw [hc x hx]
      refine Ty.All.imp (h.below x) (fun _ => id) fun y hy hle => ?_
      rwa [hc y (h.allocated.within x hx y hy)]
    · rw [show S.resolve x = .inferVar x from h.allocated.unresolved x (Nat.le_of_not_lt hx)]
      exact Ty.all_inferVar.mpr (Nat.le_refl _)
  allocated := (h.allocated.mono hn).congr hr

/-- A version has one resolution, so it does not matter which store it is in scope for. -/
theorem of_represents {S' : Store} (h : InScope g v S) (h' : Represents g v S') :
    InScope g v S' :=
  h.congr h' (h'.resolution.unique h.represents.resolution) rfl (fun _ _ => rfl) (Nat.le_refl _)

/-- Ceilings lowered at variables of a resolved type. -/
theorem lowered {X : Set InferVarIndex} {ceiling : Universe} (h : InScope g v S)
    (hl : Lowered v X ceiling g g') (hX : ∀ x ∈ X, S.Unresolved x) :
    InScope g' v { S with restrictions := g'.restrictions v } where
  represents := hl.represents h.represents
  below := by
    rw [hl.placeholderUniverse_eq]
    exact h.below.lower (fun y => hl.le (Nat.le_refl _))
      fun y hy => hl.eq_of_notMem fun hm => hy (hX y hm)
  allocated :=
    have ha := h.allocated.mono hl.varCount_le
    ⟨ha.unresolved, ha.within⟩

end InScope

/-! ### Unification -/

/-- A change after which `v` resolves within universes that are no higher than before. -/
def Descends (v : Version) (g g' : VersionedEGraph) : Prop :=
  (∃ S', InScope g' v S') ∧ ∀ x, g'.currentUniverse v x ≤ g.currentUniverse v x

theorem InScope.descends (h : InScope g v S) : Descends v g g := ⟨⟨S, h⟩, fun _ => Nat.le_refl _⟩

namespace InScope

variable {x y : InferVarIndex} {t : Ty} {fuel : Nat}

theorem bindVariable (h : InScope g v S) (hx : S.Unresolved x) (hxn : x < g.varCount)
    (ht : Covers (vars g) S t) (hr : (t.subst S.resolve).Rigid)
    (hrun : g.bindVariable fuel v (.inferVar x) x t = some (r, g')) : Descends v g g' := by
  simp only [VersionedEGraph.bindVariable] at hrun
  split at hrun
  · cases hrun
  · simp only [Option.some.injEq, Prod.mk.injEq] at hrun
    exact hrun.2 ▸ h.descends
  rename_i hocc
  have hnotMem : x ∉ (t.subst S.resolve).vars := fun hm => by
    cases (h.represents.occursIn_iff hocc).mpr hm
  have hX : ∀ y ∈ {y | y ∈ (t.subst S.resolve).vars}, S.Unresolved y :=
    fun y hy => Store.unresolved_of_mem hy
  split at hrun
  · cases hrun
  · rename_i hacc
    simp only [Option.some.injEq, Prod.mk.injEq] at hrun
    obtain ⟨-, rfl⟩ := hrun
    have hl := (makeAccessible_spec fuel t g S [] _ _ _ h.represents hacc).lowered
    exact ⟨⟨_, h.lowered hl hX⟩, fun y => hl.le (Nat.le_refl _)⟩
  · rename_i g₁ hacc
    simp only [Option.some.injEq, Prod.mk.injEq] at hrun
    obtain ⟨-, hg'⟩ := hrun
    obtain ⟨hl, hheads, hceiling⟩ := makeAccessible_ok h.represents hacc
    have h₁ := h.lowered hl hX
    obtain ⟨hrep, hrestrictions⟩ := h₁.represents.bind hx hr hnotMem rfl hg'
    have hrep : Represents g' v (S.extend (g'.restrictions v) hnotMem) := hrep
    have hlocal := (Local.setBoundIn g₁ v (.inferVar x) (.exactly t)).trans
      (Local.union _ v (.inferVar x) t)
    rw [hg'] at hlocal
    have hc := currentUniverse_of_restrictions (congrArg Restrictions.ceiling hrestrictions)
    have hcx : g₁.currentUniverse v x = g.currentUniverse v x := hl.eq_of_notMem hnotMem
    refine ⟨⟨_, hrep, ?_, ?_⟩, fun y => ?_⟩
    · rw [hlocal.placeholderUniverse_eq, hl.placeholderUniverse_eq, hc]
      refine h.below.extend hx hnotMem ?_ (fun y => hl.le (Nat.le_refl _))
        fun y hy => hl.eq_of_notMem fun hm => hy (hX y hm)
      rw [hcx]
      exact hheads.imp (fun _ => id) fun y hy _ =>
        Nat.le_trans (Nat.le_of_eq (hceiling y hy)) (Nat.min_le_right _ _)
    · refine (h.allocated.extend hnotMem hxn fun y hy => ?_).mono
        (Nat.le_trans hl.varCount_le hlocal.varCount_le)
      exact Finset.mem_range.mp (ht y hy)
    · rw [hc]
      exact hl.le (Nat.le_refl _)

theorem unifyVariables (h : InScope g v S) (hx : S.Unresolved x) (hy : S.Unresolved y)
    (hxy : y ≠ x) (hxn : x < g.varCount) (hyn : y < g.varCount)
    (hrun : g.unifyVariables v (.inferVar x) (.inferVar y) x y = some (r, g')) :
    Descends v g g' := by
  have hsx : (Ty.inferVar x).subst S.resolve = .inferVar x := (Ty.subst_inferVar _ _).trans hx
  have hsy : (Ty.inferVar y).subst S.resolve = .inferVar y := (Ty.subst_inferVar _ _).trans hy
  simp only [VersionedEGraph.unifyVariables] at hrun
  rcases compatibleDomain_var_var h.represents hsx hsy with ⟨m, -, hd⟩ | ⟨-, e, hd⟩
  · rw [hd] at hrun
    simp only [Option.some.injEq, Prod.mk.injEq, Option.getD_some] at hrun
    obtain ⟨-, hg'⟩ := hrun
    have hocc : x ∉ ((Ty.inferVar y).subst S.resolve).vars := by
      rw [hsy, Ty.mem_vars_inferVar]; exact hxy.symm
    obtain ⟨hl, hle⟩ := lowered_pair (x := x) (y := y)
      (c := min (g.currentUniverse v x) (g.currentUniverse v y)) h.represents rfl
    generalize (g.lowerUniverse v x _).lowerUniverse v y _ = g₂ at hl hle hg'
    have hX : ∀ z ∈ ({x, y} : Set InferVarIndex), S.Unresolved z := by
      rintro z (rfl | rfl)
      · exact hx
      · exact hy
    have h₂ := h.lowered hl hX
    obtain ⟨hrep, -, hceiling⟩ := h₂.represents.link hx hy hocc hg'
    have hrep : Represents g' v (S.extend (g'.restrictions v) hocc) := hrep
    have hlocal := (Local.union g₂ v (.inferVar x) (.inferVar y)).trans
      (Local.setDomainIn _ v (g₂.union v (.inferVar x) (.inferVar y)).1 m)
    rw [hg'] at hlocal
    have hc := currentUniverse_of_restrictions hceiling
    refine ⟨⟨_, hrep, ?_, ?_⟩, fun z => ?_⟩
    · rw [hlocal.placeholderUniverse_eq, hl.placeholderUniverse_eq, hc]
      refine h.below.extend hx hocc ?_ (fun z => hl.le (Nat.le_refl _))
        fun z hz => hl.eq_of_notMem fun hm => hz (hX z hm)
      -- both variables come down to the lower of the two ceilings
      rw [hsy, Ty.all_inferVar]
      refine Nat.le_trans hle ?_
      rcases hl.currentUniverse x with e | ⟨-, e⟩ <;> rw [e]
      · exact Nat.min_le_left _ _
      · exact Nat.le_min.mpr ⟨Nat.min_le_left _ _, Nat.le_refl _⟩
    · refine (h.allocated.extend hocc hxn fun z hz => ?_).mono
        (Nat.le_trans hl.varCount_le hlocal.varCount_le)
      rw [hsy, Ty.mem_vars_inferVar] at hz
      exact hz ▸ hyn
    · rw [hc]
      exact hl.le (Nat.le_refl _)
  · rw [hd] at hrun
    simp only [Option.some.injEq, Prod.mk.injEq] at hrun
    exact hrun.2 ▸ h.descends

/-- An error type mentions nothing, so every variable may be resolved to it. -/
theorem recovery {e : ErrorReported} (h : InScope g v S) (hx : S.Unresolved x)
    (hxn : x < g.varCount) :
    ∃ S', InScope
      ((g.setBoundIn v (.inferVar x) (.exactly (.error e))).union v (.inferVar x) (.error e)).2
      v S' := by
  have hno : ∀ y, y ∉ ((Ty.error e).subst S.resolve).vars := fun _ => Ty.notMem_vars_error
  obtain ⟨hrep, hrestrictions⟩ :=
    h.represents.bind (t := .error e) hx trivial (hno x) rfl rfl
  have hlocal := (Local.setBoundIn g v (.inferVar x) (.exactly (.error e))).trans
    (Local.union _ v (.inferVar x) (.error e))
  have hc := currentUniverse_of_restrictions (congrArg Restrictions.ceiling hrestrictions)
  refine ⟨_, hrep, ?_, ?_⟩
  · rw [hlocal.placeholderUniverse_eq, hc]
    refine h.below.extend hx (hno x) ?_ (fun _ => Nat.le_refl _) fun _ _ => rfl
    refine (Ty.all_iff (Ty.rigid_subst (t := .error e) trivial _)).mpr ⟨fun p hp => ?_, fun c hc => ?_⟩
    · cases hp
    · exact absurd hc List.not_mem_nil
  · exact (h.allocated.extend (hno x) hxn fun y hy => absurd hy (hno y)).mono hlocal.varCount_le

theorem unifyInvariant (v : Version) : UnifyInvariant v fun g S => InScope g v S where
  represents h := h.represents
  allocated h := h.allocated
  congr h hrep hr hk := h.congr hrep hr hk.placeholderUniverse_eq
    (fun x _ => congrFun hk.currentUniverse_eq x) hk.varCount_le
  bind h hx hxn ht hr _ _ hrun := (h.bindVariable hx hxn ht hr hrun).1
  link h hx hy hxy hxn hyn hrun := (h.unifyVariables hx hy hxy hxn hyn hrun).1

/-- The same under ceilings no higher than `c`. -/
theorem unifyInvariant_le (v : Version) (c : InferVarIndex → Universe) :
    UnifyInvariant v fun g S => InScope g v S ∧ ∀ x, g.currentUniverse v x ≤ c x where
  represents h := h.1.represents
  allocated h := h.1.allocated
  congr h hrep hr hk := ⟨(unifyInvariant v).congr h.1 hrep hr hk, by
    rw [hk.currentUniverse_eq]
    exact h.2⟩
  bind h hx hxn ht hr _ _ hrun := by
    obtain ⟨⟨S', h'⟩, hle⟩ := h.1.bindVariable hx hxn ht hr hrun
    exact ⟨S', h', fun y => Nat.le_trans (hle y) (h.2 y)⟩
  link h hx hy hxy hxn hyn hrun := by
    obtain ⟨⟨S', h'⟩, hle⟩ := h.1.unifyVariables hx hy hxy hxn hyn hrun
    exact ⟨S', h', fun z => Nat.le_trans (hle z) (h.2 z)⟩

/-- Unification keeps a version in scope and lowers ceilings only, whether it succeeds or not. -/
theorem unifyInProbe (fuel : Nat) (left right : Ty) (h : InScope g v S)
    (hl : Covers (vars g) S left) (hr : Covers (vars g) S right)
    (hrun : VersionedEGraph.unifyInProbe fuel v left right g = some (r, g')) : Descends v g g' := by
  obtain ⟨S', h', hle⟩ := (unifyInvariant_le v (g.currentUniverse v)).unifyInProbe fuel left right
    ⟨h, fun _ => Nat.le_refl _⟩ hl hr hrun
  exact ⟨⟨S', h'⟩, hle⟩

end InScope

end VersionedEGraph

end Sage
