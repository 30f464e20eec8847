import Sage.Infer.TryUnify

/-!
# Inference — the never-type fallback

An expression of the never type is coerced to a type that is not known yet by deferring the type.
What is still unresolved when a body ends, or when checking it gets stuck, falls back to the never
type, and the equality that makes it so is expected to succeed.  It fails when the type has been
narrowed to the literal of a number in the meantime.

* `InferCtx` — the inference context with its deferred targets, and what changes it.
* `tryUnify_never`, `tryUnify_never_fails` — one target.
* `defaultDeferredNeverTargets_iff` — exactly when the fallback does not panic.
-/

namespace Sage

open Loop

/-- The part of the inference context that the fallback reads and writes. -/
structure InferCtx where
  egraph : VersionedEGraph
  deferredNeverTargets : List Ty
  pendingWakes : List InferVarIndex

namespace InferCtx

def new : InferCtx := ⟨.new, [], []⟩

def publishCommitEffects (ctx : InferCtx) (effects : CommitEffects) : InferCtx :=
  { ctx with pendingWakes := ctx.pendingWakes ++ effects.wakes }

def isNeverToAnyCoercion (ctx : InferCtx) (source target : Ty) : Bool × InferCtx :=
  let (source, egraph) := ctx.egraph.findMut .root source
  let (target, egraph) := egraph.findMut .root target
  (source = .never ∧ target ≠ .never, { ctx with egraph })

def deferNeverTargetIfInfer (ctx : InferCtx) (target : Ty) : InferCtx :=
  let (target, egraph) := ctx.egraph.findMut .root target
  let ctx := { ctx with egraph }
  match target with
  | .inferVar _ =>
      if target ∈ ctx.deferredNeverTargets then ctx
      else { ctx with deferredNeverTargets := ctx.deferredNeverTargets ++ [target] }
  | _ => ctx

/-- What a coercion does when its source is the never type. -/
def coerceNever (ctx : InferCtx) (source target : Ty) : InferCtx :=
  let (neverToAny, ctx) := ctx.isNeverToAnyCoercion source target
  if neverToAny then ctx.deferNeverTargetIfInfer target else ctx

section Fallback

variable [HashOrder]

/-- One deferred target; an error is the panic of the `expect`. -/
def defaultDeferredNeverTarget (fuel : Nat) (only : Option (List InferVarIndex)) (target : Ty)
    (ctx : InferCtx) : Outcome UnifyError InferCtx Unit :=
  let (target, egraph) := ctx.egraph.findMut .root target
  let ctx := { ctx with egraph }
  match target with
  | .inferVar variable_ =>
      if only.any (variable_ ∉ ·) then some (.ok (), ctx)
      else if ctx.egraph.getBound .root target ≠ .none then some (.ok (), ctx)
      else
        match ctx.egraph.tryUnify fuel .root target .never with
        | none => none
        | some (.error e, egraph) => some (.error e, { ctx with egraph })
        | some (.ok (_, effects), egraph) =>
            some (.ok (), { ctx with egraph }.publishCommitEffects effects)
  | _ => some (.ok (), ctx)

/-- Deferred targets that are still unresolved, of the variables `only` if there are any given,
become the never type. -/
def defaultDeferredNeverTargets (fuel : Nat) (ctx : InferCtx)
    (only : Option (List InferVarIndex)) : Outcome UnifyError InferCtx Unit :=
  forEach (defaultDeferredNeverTarget fuel only) ctx.deferredNeverTargets ctx

/-- What happens while a body is checked: any step of inference, coercions from the never type, and
fallback when checking is stuck. -/
inductive Step (ctx : InferCtx) : InferCtx → Prop
  | infer {event : Event} {egraph : VersionedEGraph} (wakes : List InferVarIndex)
      (hs : VersionedEGraph.Step Bound.IsExact ctx.egraph event egraph) :
      Step ctx { ctx with egraph, pendingWakes := wakes }
  | coerceNever (hroot : ctx.egraph.IsMutable .root) (source target : Ty) :
      Step ctx (ctx.coerceNever source target)
  | fallback {fuel : Nat} {only : Option (List InferVarIndex)} {ctx' : InferCtx}
      (hroot : ctx.egraph.IsMutable .root)
      (hrun : ctx.defaultDeferredNeverTargets fuel only = some (.ok (), ctx')) : Step ctx ctx'

inductive Reachable : InferCtx → Prop
  | new : Reachable .new
  | step {ctx ctx' : InferCtx} (h : Reachable ctx) (hs : Step ctx ctx') : Reachable ctx'

end Fallback

end InferCtx

namespace VersionedEGraph

variable {g g' : VersionedEGraph} {v : Version} {S : Store} {x y : InferVarIndex} {t : Ty}

/-! ### One target -/

theorem Represents.find_never (h : Represents g v S) : g.find v .never = .never := by
  have hs : (Ty.never).subst S.resolve = .never := by simp [Ty.subst, Ty.foldLeaves]
  have hd := h.decompose_find (t := .never) (by rw [hs]; trivial)
  rw [hs] at hd
  have hchildren : ((decompose (g.find v .never)).children.map (Ty.subst S.resolve)) = [] :=
    hd.2.symm
  refine (decompose_injective hd.1 ?_).symm
  exact (List.map_eq_nil_iff.mp hchildren).symm

theorem subst_unresolved (hx : S.Unresolved x) : (Ty.inferVar x).subst S.resolve = .inferVar x :=
  (Ty.subst_inferVar _ _).trans hx

theorem subst_never : Ty.never.subst S.resolve = .never := by simp [Ty.subst, Ty.foldLeaves]

/-- A class that may be any type can be bound to the never type. -/
theorem Represents.bindVariable_never (h : Represents g v S) (fuel : Nat) :
    g.bindVariable (fuel + 1) v (.inferVar x) x .never = some (.ok (),
      ((g.setBoundIn v (.inferVar x) (.exactly .never)).union v (.inferVar x) .never).2) := by
  have hocc : g.occursIn v x (fuel + 1) .never [] = some (false, [.never]) := by
    simp [occursIn, h.find_never, decompose, leaf, anyVisited]
  have hacc : makeAccessible v x (g.currentUniverse v x) (fuel + 1) .never ([], g) =
      some (.ok (), ([.never], g)) := by
    simp [makeAccessible, h.find_never, accessHead, headPlaceholder, decompose, leaf, forEach,
      andThen]
  simp only [bindVariable, hocc, hacc]

theorem notMem_never : x ∉ (Ty.never.subst S.resolve).vars := by
  rw [subst_never]
  simp [Ty.vars, Ty.term_eq (t := .never) (by trivial), decompose, leaf]

/-- The class of `x` became the never type and nothing else was recorded. -/
structure Falls (v : Version) (S : Store) (x : InferVarIndex) (g g' : VersionedEGraph) : Prop where
  represents : ∃ R, Represents g' v (S.extend R (notMem_never (x := x)))
  restrictions : g'.restrictions v = g.restrictions v
  bound : ∀ y, y ≠ x → g'.getBound v (.inferVar y) = g.getBound v (.inferVar y)

theorem getBound_union (hg : g.WF) (hv : v < g.states.length) (left right : Ty) :
    (g.union v left right).2.getBound v = g.getBound v := by
  funext t
  by_cases hne : g.find v left = g.find v right
  · simp [union, hne]
  · rw [← view_bound, view_union hg hv hne, ← view_bound]

theorem bind_never (h : Represents g v S) (hx : S.Unresolved x) :
    Falls v S x g
      ((g.setBoundIn v (.inferVar x) (.exactly .never)).union v (.inferVar x) .never).2 := by
  have hr : (Ty.never.subst S.resolve).Rigid := by
    rw [subst_never]
    trivial
  obtain ⟨hrep, hrestrictions⟩ := h.bind hx hr notMem_never rfl rfl
  have hloc := Local.setBoundIn g v (.inferVar x) (.exactly .never)
  refine ⟨⟨_, hrep⟩, hrestrictions, fun y hy => ?_⟩
  obtain ⟨wakes, revision, hview⟩ :=
    Represents.setBoundIn_view h.wf h.lt (x := x) (.exactly .never)
  rw [getBound_union (hloc.wf h.wf) (hloc.length ▸ h.lt), ← view_bound, hview]
  exact Function.update_of_ne (fun e => hy (Ty.inferVar.inj e)) _ _

/-- Unification with the never type ends at once, in success only when any type is allowed. -/
theorem Represents.unifyInProbe_never (h : Represents g v S) (hx : S.Unresolved x) (fuel : Nat) :
    (S.restrictions.domain x = .any ∧ ∃ g', unifyInProbe (fuel + 2) v (.inferVar x) .never g =
        some (.ok (), g') ∧ Falls v S x g g') ∨
    (S.restrictions.domain x ≠ .any ∧ ∃ e g', unifyInProbe (fuel + 2) v (.inferVar x) .never g =
        some (.error e, g')) := by
  have h₁ := h.findMut (.inferVar x)
  have h₂ := h₁.findMut .never
  have hsame : SameRecords v g ((g.findMut v (.inferVar x)).2.findMut v .never).2 :=
    (SameRecords.compressPathFrom h.wf h.lt).trans (SameRecords.compressPathFrom h₁.wf h₁.lt)
  have hleft : g.find v (.inferVar x) = .inferVar x := h.find_eq_inferVar.mpr (subst_unresolved hx)
  have hrun : unifyInProbe (fuel + 2) v (.inferVar x) .never g =
      unifyRoots (fuel + 1) (unifyInProbe (fuel + 1) v)
        ((g.findMut v (.inferVar x)).2.findMut v .never).2 v (.inferVar x) .never := by
    have hnever := h₁.find_never
    rw [unifyInProbe]
    simp only [VersionedEGraph.findMut] at hnever ⊢
    rw [hleft] at hnever ⊢
    rw [hnever]
  rw [hrun]
  generalize ((g.findMut v (.inferVar x)).2.findMut v .never).2 = g₂ at h₂ hsame
  have hr : (Ty.never.subst S.resolve).Rigid := by
    rw [subst_never]
    trivial
  have hadmits : (S.restrictions.domain x).admits (Ty.never.subst S.resolve) = true ↔
      S.restrictions.domain x = .any := by
    rw [subst_never]
    cases S.restrictions.domain x <;> simp [InferDomain.admits]
  rcases compatibleDomain_var_rigid h₂ (subst_unresolved hx) hr with ⟨hd, hc⟩ | ⟨hd, e, hc⟩
  · refine .inl ⟨hadmits.mp hd,
      ((g₂.setBoundIn v (.inferVar x) (.exactly .never)).union v (.inferVar x) .never).2, ?_, ?_⟩
    · simp only [unifyRoots, hc, h₂.bindVariable_never fuel]
      rfl
    · obtain ⟨hrep, hrestrictions, hbound⟩ := bind_never h₂ hx
      refine ⟨hrep, hrestrictions.trans ?_, fun y hy => (hbound y hy).trans ?_⟩
      · exact restrictions_congr hsame.versions hsame.domain hsame.ceiling
      · rw [← view_bound, hsame.bound, view_bound]
  · refine .inr ⟨fun he => hd (hadmits.mpr he), e, g₂, ?_⟩
    simp only [unifyRoots, hc]
    rfl

/-- A version that a child was collapsed into may be written to. -/
theorem isMutable_collapseInto {child parent : Nat} (hg : g.WF) (hc : g.CanCollapse child parent) :
    (g.collapseInto child parent).2.IsMutable parent := by
  have hcol := collapsed hg hc
  have hlive : (g.collapseInto child parent).2.versions.isLive parent = true :=
    (hcol.isLive parent).mpr ⟨hc.2.1, Nat.ne_of_lt (hg.versions.ordered _ parent hc.2.2.1)⟩
  exact ⟨hlive, by rw [hcol.children parent hlive, if_pos rfl]⟩

section Transaction

variable [HashOrder]

/-- A target's class becomes the never type when it may be any type, and an attempt fails when it
may not. -/
theorem tryUnify_never (h : Represents g v S) (hr : S.restrictions = g.restrictions v)
    (hv : g.IsMutable v) (hx : S.Unresolved x) :
    (S.restrictions.domain x = .any ∧ ∃ N effects g',
      (∀ n ≥ N, g.tryUnify n v (.inferVar x) .never = some (.ok ((), effects), g')) ∧
        Falls v S x g g' ∧ g'.IsMutable v) ∨
    (S.restrictions.domain x ≠ .any ∧ ∃ N e g',
      ∀ n ≥ N, g.tryUnify n v (.inferVar x) .never = some (.error e, g')) := by
  have hbranch := h.branchFrom hv.1 hr
  rcases hbranch.unifyInProbe_never hx 0 with
    ⟨hany, probe, hrun₀, hfalls⟩ | ⟨hany, e, probe, hrun₀⟩
  · have hrun : ∀ n ≥ 2, unifyInProbe n g.versions.nodes.length (.inferVar x) .never
        (g.branchFrom v).2 = some (.ok (), probe) := fun n hn => unifyInProbe_mono hn _ _ _ _ hrun₀
    obtain ⟨R, hrep⟩ := hfalls.represents
    obtain ⟨n₁, hn₁⟩ := hrep.rebuild_ends
    obtain ⟨⟨changed, rebuilt⟩, hrebuild₁⟩ := Option.ne_none_iff_exists'.mp hn₁
    have hrebuild : ∀ n ≥ n₁, probe.rebuild n g.versions.nodes.length = some (changed, rebuilt) :=
      fun n hn => rebuildFrom_mono hn _ _ hrebuild₁
    have hlocal := (Local.unifyInProbe 2 hrun₀).trans (Local.rebuild _ hrebuild₁)
    have hc := probe_canCollapse hv.1 hv.2 hlocal
    have hrebuilt := hrep.rebuild hrebuild₁
    have hsame : SameRecords _ probe rebuilt := SameRecords.rebuildFrom hrep hrebuild₁
    have hcol := collapsed hrebuilt.wf hc
    refine .inl ⟨hany, max 2 n₁, (rebuilt.collapseInto g.versions.nodes.length v).1,
      (rebuilt.collapseInto g.versions.nodes.length v).2, fun n hn => ?_,
      ⟨⟨_, hrebuilt.collapseInto hc⟩, ?_, fun y hy => ?_⟩, isMutable_collapseInto hrebuilt.wf hc⟩
    · rw [tryUnify_eq, tryProbe]
      simp only [branchFrom_fst, hrun n (Nat.le_trans (Nat.le_max_left _ _) hn),
        hrebuild n (Nat.le_trans (Nat.le_max_right _ _) hn)]
    · rw [collapseInto_restrictions hrebuilt.wf hc,
        restrictions_congr hsame.versions hsame.domain hsame.ceiling, hfalls.restrictions,
        branchFrom_restrictions h.wf hv.1]
    · rw [← view_bound, hcol.view_parent hrebuilt.wf hc.2.2.1]
      change (rebuilt.view _).bound _ = _
      rw [hsame.bound, view_bound, hfalls.bound y hy, ← view_bound, view_branchFrom h.wf hv.1]
      rfl
  · refine .inr ⟨hany, 2, e, probe.discard g.versions.nodes.length, fun n hn => ?_⟩
    have hrun := unifyInProbe_mono hn _ _ _ _ hrun₀
    rw [tryUnify_eq, tryProbe]
    simp only [branchFrom_fst, hrun]

end Transaction

/-! ### What happens to the other classes -/

theorem Falls.find_iff (h : Represents g v S) (hf : Falls v S x g g') :
    g'.find v t = .inferVar y ↔ g.find v t = .inferVar y ∧ y ≠ x := by
  obtain ⟨R, hrep⟩ := hf.represents
  rw [hrep.find_eq_inferVar, h.find_eq_inferVar, Store.extend_resolve, subst_never]
  rcases (t.subst S.resolve).rigid_or_var with hr | ⟨w, hw⟩
  · have hr' := Ty.rigid_subst hr (Store.single x .never)
    refine ⟨fun he => ?_, fun he => ?_⟩
    · rw [he] at hr'
      exact hr'.elim
    · rw [he.1] at hr
      exact hr.elim
  · rw [hw, Ty.subst_inferVar]
    by_cases hwx : w = x
    · subst hwx
      rw [Store.single_self]
      exact ⟨nofun, fun he => absurd (Ty.inferVar.inj he.1).symm he.2⟩
    · rw [Store.single_of_ne hwx]
      exact ⟨fun he => ⟨he, fun hy => hwx (hy ▸ Ty.inferVar.inj he)⟩, And.left⟩

/-- The class of a target that a pass selects may be any type. -/
def Unnarrowed (g : VersionedEGraph) (only : Option (List InferVarIndex)) (target : Ty) : Prop :=
  ∀ y, g.find .root target = .inferVar y → (∀ vars ∈ only, y ∈ vars) →
    g.getBound .root (.inferVar y) = .none → g.effectiveDomain .root target = some .any

/-- When one target fell back, what is selected of the others is selected as before. -/
theorem Falls.unnarrowed_iff (h : Represents g .root S) (hr : S.restrictions = g.restrictions .root)
    (hf : Falls .root S x g g') (hany : S.restrictions.domain x = .any)
    {only : Option (List InferVarIndex)} {target : Ty} :
    g'.Unnarrowed only target ↔ g.Unnarrowed only target := by
  have hdomain : ∀ {y}, g'.find .root target = .inferVar y → g.find .root target = .inferVar y →
      g'.effectiveDomain .root target = g.effectiveDomain .root target := fun hy' hy => by
    rw [effectiveDomain_of_root hy', effectiveDomain_of_root hy]
    exact congrArg (fun R : Restrictions => some (R.domain _)) hf.restrictions
  constructor
  · intro hu y hy honly hbound
    by_cases hyx : y = x
    · rw [effectiveDomain_of_root hy, hyx, ← hany, hr]
      rfl
    · have hy' := (hf.find_iff h).mpr ⟨hy, hyx⟩
      rw [← hdomain hy' hy]
      exact hu y hy' honly ((hf.bound y hyx).trans hbound)
  · intro hu y hy' honly hbound
    obtain ⟨hy, hyx⟩ := (hf.find_iff h).mp hy'
    rw [hdomain hy' hy]
    exact hu y hy honly ((hf.bound y hyx).symm.trans hbound)

/-- Looking a type up changes nothing that is selected. -/
theorem Represents.unnarrowed_findMut (h : Represents g .root S) (t : Ty)
    {only : Option (List InferVarIndex)} {target : Ty} :
    (g.findMut .root t).2.Unnarrowed only target ↔ g.Unnarrowed only target := by
  have h' := h.findMut t
  have hsame : SameRecords .root g (g.findMut .root t).2 :=
    SameRecords.compressPathFrom h.wf h.lt
  have hfind : ∀ {y}, (g.findMut .root t).2.find .root target = .inferVar y ↔
      g.find .root target = .inferVar y := h'.find_eq_inferVar.trans h.find_eq_inferVar.symm
  have hbound : ∀ u, (g.findMut .root t).2.getBound .root u = g.getBound .root u := fun u => by
    rw [← view_bound, hsame.bound, view_bound]
  have hdomain : ∀ {y}, g.find .root target = .inferVar y →
      (g.findMut .root t).2.effectiveDomain .root target = g.effectiveDomain .root target :=
    fun hy => by
      rw [h'.effectiveDomain_of_var (h.find_eq_inferVar.mp hy),
        h.effectiveDomain_of_var (h.find_eq_inferVar.mp hy)]
  constructor
  · intro hu y hy honly hb
    rw [← hdomain hy]
    exact hu y (hfind.mpr hy) honly ((hbound _).trans hb)
  · intro hu y hy honly hb
    rw [hdomain (hfind.mp hy)]
    exact hu y (hfind.mp hy) honly ((hbound _).symm.trans hb)

end VersionedEGraph

/-! ### The pass -/

namespace InferCtx

variable {ctx : InferCtx} {only : Option (List InferVarIndex)} {target : Ty}

/-- A context whose root version represents a store and may be written to. -/
structure Ready (ctx : InferCtx) : Prop where
  represents : ∃ S, VersionedEGraph.Represents ctx.egraph .root S ∧
    S.restrictions = ctx.egraph.restrictions .root
  isMutable : ctx.egraph.IsMutable .root

/-- The context after a target has been looked up. -/
def lookedUp (ctx : InferCtx) (target : Ty) : InferCtx :=
  { ctx with egraph := (ctx.egraph.findMut .root target).2 }

/-- The pass selects the class of `y` for a target. -/
def Selects (ctx : InferCtx) (only : Option (List InferVarIndex)) (target : Ty)
    (y : InferVarIndex) : Prop :=
  ctx.egraph.find .root target = .inferVar y ∧ (∀ vars ∈ only, y ∈ vars) ∧
    (ctx.lookedUp target).egraph.getBound .root (.inferVar y) = .none

theorem Ready.lookedUp (h : ctx.Ready) (only : Option (List InferVarIndex)) (target : Ty) :
    (ctx.lookedUp target).Ready ∧
    (∀ t, (ctx.lookedUp target).egraph.Unnarrowed only t ↔ ctx.egraph.Unnarrowed only t) ∧
      (ctx.lookedUp target).egraph.getBound .root = ctx.egraph.getBound .root ∧
        ∀ t y, (ctx.lookedUp target).egraph.find .root t = .inferVar y ↔
          ctx.egraph.find .root t = .inferVar y := by
  obtain ⟨⟨S, hrep, hr⟩, hroot⟩ := h
  have hrep' := hrep.findMut target
  have hsame : VersionedEGraph.SameRecords .root ctx.egraph (ctx.lookedUp target).egraph :=
    VersionedEGraph.SameRecords.compressPathFrom hrep.wf hrep.lt
  refine ⟨⟨⟨S, hrep', hr.trans ?_⟩, ?_⟩, fun t => hrep.unnarrowed_findMut target, ?_,
    fun t y => hrep'.find_eq_inferVar.trans hrep.find_eq_inferVar.symm⟩
  · exact (VersionedEGraph.restrictions_congr hsame.versions hsame.domain hsame.ceiling).symm
  · rw [VersionedEGraph.IsMutable, hsame.versions]
    exact hroot
  · funext t
    rw [← VersionedEGraph.view_bound, hsame.bound, VersionedEGraph.view_bound]

section Pass

variable [HashOrder]

/-- Only selected targets are equated with the never type. -/
theorem defaultDeferredNeverTarget_cases (ctx : InferCtx) (only : Option (List InferVarIndex))
    (target : Ty) :
    ((∀ y, ¬ctx.Selects only target y) ∧
      ∀ n, defaultDeferredNeverTarget n only target ctx = some (.ok (), ctx.lookedUp target)) ∨
    ∃ y, ctx.Selects only target y ∧ ∀ n, defaultDeferredNeverTarget n only target ctx =
      match (ctx.lookedUp target).egraph.tryUnify n .root (.inferVar y) .never with
      | none => none
      | some (.error e, egraph) => some (.error e, { ctx.lookedUp target with egraph })
      | some (.ok (_, effects), egraph) =>
          some (.ok (), { ctx.lookedUp target with egraph }.publishCommitEffects effects) := by
  have hroot : (ctx.egraph.findMut .root target).1 = ctx.egraph.find .root target := rfl
  rcases (ctx.egraph.find .root target).rigid_or_var with hr | ⟨y, hy⟩
  · refine .inl ⟨fun y hy => ?_, fun n => ?_⟩
    · rw [hy.1] at hr
      exact hr.elim
    · rw [defaultDeferredNeverTarget]
      simp only [hroot]
      split
      · rename_i heq
        rw [heq] at hr
        exact hr.elim
      · rfl
  · by_cases honly : ∀ vars ∈ only, y ∈ vars
    · have hany : (only.any (y ∉ ·)) = false := by
        cases only with
        | none => rfl
        | some vars => simpa using honly
      by_cases hbound : (ctx.lookedUp target).egraph.getBound .root (.inferVar y) = .none
      · refine .inr ⟨y, ⟨hy, honly, hbound⟩, fun n => ?_⟩
        rw [lookedUp] at hbound
        rw [defaultDeferredNeverTarget]
        simp only [hroot, hy, hany, hbound, lookedUp]
        rfl
      · refine .inl ⟨fun z hz => ?_, fun n => ?_⟩
        · rw [Ty.inferVar.inj (hz.1.symm.trans hy)] at hz
          exact hbound hz.2.2
        · rw [lookedUp] at hbound
          rw [defaultDeferredNeverTarget]
          simp only [hroot, hy, hany, ne_eq, hbound, lookedUp]
          rfl
    · have hany : (only.any (y ∉ ·)) = true := by
        cases only with
        | none => exact absurd (by simp) honly
        | some vars => simpa using honly
      refine .inl ⟨fun z hz => ?_, fun n => ?_⟩
      · rw [Ty.inferVar.inj (hz.1.symm.trans hy)] at hz
        exact honly hz.2.1
      · rw [defaultDeferredNeverTarget]
        simp only [hroot, hy, hany, lookedUp]
        rfl

/-- One target: it is left alone or becomes the never type, or it has been narrowed and makes the
pass panic. -/
theorem Ready.one_target (h : ctx.Ready) (only : Option (List InferVarIndex)) (target : Ty) :
    (ctx.egraph.Unnarrowed only target ∧ ∃ N ctx',
      (∀ n ≥ N, defaultDeferredNeverTarget n only target ctx = some (.ok (), ctx')) ∧ ctx'.Ready ∧
        ∀ t, ctx'.egraph.Unnarrowed only t ↔ ctx.egraph.Unnarrowed only t) ∨
    (¬ctx.egraph.Unnarrowed only target ∧ ∃ N e ctx',
      ∀ n ≥ N, defaultDeferredNeverTarget n only target ctx = some (.error e, ctx')) := by
  obtain ⟨hready, hsel, hbound, hfind⟩ := h.lookedUp only target
  rcases defaultDeferredNeverTarget_cases ctx only target with ⟨hnone, hrun⟩ | ⟨y, hy, hrun⟩
  · refine .inl ⟨fun y hy honly hb => ?_, 0, _, fun n _ => hrun n, hready, hsel⟩
    exact absurd ⟨hy, honly, by rw [hbound]; exact hb⟩ (hnone y)
  obtain ⟨⟨S, hrep, hr⟩, hroot⟩ := hready
  have hroot_y := (hfind target y).mpr hy.1
  have hresolves := hrep.find_eq_inferVar.mp hroot_y
  have hdomain : (ctx.lookedUp target).egraph.effectiveDomain .root target =
      some (S.restrictions.domain y) := hrep.effectiveDomain_of_var hresolves
  rcases VersionedEGraph.tryUnify_never hrep hr hroot (Store.unresolved_of_eq hresolves) with
    ⟨hany, N, effects, g', htry, hfalls, hroot'⟩ | ⟨hany, N, e, g', htry⟩
  · refine .inl ⟨(hsel target).mp fun z hz _ _ => ?_, N,
      { ctx.lookedUp target with egraph := g' }.publishCommitEffects effects, fun n hn => ?_,
      ⟨?_, hroot'⟩, fun t => (hfalls.unnarrowed_iff hrep hr hany).trans (hsel t)⟩
    · rw [hdomain, hany]
    · rw [hrun, htry n hn]
    · obtain ⟨R, hrep'⟩ := hfalls.represents
      exact ⟨_, hrep'.of_view hrep'.wf hrep'.lt rfl rfl rfl, rfl⟩
  · refine .inr ⟨fun hu => hany ?_, N, e, { ctx.lookedUp target with egraph := g' },
      fun n hn => ?_⟩
    · have hb := hy.2.2
      have := (hsel target).mpr hu y hroot_y hy.2.1 hb
      exact Option.some.inj (hdomain.symm.trans this)
    · rw [hrun, htry n hn]

/-- A pass over some targets. -/
theorem Ready.forEach_target (targets : List Ty) : ∀ {ctx : InferCtx}, ctx.Ready →
    ∃ N r ctx',
      (∀ n ≥ N, forEach (defaultDeferredNeverTarget n only) targets ctx = some (r, ctx')) ∧
      (r = .ok () ↔ ∀ target ∈ targets, ctx.egraph.Unnarrowed only target) := by
  induction targets with
  | nil => exact fun {ctx} _ => ⟨0, .ok (), ctx, fun _ _ => rfl, by simp⟩
  | cons target targets ih =>
      intro ctx h
      rcases h.one_target only target with
        ⟨hu, N, ctx₁, hrun, hready, hsel⟩ | ⟨hu, N, e, ctx₁, hrun⟩
      · obtain ⟨M, r, ctx', hrest, hiff⟩ := ih hready
        refine ⟨max N M, r, ctx', fun n hn => ?_, ?_⟩
        · rw [forEach, hrun n (Nat.le_trans (Nat.le_max_left _ _) hn)]
          exact hrest n (Nat.le_trans (Nat.le_max_right _ _) hn)
        · rw [hiff, List.forall_mem_cons]
          refine ⟨fun hall => ⟨hu, fun t ht => (hsel t).mp (hall t ht)⟩, fun hall t ht => ?_⟩
          exact (hsel t).mpr (hall.2 t ht)
      · refine ⟨N, .error e, ctx₁, fun n hn => ?_, iff_of_false (by simp) fun hall => ?_⟩
        · rw [forEach, hrun n hn]
          rfl
        · exact absurd (hall target List.mem_cons_self) hu

/-! ### Reachable contexts -/

/-- A state of inference that is reachable and whose root version may be written to. -/
def Mutable (ctx : InferCtx) : Prop :=
  VersionedEGraph.Reachable Bound.IsExact ctx.egraph ∧ ctx.egraph.IsMutable .root

omit [HashOrder] in
theorem isMutable_findMut {g : VersionedEGraph} (h : g.IsMutable .root) (t : Ty) :
    (g.findMut .root t).2.IsMutable .root := by
  have hl := VersionedEGraph.Local.findMut g .root t
  exact ⟨(hl.isLive _).trans h.1, (hl.children _).trans h.2⟩

theorem Mutable.findMut (h : ctx.Mutable) (t : Ty) :
    { ctx with egraph := (ctx.egraph.findMut .root t).2 }.Mutable :=
  ⟨.step h.1 (.findMut h.2 t), isMutable_findMut h.2 t⟩

/-- A target that makes no panic leaves a reachable state. -/
theorem Mutable.one_target {n : Nat} {ctx' : InferCtx} (h : ctx.Mutable)
    (hrun : defaultDeferredNeverTarget n only target ctx = some (.ok (), ctx')) :
    ctx'.Mutable := by
  have hlooked : (ctx.lookedUp target).Mutable := h.findMut target
  rcases defaultDeferredNeverTarget_cases ctx only target with ⟨-, hskip⟩ | ⟨y, -, heq⟩
  · rw [hskip n, Option.some.injEq, Prod.mk.injEq] at hrun
    exact hrun.2 ▸ hlooked
  · rw [heq n] at hrun
    cases htry : (ctx.lookedUp target).egraph.tryUnify n .root (.inferVar y) .never with
    | none =>
        rw [htry] at hrun
        cases hrun
    | some result =>
        obtain ⟨r, g'⟩ := result
        cases r with
        | error e =>
            rw [htry] at hrun
            cases hrun
        | ok effects =>
            rw [htry] at hrun
            simp only [Option.some.injEq, Prod.mk.injEq, true_and] at hrun
            have ht : VersionedEGraph.Transaction Bound.IsExact (ctx.lookedUp target).egraph .root
                true g' := .tryUnifyBatch htry
            rw [← hrun]
            refine ⟨.step hlooked.1 (.transaction hlooked.2.1 (fun _ => hlooked.2.2) ht), ?_⟩
            rcases ht.probed hlooked.2.1 with rfl | ⟨probe, hl, -, rfl⟩
            · exact hlooked.2
            · have hwf := (hlooked.1.modelled fun _ => id).valid.wf.branchFrom hlooked.2.1
              exact VersionedEGraph.isMutable_collapseInto (hl.wf hwf)
                (VersionedEGraph.probe_canCollapse hlooked.2.1 hlooked.2.2 hl)

theorem Mutable.fallback {n : Nat} {ctx' : InferCtx} (h : ctx.Mutable)
    (hrun : ctx.defaultDeferredNeverTargets n only = some (.ok (), ctx')) : ctx'.Mutable := by
  rw [defaultDeferredNeverTargets] at hrun
  generalize ctx.deferredNeverTargets = targets at hrun
  induction targets generalizing ctx with
  | nil =>
      rw [forEach, Option.some.injEq, Prod.mk.injEq] at hrun
      exact hrun.2 ▸ h
  | cons target targets ih =>
      obtain ⟨_, ctx₁, hfirst, hrest⟩ := andThen_eq_ok.mp hrun
      exact ih (h.one_target hfirst) hrest

theorem Mutable.coerceNever (h : ctx.Mutable) (source target : Ty) :
    (ctx.coerceNever source target).Mutable := by
  have hdefer : ∀ {ctx : InferCtx}, ctx.Mutable → (ctx.deferNeverTargetIfInfer target).Mutable :=
    fun {ctx} h => by
      have h' := h.findMut target
      rw [deferNeverTargetIfInfer]
      simp only
      split
      · split
        · exact h'
        · exact h'
      · exact h'
  have hchecked : (ctx.isNeverToAnyCoercion source target).2.Mutable :=
    (h.findMut source).findMut target
  rw [InferCtx.coerceNever]
  simp only
  split
  · exact hdefer hchecked
  · exact hchecked

/-- Every reachable context has a reachable egraph. -/
theorem Reachable.egraph (h : Reachable ctx) :
    VersionedEGraph.Reachable Bound.IsExact ctx.egraph := by
  induction h with
  | new => exact .new
  | step _ hs ih =>
      cases hs with
      | infer wakes hs => exact .step ih hs
      | coerceNever hroot source target => exact (Mutable.coerceNever ⟨ih, hroot⟩ source target).1
      | fallback hroot hrun => exact (Mutable.fallback ⟨ih, hroot⟩ hrun).1

theorem Reachable.ready (h : Reachable ctx) (hroot : ctx.egraph.IsMutable .root) : ctx.Ready := by
  obtain ⟨S, hS⟩ := (h.egraph.modelled fun _ => id).store .root hroot.1
  -- the same store, with the restrictions the version records
  exact ⟨⟨_, hS.of_view hS.wf hS.lt rfl rfl rfl, rfl⟩, hroot⟩

/-- In every state that checking a body can reach, the fallback to the never type panics exactly
when it selects a target that has been narrowed to the literal of a number. -/
theorem defaultDeferredNeverTargets_iff (h : Reachable ctx) (hroot : ctx.egraph.IsMutable .root)
    (only : Option (List InferVarIndex)) :
    ∃ N r ctx', (∀ n ≥ N, ctx.defaultDeferredNeverTargets n only = some (r, ctx')) ∧
      (r = .ok () ↔ ∀ target ∈ ctx.deferredNeverTargets, ctx.egraph.Unnarrowed only target) :=
  (h.ready hroot).forEach_target _

end Pass

/-- A fresh variable that the never type was coerced to. -/
def deferred : InferCtx :=
  { new with egraph := (VersionedEGraph.new.allocVarInDomain .root 1 .any).2 }.coerceNever .never
    (.inferVar 0)

theorem reachable_deferred : Reachable deferred :=
  .step (.step .new (.infer [] (.alloc ⟨by decide, by decide⟩ 1 .any)))
    (.coerceNever ⟨by decide, by decide⟩ .never (.inferVar 0))

theorem deferred_isMutable : deferred.egraph.IsMutable .root :=
  ⟨by decide, by decide⟩

/-- The fresh variable falls back. -/
theorem defaultDeferredNeverTargets_deferred :
    ∃ N r ctx', (∀ n ≥ N, deferred.defaultDeferredNeverTargets n none = some (r, ctx')) ∧
      (r = .ok () ↔
        ∀ target ∈ deferred.deferredNeverTargets, deferred.egraph.Unnarrowed none target) :=
  defaultDeferredNeverTargets_iff reachable_deferred deferred_isMutable none

/-- Once the variable has been equated with the variable of an integer literal, its fallback
panics. -/
theorem defaultDeferredNeverTargets_panics :
    ∃ ctx, Reachable ctx ∧ ctx.egraph.IsMutable .root ∧
      ∃ N e ctx', ∀ n ≥ N, ctx.defaultDeferredNeverTargets n none = some (.error e, ctx') := by
  obtain ⟨effects, g, hrun, hfind, hbound, hdomain, hroot⟩ : ∃ effects g,
      (deferred.egraph.allocVarInDomain .root 1 .integer).2.tryUnify 5 .root (.inferVar 0)
        (.inferVar 1) = some (.ok effects, g) ∧
      g.find .root (.inferVar 0) = .inferVar 1 ∧ g.getBound .root (.inferVar 1) = .none ∧
        g.effectiveDomain .root (.inferVar 0) = some .integer ∧ g.IsMutable .root := by
    refine ⟨_, _, rfl, ?_, ?_, ?_, ?_, ?_⟩ <;> decide
  have hreach : Reachable { deferred with egraph := g } := by
    have hliteral := Reachable.step reachable_deferred
      (.infer [] (.alloc deferred_isMutable 1 .integer))
    exact .step hliteral (.infer [] (.transaction (by decide) (fun _ => by decide)
      (.tryUnifyBatch hrun)))
  have hnarrow : ¬g.Unnarrowed none (.inferVar 0) := fun hu => by
    have hany := hu 1 hfind (fun vars hvars => nomatch hvars) hbound
    rw [hdomain] at hany
    cases hany
  obtain ⟨N, r, ctx', hpass, hiff⟩ := (hreach.ready hroot).forEach_target [.inferVar 0]
  have htargets : deferred.deferredNeverTargets = [.inferVar 0] := by decide
  refine ⟨_, hreach, hroot, N, ?_⟩
  cases r with
  | error e =>
      refine ⟨e, ctx', fun n hn => ?_⟩
      rw [defaultDeferredNeverTargets, htargets, hpass n hn]
  | ok u =>
      exact absurd (hiff.mp rfl (.inferVar 0) (List.mem_singleton.mpr rfl)) hnarrow

end InferCtx

end Sage
